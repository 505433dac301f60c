import Mathlib.Data.List.Basic

/-! # Stores with transfers of ranges

A store holds a value at each place. Transfers move ranges of values into it and out of it. A
log of transfers is served when each one out of the store gives what the last ones into it have
left there.
-/

namespace OSLabs.Lib

variable {α : Type}

/-! ## Ranges -/

/-- `n` values from `a` on replaced. -/
def splice (m : Nat → α) (a n : Nat) (f : Nat → α) : Nat → α :=
  fun p => if a ≤ p ∧ p < a + n then f (p - a) else m p

def slice (m : Nat → α) (a n : Nat) : List α := (List.range n).map fun i => m (a + i)

variable {m : Nat → α} {a n : Nat} {f g : Nat → α}

theorem splice_inside {p : Nat} (h : a ≤ p ∧ p < a + n) : splice m a n f p = f (p - a) :=
  if_pos h

theorem splice_outside {p : Nat} (h : ¬(a ≤ p ∧ p < a + n)) : splice m a n f p = m p :=
  if_neg h

theorem splice_zero : splice m a 0 f = m := by
  funext p
  exact splice_outside (by omega)

theorem splice_congr (h : ∀ i < n, f i = g i) : splice m a n f = splice m a n g := by
  funext p
  by_cases hp : a ≤ p ∧ p < a + n
  · rw [splice_inside hp, splice_inside hp, h _ (by omega)]
  · rw [splice_outside hp, splice_outside hp]

theorem splice_splice (k : Nat) :
    splice (splice m a n f) (a + n) k (fun i => f (n + i)) = splice m a (n + k) f := by
  funext p
  by_cases hlater : a + n ≤ p ∧ p < a + n + k
  · rw [splice_inside hlater, splice_inside (by omega)]
    exact congrArg f (by omega)
  · rw [splice_outside hlater]
    by_cases hfirst : a ≤ p ∧ p < a + n
    · rw [splice_inside hfirst, splice_inside (by omega)]
    · rw [splice_outside hfirst, splice_outside (by omega)]

@[simp] theorem length_slice (m : Nat → α) (a n : Nat) : (slice m a n).length = n := by
  simp [slice]

theorem getElem?_slice {i : Nat} (hi : i < n) : (slice m a n)[i]? = some (m (a + i)) := by
  simp [slice, hi]

theorem slice_congr {m' : Nat → α} {a' : Nat} (h : ∀ i < n, m (a + i) = m' (a' + i)) :
    slice m a n = slice m' a' n := by
  unfold slice
  apply List.map_congr_left
  intro i hi
  exact h i (List.mem_range.1 hi)

theorem slice_splice : slice (splice m a n f) a n = slice f 0 n := by
  apply slice_congr
  intro i hi
  rw [splice_inside (by omega), Nat.add_sub_cancel_left, Nat.zero_add]

/-! ## Transfers -/

inductive Transfer (α : Type) where
  | put (start : Nat) (data : List α)
  | got (start : Nat) (data : List α)

/-- What is asked of the store: for a transfer out of it only the range. -/
inductive Request (α : Type) where
  | put (start : Nat) (data : List α)
  | get (start count : Nat)

def Transfer.asked : Transfer α → Request α
  | put a data => .put a data
  | got a data => .get a data.length

def written (m : Nat → α) (a : Nat) (data : List α) : Nat → α :=
  splice m a data.length fun i => data.getD i (m (a + i))

theorem written_slice (g : Nat → α) (b : Nat) :
    written m a (slice g b n) = splice m a n fun i => g (b + i) := by
  unfold written
  rw [length_slice]
  apply splice_congr
  intro i hi
  rw [List.getD_eq_getElem?_getD, getElem?_slice hi, Option.getD_some]

def Transfer.after (m : Nat → α) : Transfer α → Nat → α
  | put a data => written m a data
  | got _ _ => m

def contents (m : Nat → α) (log : List (Transfer α)) : Nat → α := log.foldl Transfer.after m

def Served : (Nat → α) → List (Transfer α) → Prop
  | _, [] => True
  | m, .put a data :: log => Served (written m a data) log
  | m, .got a data :: log => data = slice m a data.length ∧ Served m log

theorem contents_append (m : Nat → α) (log log' : List (Transfer α)) :
    contents m (log ++ log') = contents (contents m log) log' :=
  List.foldl_append

theorem served_append {log log' : List (Transfer α)} :
    Served m (log ++ log') ↔ Served m log ∧ Served (contents m log) log' := by
  induction log generalizing m with
  | nil => simp [Served, contents]
  | cons t log ih =>
      cases t with
      | put a data => exact ih
      | got a data =>
          have htail := ih (m := m)
          simp only [List.cons_append, Served, htail, and_assoc]
          rfl

/-- What is asked decides what a store gives. -/
theorem Served.unique {log log' : List (Transfer α)} (h : Served m log) (h' : Served m log')
    (hasked : log.map Transfer.asked = log'.map Transfer.asked) : log = log' := by
  induction log generalizing m log' with
  | nil => exact (List.map_eq_nil_iff.1 hasked.symm).symm
  | cons t log ih =>
      cases log' with
      | nil => cases hasked
      | cons t' log' =>
          rw [List.map_cons, List.map_cons, List.cons.injEq] at hasked
          cases t with
          | put a data =>
              cases t' with
              | put a' data' =>
                  cases hasked.1
                  rw [ih h h' hasked.2]
              | got a' data' => cases hasked.1
          | got a data =>
              cases t' with
              | put a' data' => cases hasked.1
              | got a' data' =>
                  have hrange : a = a' ∧ data.length = data'.length := by
                    simpa [Transfer.asked] using hasked.1
                  have hdata : data = data' := by
                    rw [h.1, h'.1, hrange.1, hrange.2]
                  rw [ih h.2 h'.2 hasked.2, hrange.1, hdata]

end OSLabs.Lib
