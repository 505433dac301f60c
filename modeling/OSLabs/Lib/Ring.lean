import Mathlib.Logic.Function.Basic

/-! # Rings

An array of `n` slots with a front and a rear index that wrap around. Between the two
indices the ring holds a list; equal indices mean the empty list, so a ring holds fewer
than `n` elements.
-/

namespace OSLabs.Lib

variable {α : Type}

theorem wrap_eq {n f i : Nat} (hf : f < n) (hi : i ≤ n) :
    (f + i) % n = if f + i < n then f + i else f + i - n := by
  by_cases h : f + i < n
  · rw [if_pos h, Nat.mod_eq_of_lt h]
  · rw [if_neg h, Nat.mod_eq_sub_mod (by omega), Nat.mod_eq_of_lt (by omega)]

theorem wrap_inj {n f i j : Nat} (hf : f < n) (hi : i < n) (hj : j < n)
    (h : (f + i) % n = (f + j) % n) :
    i = j := by
  rw [wrap_eq hf (by omega), wrap_eq hf (by omega)] at h
  split at h
  · split at h
    · omega
    · omega
  · split at h
    · omega
    · omega

/-- The slots of `a` from `f` up to `r` hold `l`. -/
structure Ring (n : Nat) (a : Nat → α) (f r : Nat) (l : List α) : Prop where
  front_lt : f < n
  length_lt : l.length < n
  rear : r = (f + l.length) % n
  slot : ∀ (i : Nat) (x : α), l[i]? = some x → a ((f + i) % n) = x

namespace Ring

variable {n f r : Nat} {a : Nat → α} {l : List α}

theorem empty (h : f < n) : Ring n a f f [] where
  front_lt := h
  length_lt := by
    rw [List.length_nil]
    omega
  rear := by rw [List.length_nil, Nat.add_zero, Nat.mod_eq_of_lt h]
  slot := by
    intro i x hx
    cases hx

theorem front_eq_rear_iff (h : Ring n a f r l) : f = r ↔ l = [] := by
  constructor
  · intro hfr
    have hwrap : (f + l.length) % n = (f + 0) % n := by
      rw [← h.rear, ← hfr, Nat.add_zero, Nat.mod_eq_of_lt h.front_lt]
    have hf := h.front_lt
    exact List.length_eq_zero_iff.1 (wrap_inj h.front_lt h.length_lt (by omega) hwrap)
  · intro hl
    rw [h.rear, hl, List.length_nil, Nat.add_zero, Nat.mod_eq_of_lt h.front_lt]

/-- The next rear is the front exactly when one slot is free. -/
theorem rear_succ_eq_front_iff (h : Ring n a f r l) :
    (r + 1) % n = f ↔ l.length + 1 = n := by
  have hf := h.front_lt
  have hl := h.length_lt
  have hnext : (r + 1) % n = (f + (l.length + 1)) % n := by
    rw [h.rear, Nat.mod_add_mod, Nat.add_assoc]
  rw [hnext, wrap_eq hf (by omega)]
  split <;> omega

theorem push (h : Ring n a f r l) (x : α) (hroom : l.length + 1 < n) :
    Ring n (Function.update a r x) f ((r + 1) % n) (l ++ [x]) where
  front_lt := h.front_lt
  length_lt := by simpa using hroom
  rear := by
    rw [h.rear, Nat.mod_add_mod, Nat.add_assoc, List.length_append, List.length_singleton]
  slot := by
    intro i y hy
    by_cases hi : i < l.length
    · have hne : (f + i) % n ≠ r := by
        intro heq
        rw [h.rear] at heq
        have := wrap_inj h.front_lt (by omega) h.length_lt heq
        omega
      rw [Function.update_of_ne hne]
      rw [List.getElem?_append_left hi] at hy
      exact h.slot i y hy
    · rw [List.getElem?_append_right (by omega)] at hy
      have hlast : i = l.length := by
        have := (List.getElem?_eq_some_iff.1 hy).1
        rw [List.length_singleton] at this
        omega
      subst hlast
      rw [← h.rear, Function.update_self]
      simpa using hy

theorem pop {x : α} (h : Ring n a f r (x :: l)) :
    a f = x ∧ Ring n a ((f + 1) % n) r l := by
  have hf := h.front_lt
  have hl := h.length_lt
  rw [List.length_cons] at hl
  constructor
  · have hslot := h.slot 0 x rfl
    rwa [Nat.add_zero, Nat.mod_eq_of_lt h.front_lt] at hslot
  · constructor
    · exact Nat.mod_lt _ (by omega)
    · omega
    · rw [h.rear, Nat.mod_add_mod, List.length_cons, Nat.add_assoc, Nat.add_comm 1]
    · intro i y hy
      rw [Nat.mod_add_mod, Nat.add_assoc, Nat.add_comm 1]
      exact h.slot (i + 1) y (by simpa using hy)

end Ring

end OSLabs.Lib
