import Mathlib.Data.List.InsertIdx
import Mathlib.Data.List.Nodup
import Mathlib.Data.List.Range
import Mathlib.Logic.Function.Basic

/-! # Arrays with a fill count

An array `a` of which the first `n` slots are in use is read as the list
`slots a n`. Appending at the count, dropping a slot by moving the later ones down,
and searching from slot zero are the operations of this list.
-/

namespace OSLabs.Lib

variable {α : Type}

def slots (a : Nat → α) (n : Nat) : List α := (List.range n).map a

@[simp] theorem slots_length (a : Nat → α) (n : Nat) : (slots a n).length = n := by
  simp [slots]

theorem slots_getElem? (a : Nat → α) (n i : Nat) :
    (slots a n)[i]? = if i < n then some (a i) else none := by
  by_cases h : i < n
  · simp [slots, h]
  · simp [slots, h]

theorem mem_slots {a : Nat → α} {n : Nat} {x : α} : x ∈ slots a n ↔ ∃ i < n, a i = x := by
  simp [slots]

theorem slots_push (a : Nat → α) (n : Nat) (x : α) :
    slots (Function.update a n x) (n + 1) = slots a n ++ [x] := by
  have hlow : slots (Function.update a n x) n = slots a n :=
    List.map_congr_left fun i hi =>
      Function.update_of_ne (Nat.ne_of_lt (List.mem_range.1 hi)) _ _
  rw [slots, List.range_succ, List.map_append, ← slots, hlow]
  simp

/-- Moving the slots behind `i` down by one drops slot `i`. -/
theorem slots_drop {a b : Nat → α} {n i : Nat} (hi : i < n)
    (low : ∀ j < i, b j = a j) (high : ∀ j, i ≤ j → j < n - 1 → b j = a (j + 1)) :
    slots b (n - 1) = (slots a n).eraseIdx i := by
  apply List.ext_getElem?
  intro j
  rw [List.getElem?_eraseIdx]
  simp only [slots_getElem?]
  by_cases hj : j < i
  · rw [if_pos hj, if_pos (by omega), if_pos (by omega), low j hj]
  · rw [if_neg hj]
    by_cases hn : j < n - 1
    · rw [if_pos hn, if_pos (by omega), high j (by omega) hn]
    · rw [if_neg hn, if_neg (by omega)]

/-- In a list without repetitions, dropping the slot that holds `x` keeps exactly the
other elements. -/
theorem eraseIdx_eq_filter [DecidableEq α] {l : List α} (hl : l.Nodup) {i : Nat} {x : α}
    (hx : l[i]? = some x) : l.eraseIdx i = l.filter fun y => y ≠ x := by
  obtain ⟨hi, hget⟩ := List.getElem?_eq_some_iff.1 hx
  rw [← List.Nodup.erase_getElem hl i hi, hget, List.Nodup.erase_eq_filter hl]
  apply List.filter_congr
  intro y _
  rw [bne, Bool.beq_eq_decide_eq, decide_not]

end OSLabs.Lib
