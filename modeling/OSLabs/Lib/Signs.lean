import Mathlib.Data.Nat.Bitwise

/-! # Signs of words

An arithmetic shift by all places leaves a mask of the sign, which negates a word without a
branch.
-/

namespace OSLabs.Lib

variable {w : Nat}

/-- All ones, or zero. -/
def mask (w : Nat) (p : Prop) [Decidable p] : BitVec w := if p then BitVec.allOnes w else 0#w

theorem sshiftRight_sign (x : BitVec (w + 1)) : x.sshiftRight w = mask (w + 1) (x.msb = true) := by
  have htop : x.getLsbD w = x.msb := (BitVec.msb_eq_getLsbD_last x).symm
  apply BitVec.eq_of_getLsbD_eq
  intro i hi
  have hbit : (if w + i < w + 1 then x.getLsbD (w + i) else x.msb) = x.msb := by
    split
    · rw [show w + i = w by omega, htop]
    · rfl
  rw [BitVec.getLsbD_sshiftRight, hbit, decide_eq_false (by omega : ¬w + 1 ≤ i), mask]
  cases x.msb with
  | true => simp [hi]
  | false => simp

theorem xor_sub_mask (x : BitVec w) (p : Prop) [Decidable p] :
    (x ^^^ mask w p) - mask w p = if p then -x else x := by
  by_cases hp : p
  · rw [mask, if_pos hp, if_pos hp, BitVec.xor_allOnes, ← BitVec.neg_one_eq_allOnes,
      BitVec.sub_neg, ← BitVec.neg_eq_not_add]
  · rw [mask, if_neg hp, if_neg hp, BitVec.xor_zero, BitVec.sub_zero]

theorem mask_xor (p q : Prop) [Decidable p] [Decidable q] :
    mask w p ^^^ mask w q = mask w (p ↔ ¬q) := by
  by_cases hp : p <;> by_cases hq : q <;> simp [mask, hp, hq]

theorem and_mask (x : BitVec w) (p : Prop) [Decidable p] :
    x &&& mask w p = if p then x else 0#w := by
  by_cases hp : p
  · rw [mask, if_pos hp, if_pos hp, BitVec.and_allOnes]
  · rw [mask, if_neg hp, if_neg hp, BitVec.and_zero]

end OSLabs.Lib
