import Mathlib.Data.Nat.Bitwise

/-! # Double words in halves

A double word is shifted half by half: the bits that leave one half enter the other one.
-/

namespace OSLabs.Lib

variable {w s : Nat}

theorem append_ushiftRight_of_le (h l : BitVec w) (hs : s ≤ w) :
    (h >>> s) ++ ((h <<< (w - s)) ||| (l >>> s)) = (h ++ l) >>> s := by
  apply BitVec.eq_of_getLsbD_eq
  intro i hi
  simp only [BitVec.getLsbD_append, BitVec.getLsbD_or, BitVec.getLsbD_shiftLeft,
    BitVec.getLsbD_ushiftRight]
  by_cases hlow : i < w
  · by_cases hmove : s + i < w
    · simp [hlow, hmove, show i < w - s by omega]
    · simp [hlow, hmove, show ¬i < w - s by omega, show i - (w - s) = s + i - w by omega,
        show w ≤ s + i by omega]
  · simp [hlow, show ¬s + i < w by omega, show s + (i - w) = s + i - w by omega]

theorem append_ushiftRight_of_ge (h l : BitVec w) (hs : w ≤ s) :
    (0#w) ++ (h >>> (s - w)) = (h ++ l) >>> s := by
  apply BitVec.eq_of_getLsbD_eq
  intro i hi
  simp only [BitVec.getLsbD_append, BitVec.getLsbD_ushiftRight, BitVec.getLsbD_zero]
  by_cases hlow : i < w
  · simp [hlow, show ¬s + i < w by omega, show s - w + i = s + i - w by omega]
  · simp [hlow, show ¬s + i < w by omega, show w ≤ s + i - w by omega]

theorem append_shiftLeft_of_le (h l : BitVec w) (hs : s ≤ w) :
    ((h <<< s) ||| (l >>> (w - s))) ++ (l <<< s) = (h ++ l) <<< s := by
  apply BitVec.eq_of_getLsbD_eq
  intro i hi
  simp only [BitVec.getLsbD_append, BitVec.getLsbD_or, BitVec.getLsbD_shiftLeft,
    BitVec.getLsbD_ushiftRight]
  by_cases hlow : i < w
  · simp [hlow, hi, show i - s < w by omega]
  · by_cases hmove : i - s < w
    · simp [hlow, hi, hmove, show i - w < s by omega, show ¬i < s by omega,
        show w - s + (i - w) = i - s by omega]
    · simp [hlow, hi, hmove, show ¬i - w < s by omega, show ¬i < s by omega,
        show i - w < w by omega, show i - w - s = i - s - w by omega,
        show w ≤ w - s + (i - w) by omega]

theorem append_shiftLeft_of_ge (h l : BitVec w) (hs : w ≤ s) :
    (l <<< (s - w)) ++ (0#w) = (h ++ l) <<< s := by
  apply BitVec.eq_of_getLsbD_eq
  intro i hi
  simp only [BitVec.getLsbD_append, BitVec.getLsbD_shiftLeft, BitVec.getLsbD_zero]
  by_cases hlow : i < w
  · simp [hlow, show i < s by omega]
  · by_cases hin : i < s
    · simp [hlow, hin, show i - w < s - w by omega]
    · simp [hlow, hin, hi, show ¬i - w < s - w by omega, show i - w < w by omega,
        show i - s < w by omega, show i - w - (s - w) = i - s by omega]

theorem append_shiftLeft_or (h l c : BitVec w) (hw : 1 ≤ w) :
    ((h <<< 1) ||| (l >>> (w - 1))) ++ ((l <<< 1) ||| c) = (h ++ l) <<< 1 ||| c.setWidth (w + w) := by
  rw [← append_shiftLeft_of_le h l hw]
  apply BitVec.eq_of_getLsbD_eq
  intro i hi
  simp only [BitVec.getLsbD_append, BitVec.getLsbD_or, BitVec.getLsbD_setWidth, hi, decide_true,
    Bool.true_and]
  by_cases hlow : i < w
  · simp [hlow]
  · simp [hlow, BitVec.getLsbD_of_ge c i (by omega)]

theorem toNat_append_halves (h l : BitVec w) : (h ++ l).toNat = h.toNat * 2 ^ w + l.toNat := by
  rw [BitVec.toNat_append, ← Nat.shiftLeft_add_eq_or_of_lt l.isLt, Nat.shiftLeft_eq]

/-- A word moved up by one bit takes in a bit. -/
theorem toNat_shiftLeft_or (x c : BitVec w) (hc : c.toNat ≤ 1) :
    (x <<< 1 ||| c).toNat = x.toNat * 2 % 2 ^ w + c.toNat := by
  have heven : x.toNat * 2 % 2 ^ w = (x.toNat * 2 % 2 ^ w / 2) <<< 1 := by
    cases w with
    | zero => simp [Nat.mod_one]
    | succ w =>
        rw [Nat.shiftLeft_eq, Nat.pow_succ, Nat.mul_mod_mul_right]
        simp
  rw [BitVec.toNat_or, BitVec.toNat_shiftLeft, Nat.shiftLeft_eq, Nat.pow_one, heven,
    ← Nat.shiftLeft_add_eq_or_of_lt (show c.toNat < 2 ^ 1 by omega)]

end OSLabs.Lib
