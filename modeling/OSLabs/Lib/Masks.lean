import Mathlib.Data.Nat.Bitwise

/-! # Bit fields of words

A word of an aligned address and flags below the alignment keeps both apart, and a mask
of consecutive ones reads the field of bits that it covers.
-/

namespace OSLabs.Lib

variable {a s k q f m : Nat}

theorem and_fieldMask (a s k : Nat) : a &&& ((2 ^ k - 1) <<< s) = ((a >>> s) % 2 ^ k) <<< s := by
  apply Nat.eq_of_testBit_eq
  intro j
  rw [Nat.testBit_and, Nat.testBit_shiftLeft, Nat.testBit_two_pow_sub_one, Nat.testBit_shiftLeft,
    Nat.testBit_mod_two_pow, Nat.testBit_shiftRight]
  by_cases hj : s ≤ j
  · rw [show s + (j - s) = j by omega]
    cases a.testBit j <;> simp
  · simp [hj]

theorem field_eq (a s k : Nat) : (a &&& ((2 ^ k - 1) <<< s)) >>> s = a / 2 ^ s % 2 ^ k := by
  rw [and_fieldMask, Nat.shiftLeft_shiftRight, Nat.shiftRight_eq_div_pow]

/-- The field in its place is the word without its low bits, if the word has no more. -/
theorem and_fieldMask_of_lt (hlt : a < 2 ^ (s + k)) :
    a &&& ((2 ^ k - 1) <<< s) = a - a % 2 ^ s := by
  have hdiv : a / 2 ^ s < 2 ^ k := by
    rw [Nat.div_lt_iff_lt_mul (Nat.two_pow_pos s), ← Nat.pow_add, Nat.add_comm]
    exact hlt
  rw [and_fieldMask, Nat.shiftRight_eq_div_pow, Nat.mod_eq_of_lt hdiv, Nat.shiftLeft_eq,
    ← Nat.div_add_mod a (2 ^ s), Nat.mul_add_mod_self_left, Nat.mod_mod,
    Nat.mul_add_div (Nat.two_pow_pos s), Nat.div_eq_of_lt (Nat.mod_lt _ (Nat.two_pow_pos s)),
    Nat.mul_comm]
  simp

theorem and_flags_of_aligned (hq : q % 2 ^ s = 0) (hm : m < 2 ^ s) : q &&& m = 0 := by
  apply Nat.eq_of_testBit_eq
  intro j
  rw [Nat.testBit_and, Nat.zero_testBit]
  by_cases hj : j < s
  · have hlow : (q % 2 ^ s).testBit j = q.testBit j := by simp [hj]
    rw [← hlow, hq]
    simp
  · have hhigh : m.testBit j = false :=
      Nat.testBit_lt_two_pow (Nat.lt_of_lt_of_le hm (Nat.pow_le_pow_right (by decide) (by omega)))
    simp [hhigh]

/-- Flags are read as if the address were not there. -/
theorem or_and_flags (hq : q % 2 ^ s = 0) (hm : m < 2 ^ s) : (q ||| f) &&& m = f &&& m := by
  rw [Nat.and_or_distrib_right, and_flags_of_aligned hq hm, Nat.zero_or]

/-- The address is read as if the flags were not there. -/
theorem or_and_fieldMask (hf : f < 2 ^ s) (a m : Nat) : (a ||| f) &&& (m <<< s) = a &&& (m <<< s) := by
  have hmask : m <<< s % 2 ^ s = 0 := by
    rw [Nat.shiftLeft_eq, Nat.mul_mod_left]
  rw [Nat.and_or_distrib_right, Nat.and_comm f, and_flags_of_aligned hmask hf, Nat.or_zero]

end OSLabs.Lib
