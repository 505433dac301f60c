import Mathlib.Data.Nat.Bitwise

/-! # Division bit by bit

A number is divided from its top bits down: the quotient and the remainder of the bits read
so far give those of one bit more by a comparison and a subtraction.
-/

namespace OSLabs.Lib

variable {n d k q r b : Nat}

/-- `q` and `r` are quotient and remainder of `n` without its last `k` bits. -/
structure Divided (n d k q r : Nat) : Prop where
  equation : n / 2 ^ k = q * d + r
  remainder : r < d

namespace Divided

/-- As long as the bits read are less than the divisor, there is nothing to do. -/
theorem start (h : n / 2 ^ k < d) : Divided n d k 0 (n / 2 ^ k) where
  equation := by omega
  remainder := h

/-- One bit more: the divisor is taken off, if it fits. -/
theorem next (h : Divided n d (k + 1) q r) (hb : b = n / 2 ^ k % 2) :
    Divided n d k (if d ≤ 2 * r + b then 2 * q + 1 else 2 * q)
      (if d ≤ 2 * r + b then 2 * r + b - d else 2 * r + b) := by
  have hpow : n / 2 ^ k = 2 * (n / 2 ^ (k + 1)) + b := by
    rw [Nat.pow_succ, ← Nat.div_div_eq_div_mul, hb]
    omega
  have hequation := h.equation
  have hremainder := h.remainder
  have hdouble : 2 * q * d = 2 * (q * d) := by rw [Nat.mul_assoc]
  have hodd : (2 * q + 1) * d = 2 * (q * d) + d := by
    rw [Nat.add_mul, Nat.one_mul, hdouble]
  by_cases hfits : d ≤ 2 * r + b
  · rw [if_pos hfits, if_pos hfits]
    exact ⟨by omega, by omega⟩
  · rw [if_neg hfits, if_neg hfits]
    exact ⟨by omega, by omega⟩

theorem quotient_le (h : Divided n d k q r) : q ≤ n / 2 ^ k := by
  have hpos : 1 ≤ d := by
    have := h.remainder
    omega
  calc
    q = q * 1 := (Nat.mul_one q).symm
    _ ≤ q * d := Nat.mul_le_mul_left q hpos
    _ ≤ n / 2 ^ k := by
      have := h.equation
      omega

theorem result (h : Divided n d 0 q r) : q = n / d ∧ r = n % d := by
  have hequation : n = d * q + r := by
    have := h.equation
    rw [Nat.pow_zero, Nat.div_one] at this
    rw [this, Nat.mul_comm]
  have hpos : 0 < d := Nat.lt_of_le_of_lt (Nat.zero_le r) h.remainder
  constructor
  · rw [hequation, Nat.mul_add_div hpos, Nat.div_eq_of_lt h.remainder, Nat.add_zero]
  · rw [hequation, Nat.mul_add_mod_self_left, Nat.mod_eq_of_lt h.remainder]

end Divided

/-- A divisor of whole blocks does not see what is below the block. -/
theorem div_mod_blocks {h l b k : Nat} (hl : l < b) :
    (h * b + l) / (k * b) = h / k ∧ (h * b + l) % (k * b) = h % k * b + l := by
  have hpos : 0 < b := Nat.lt_of_le_of_lt (Nat.zero_le l) hl
  have hdiv : (h * b + l) / b = h := by
    rw [Nat.mul_comm, Nat.mul_add_div hpos, Nat.div_eq_of_lt hl, Nat.add_zero]
  have hmod : (h * b + l) % b = l := by
    rw [Nat.mul_comm, Nat.mul_add_mod_self_left, Nat.mod_eq_of_lt hl]
  constructor
  · rw [Nat.mul_comm k b, ← Nat.div_div_eq_div_mul, hdiv]
  · rw [Nat.mul_comm k b, Nat.mod_mul, hdiv, hmod, Nat.add_comm, Nat.mul_comm]

end OSLabs.Lib
