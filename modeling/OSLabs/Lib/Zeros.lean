import Mathlib.Data.Nat.Size
import OSLabs.Lib.Masks

/-! # Counting zeros by halves

The zeros above the leading one, and those below the trailing one, are found by looking at
half of the bits that are left: if they are all zero they are counted, else the search goes
on in them.
-/

namespace OSLabs.Lib

variable {a w k r x c : Nat}

theorem size_div_two_pow (x k : Nat) : (x / 2 ^ k).size = x.size - k := by
  apply eq_of_forall_ge_iff
  intro n
  rw [Nat.size_le, Nat.div_lt_iff_lt_mul (Nat.two_pow_pos k), ← Nat.pow_add, ← Nat.size_le]
  omega

/-! ## The counts of a word -/

theorem clz_toNat {w : Nat} (a : BitVec w) : a.clz.toNat = w - a.toNat.size := by
  by_cases ha : a = 0#w
  · rw [ha, (BitVec.clz_eq_iff_eq_zero (x := 0#w)).2 rfl]
    simp
  · have hw : 0 < w := by
      cases w with
      | zero => exact absurd (BitVec.eq_nil a) (by simpa using ha)
      | succ w => omega
    have hupper := Nat.size_le.2 (BitVec.toNat_lt_two_pow_sub_clz (x := a))
    have hlower := Nat.lt_size.2 (BitVec.two_pow_sub_clz_le_toNat_of_ne_zero hw ha)
    omega

theorem ctz_zero (w : Nat) : (0#w).ctz.toNat = w := by
  have hzero : (0#w).reverse = 0#w := BitVec.reverse_eq_zero_iff.2 rfl
  rw [BitVec.ctz, hzero, clz_toNat]
  simp

theorem ctz_spec {w : Nat} {a : BitVec w} (ha : a ≠ 0#w) :
    a.toNat % 2 ^ a.ctz.toNat = 0 ∧ a.toNat.testBit a.ctz.toNat = true := by
  constructor
  · apply Nat.eq_of_testBit_eq
    intro i
    rw [Nat.testBit_mod_two_pow, Nat.zero_testBit]
    by_cases hi : i < a.ctz.toNat
    · have hfalse : a.toNat.testBit i = false := BitVec.getLsbD_false_of_lt_ctz hi
      rw [hfalse, Bool.and_false]
    · simp [hi]
  · exact BitVec.getLsbD_true_ctz_of_ne_zero ha

theorem ctz_toNat {w : Nat} {a : BitVec w} {c : Nat} (hlow : a.toNat % 2 ^ c = 0)
    (hbit : a.toNat.testBit c = true) : a.ctz.toNat = c := by
  have ha : a ≠ 0#w := by
    intro hzero
    simp [hzero] at hbit
  have hspec := ctz_spec ha
  rcases Nat.lt_trichotomy a.ctz.toNat c with hlt | heq | hgt
  · have hfalse : (a.toNat % 2 ^ c).testBit a.ctz.toNat = a.toNat.testBit a.ctz.toNat := by
      simp [hlt]
    rw [hlow, Nat.zero_testBit, hspec.2] at hfalse
    exact absurd hfalse (by decide)
  · exact heq
  · have hfalse : (a.toNat % 2 ^ a.ctz.toNat).testBit c = a.toNat.testBit c := by
      simp [hgt]
    rw [hspec.1, Nat.zero_testBit, hbit] at hfalse
    exact absurd hfalse (by decide)

/-! ## The search -/

/-- Of the `w` bits of `a` the upper ones are counted, `r` of them zero, and `x` is what
`k` bits still hold. -/
structure Leading (a w k r x : Nat) : Prop where
  size : x.size + (w - k) = a.size + r
  bound : x < 2 ^ k

namespace Leading

theorem start (h : a < 2 ^ w) : Leading a w w 0 a where
  size := by omega
  bound := h

/-- The search goes on in the upper half, unless it is zero. -/
theorem half (h : Leading a w (k + k) r x) (hk : k + k ≤ w) :
    Leading a w k (r + if x < 2 ^ k then k else 0) (x / 2 ^ (k - if x < 2 ^ k then k else 0)) := by
  have hsize := h.size
  by_cases hlow : x < 2 ^ k
  · rw [if_pos hlow, Nat.sub_self, Nat.pow_zero, Nat.div_one]
    exact ⟨by omega, hlow⟩
  · rw [if_neg hlow, Nat.sub_zero, Nat.add_zero]
    constructor
    · have hpart : k < x.size := Nat.lt_size.2 (by omega)
      rw [size_div_two_pow]
      omega
    · rw [Nat.div_lt_iff_lt_mul (Nat.two_pow_pos k), ← Nat.pow_add]
      exact h.bound

theorem clz {a : BitVec w} {y : BitVec k} (h : Leading a.toNat w k r y.toNat) (hk : k ≤ w) :
    a.clz.toNat = r + y.clz.toNat := by
  have hsize := h.size
  have ha := Nat.size_le.2 a.isLt
  have hy := Nat.size_le.2 y.isLt
  rw [clz_toNat, clz_toNat]
  omega

end Leading

/-- `r` zeros of `a` are counted, `x` is what lies above them, and if `k` more are zero then
these are all of the `w` bits. -/
structure Trailing (a w k r x : Nat) : Prop where
  room : r + k ≤ w
  value : a = x * 2 ^ r
  rest : x % 2 ^ k = 0 → r + k = w

namespace Trailing

theorem start : Trailing a w w 0 a where
  room := by omega
  value := by omega
  rest := by omega

/-- The search goes on in the lower half, unless it is zero. -/
theorem half (h : Trailing a w (k + k) r x) :
    Trailing a w k (r + if x % 2 ^ k = 0 then k else 0) (x / 2 ^ (if x % 2 ^ k = 0 then k else 0)) := by
  have hroom := h.room
  by_cases hlow : x % 2 ^ k = 0
  · have hx : x = x / 2 ^ k * 2 ^ k := by
      have := Nat.div_add_mod x (2 ^ k)
      rw [hlow, Nat.add_zero, Nat.mul_comm] at this
      exact this.symm
    rw [if_pos hlow]
    refine ⟨by omega, ?_, ?_⟩
    · calc
        a = x * 2 ^ r := h.value
        _ = x / 2 ^ k * 2 ^ k * 2 ^ r := by rw [← hx]
        _ = x / 2 ^ k * 2 ^ (r + k) := by rw [Nat.mul_assoc, ← Nat.pow_add, Nat.add_comm k r]
    · intro hnext
      have hall : x % 2 ^ (k + k) = 0 := by
        rw [hx, Nat.pow_add, Nat.mul_mod_mul_right, hnext, Nat.zero_mul]
      have := h.rest hall
      omega
  · rw [if_neg hlow, Nat.pow_zero, Nat.div_one, Nat.add_zero]
    exact ⟨by omega, h.value, fun hzero => absurd hzero hlow⟩

theorem eq_zero (h : Trailing a w k r x) (ha : a < 2 ^ w) (hx : x % 2 ^ k = 0) : a = 0 := by
  have hall : a % 2 ^ w = 0 := by
    have hxk : x = 2 ^ k * (x / 2 ^ k) := by
      have := Nat.div_add_mod x (2 ^ k)
      omega
    rw [h.value, ← h.rest hx, hxk, Nat.pow_add, Nat.mul_right_comm, Nat.mul_comm (2 ^ k) (2 ^ r),
      Nat.mul_mod_right]
  rw [Nat.mod_eq_of_lt ha] at hall
  exact hall

theorem ctz {a : BitVec w} {y : BitVec k} (h : Trailing a.toNat w k r x)
    (hy : y.toNat = x % 2 ^ k) : a.ctz.toNat = r + y.ctz.toNat := by
  by_cases hzero : y = 0#k
  · have hx : x % 2 ^ k = 0 := by
      rw [← hy, hzero]
      rfl
    have ha : a = 0#w := BitVec.eq_of_toNat_eq (h.eq_zero a.isLt hx)
    rw [ha, hzero, ctz_zero, ctz_zero, h.rest hx]
  · have hspec := ctz_spec hzero
    have hlt : y.ctz.toNat < k := by
      by_contra hge
      have hbit := hspec.2
      rw [Nat.testBit_lt_two_pow (Nat.lt_of_lt_of_le y.isLt
        (Nat.pow_le_pow_right (by decide) (by omega)))] at hbit
      exact absurd hbit (by decide)
    have hlow : x % 2 ^ y.ctz.toNat = 0 := by
      rw [← Nat.mod_mod_of_dvd x (Nat.pow_dvd_pow 2 (Nat.le_of_lt hlt)), ← hy]
      exact hspec.1
    have hbit : x.testBit y.ctz.toNat = true := by
      have hmod : (x % 2 ^ k).testBit y.ctz.toNat = x.testBit y.ctz.toNat := by
        simp [hlt]
      rw [← hmod, ← hy]
      exact hspec.2
    apply ctz_toNat
    · rw [h.value, Nat.add_comm, Nat.pow_add, Nat.mul_mod_mul_right, hlow, Nat.zero_mul]
    · rw [h.value, Nat.testBit_mul_two_pow, Nat.add_sub_cancel_left, hbit]
      simp

end Trailing

end OSLabs.Lib
