import Mathlib.Tactic.Ring
import OSLabs.Klib.Counting
import OSLabs.Lib.Division
import OSLabs.Lib.Halves
import OSLabs.Lib.Signs

/-! # klib: division

`__udivmoddi4` divides bit by bit after it has shifted so far that the quotient of the rest
fits, and it takes the sign of a difference for a comparison; both are right whenever the
loop is reached. The signed routines divide the absolute values.
-/

namespace OSLabs.Klib

open OSLabs.Lib

variable {n d : BitVec 64} {s : Division} {k : Nat} {rem : Bool}

/-! ## Double words and their halves -/

theorem UDwords.toNat_all (x : UDwords) : x.all.toNat = x.high.toNat * 2 ^ 32 + x.low.toNat :=
  toNat_append_halves x.high x.low

theorem udwords_all (a : BitVec 64) : (udwords a).all = a := by
  apply BitVec.eq_of_toNat_eq
  rw [UDwords.toNat_all, udwords_high, udwords_low]
  omega

/-- A double word moves up by one bit and takes in the top bit of `y`. -/
theorem toNat_moved (x : UDwords) (c : BitVec 32) (hc : c.toNat ≤ 1) :
    (UDwords.mk ((x.high <<< 1) ||| (x.low >>> 31)) ((x.low <<< 1) ||| c)).all.toNat =
      x.all.toNat * 2 % 2 ^ 64 + c.toNat := by
  have hmoved := append_shiftLeft_or x.high x.low c (by decide)
  have hwide : (c.setWidth 64).toNat = c.toNat := by
    rw [BitVec.toNat_setWidth]
    omega
  calc
    _ = (x.all <<< 1 ||| c.setWidth 64).toNat := congrArg BitVec.toNat hmoved
    _ = x.all.toNat * 2 % 2 ^ 64 + (c.setWidth 64).toNat := toNat_shiftLeft_or _ _ (by omega)
    _ = _ := by rw [hwide]

theorem toNat_topBit (x : UDwords) : (x.high >>> 31).toNat = x.all.toNat / 2 ^ 63 := by
  rw [UDwords.toNat_all, BitVec.toNat_ushiftRight, Nat.shiftRight_eq_div_pow]
  omega

/-! ## The loop -/

/-- The sign of `d - r - 1` tells whether `d` fits into `r`, unless they are far apart. -/
theorem mask_eq {r : BitVec 64} (hfits : d.toNat ≤ r.toNat → r.toNat - d.toNat < 2 ^ 63)
    (hless : r.toNat < d.toNat → d.toNat - r.toNat ≤ 2 ^ 63) :
    (d - r - 1).sshiftRight 63 = mask 64 (d.toNat ≤ r.toNat) := by
  have hsub : (d - r - 1).toNat = (2 ^ 64 - 1 + (2 ^ 64 - r.toNat + d.toNat) % 2 ^ 64) % 2 ^ 64 := by
    rw [BitVec.toNat_sub, BitVec.toNat_sub]
    rfl
  have hsign : (d - r - 1).msb = true ↔ d.toNat ≤ r.toNat := by
    rw [BitVec.msb_eq_decide, decide_eq_true_iff, hsub]
    have hr := r.isLt
    have hd := d.isLt
    by_cases hle : d.toNat ≤ r.toNat
    · have hnear := hfits hle
      omega
    · have hnear := hless (by omega)
      omega
  rw [sshiftRight_sign]
  exact if_congr hsign rfl rfl

/-- In a round the divisor is taken off, if it fits. -/
theorem divisionRound_r {r : BitVec 64}
    (hr : (UDwords.mk ((s.r.high <<< 1) ||| (s.r.low >>> 31))
      ((s.r.low <<< 1) ||| (s.q.high >>> 31))).all = r)
    (hmask : (d - r - 1).sshiftRight 63 = mask 64 (d.toNat ≤ r.toNat)) :
    (divisionRound d s).r.all.toNat = (if d.toNat ≤ r.toNat then r.toNat - d.toNat else r.toNat) ∧
      (divisionRound d s).carry.toNat = if d.toNat ≤ r.toNat then 1 else 0 := by
  simp only [divisionRound, hr, hmask, and_mask, udwords_all]
  by_cases hle : d.toNat ≤ r.toNat
  · rw [if_pos hle, if_pos hle, if_pos hle, BitVec.toNat_sub_of_le hle, mask, if_pos hle]
    exact ⟨rfl, by decide⟩
  · rw [if_neg hle, if_neg hle, if_neg hle, mask, if_neg hle]
    exact ⟨by simp, by decide⟩

/-- Before a round, with `k` to go: the upper bits of `q` are those of `n` that are not yet
divided, the lower ones are the quotient but for its last bit, which is the carry. -/
structure Dividing (n d : BitVec 64) (k : Nat) (s : Division) : Prop where
  carry : s.carry.toNat ≤ 1
  quotient : ∃ quotient, s.q.all.toNat = n.toNat % 2 ^ k * 2 ^ (64 - k) + quotient ∧
    Divided n.toNat d.toNat k (2 * quotient + s.carry.toNat) s.r.all.toNat

/-- The divisor is small, or only the last round is left and both numbers are large. -/
def Comparable (n d : BitVec 64) (k : Nat) : Prop :=
  d.toNat < 2 ^ 63 ∨ k ≤ 1 ∧ 2 ^ 63 ≤ n.toNat

theorem Comparable.mono {m : Nat} (h : Comparable n d k) (hm : m ≤ k) : Comparable n d m := by
  rcases h with hsmall | ⟨hk, hlarge⟩
  · exact Or.inl hsmall
  · exact Or.inr ⟨by omega, hlarge⟩

/-- The top bit of `q` is the next bit of `n`, and the others move up. -/
theorem moved_quotient {n q quotient c : Nat} (hk : k < 63) (hquotient : quotient < 2 ^ (63 - k))
    (hq : q = n % 2 ^ (k + 1) * 2 ^ (64 - (k + 1)) + quotient) :
    q / 2 ^ 63 = n / 2 ^ k % 2 ∧
      q * 2 % 2 ^ 64 + c = n % 2 ^ k * 2 ^ (64 - k) + (2 * quotient + c) := by
  have hpart : n % 2 ^ (k + 1) = n % 2 ^ k + 2 ^ k * (n / 2 ^ k % 2) := Nat.mod_pow_succ
  have hwhole : 2 ^ k * 2 ^ (63 - k) = 2 ^ 63 := by
    rw [← Nat.pow_add]
    congr 1
    omega
  have hdouble : n % 2 ^ k * 2 ^ (64 - k) = 2 * (n % 2 ^ k * 2 ^ (63 - k)) := by
    rw [show 64 - k = 63 - k + 1 by omega, Nat.pow_succ]
    ring
  have hrest : n % 2 ^ k * 2 ^ (63 - k) + 2 ^ (63 - k) ≤ 2 ^ 63 := by
    have hlt : n % 2 ^ k + 1 ≤ 2 ^ k := Nat.mod_lt _ (Nat.two_pow_pos k)
    calc
      n % 2 ^ k * 2 ^ (63 - k) + 2 ^ (63 - k) = (n % 2 ^ k + 1) * 2 ^ (63 - k) := by ring
      _ ≤ 2 ^ k * 2 ^ (63 - k) := Nat.mul_le_mul_right _ hlt
      _ = 2 ^ 63 := hwhole
  have hsplit : q = n / 2 ^ k % 2 * 2 ^ 63 + (n % 2 ^ k * 2 ^ (63 - k) + quotient) := by
    rw [hq, hpart, ← hwhole, show 64 - (k + 1) = 63 - k by omega]
    ring
  constructor
  · omega
  · rw [hdouble]
    omega

/-- A round of the loop divides one bit more. -/
theorem Dividing.round (h : Dividing n d (k + 1) s) (hk : k < 63)
    (hcompare : Comparable n d (k + 1)) : Dividing n d k (divisionRound d s) := by
  have hcarry := h.carry
  obtain ⟨quotient, hq, hdivided⟩ := h.quotient
  have hequation := hdivided.equation
  have hremainder := hdivided.remainder
  have hnext : n.toNat / 2 ^ k = 2 * (n.toNat / 2 ^ (k + 1)) + n.toNat / 2 ^ k % 2 := by
    rw [Nat.pow_succ, ← Nat.div_div_eq_div_mul]
    omega
  have hroom : n.toNat / 2 ^ k < 2 ^ 64 := Nat.lt_of_le_of_lt (Nat.div_le_self _ _) n.isLt
  have hquotient : quotient < 2 ^ (63 - k) := by
    have hle := hdivided.quotient_le
    have hlt : n.toNat / 2 ^ (k + 1) < 2 ^ (63 - k) := by
      rw [Nat.div_lt_iff_lt_mul (Nat.two_pow_pos _), ← Nat.pow_add,
        show 63 - k + (k + 1) = 64 by omega]
      exact n.isLt
    omega
  obtain ⟨htop, hmoved⟩ := moved_quotient (c := s.carry.toNat) hk hquotient hq
  have hbit : (s.q.high >>> 31).toNat = n.toNat / 2 ^ k % 2 := by rw [toNat_topBit, htop]
  let r := (UDwords.mk ((s.r.high <<< 1) ||| (s.r.low >>> 31))
    ((s.r.low <<< 1) ||| (s.q.high >>> 31))).all
  have hr : r.toNat = 2 * s.r.all.toNat + n.toNat / 2 ^ k % 2 := by
    have hword := toNat_moved s.r (s.q.high >>> 31) (by omega)
    rw [hbit, Nat.mod_eq_of_lt (by omega)] at hword
    exact hword.trans (by omega)
  have hmask : (d - r - 1).sshiftRight 63 = mask 64 (d.toNat ≤ r.toNat) := by
    apply mask_eq
    · intro hle
      have := r.isLt
      omega
    · intro hlt
      by_cases hsmall : d.toNat < 2 ^ 63
      · omega
      · obtain ⟨hlast, hlarge⟩ := hcompare.resolve_left hsmall
        -- the quotient is still zero, so that `r` takes in the last bit of all of `n`
        obtain rfl : k = 0 := by omega
        have hzero : (2 * quotient + s.carry.toNat) * d.toNat = 0 := by
          rcases Nat.eq_zero_or_pos (2 * quotient + s.carry.toNat) with hnone | hsome
          · rw [hnone, Nat.zero_mul]
          · have := Nat.le_mul_of_pos_left d.toNat hsome
            omega
        rw [Nat.pow_zero, Nat.div_one] at hnext hr
        omega
  obtain ⟨hrNext, hcarryNext⟩ := divisionRound_r (s := s) rfl hmask
  have hstep := hdivided.next rfl
  rw [← hr] at hstep
  refine ⟨?_, 2 * quotient + s.carry.toNat, ?_, ?_⟩
  · rw [hcarryNext]
    split <;> omega
  · exact (toNat_moved s.q s.carry hcarry).trans hmoved
  · rw [hrNext, hcarryNext]
    by_cases hle : d.toNat ≤ r.toNat
    · rw [if_pos hle, if_pos hle] at hstep ⊢
      exact hstep
    · rw [if_neg hle, if_neg hle] at hstep ⊢
      exact hstep

theorem Dividing.loop (h : Dividing n d k s) (hk : k ≤ 63) (hcompare : Comparable n d k) :
    Dividing n d 0 (divisionLoop d k s) := by
  induction k generalizing s with
  | zero => exact h
  | succ k ih => exact ih (h.round (by omega) hcompare) (by omega) (hcompare.mono (by omega))

/-- With no round to go, the last carry completes the quotient. -/
theorem Dividing.result (h : Dividing n d 0 s) :
    s.q.all <<< 1 ||| s.carry.setWidth 64 = n / d ∧ s.r.all = n % d := by
  have hcarry := h.carry
  obtain ⟨quotient, hq, hdivided⟩ := h.quotient
  obtain ⟨hdiv, hmod⟩ := hdivided.result
  have hle := Nat.div_le_self n.toNat d.toNat
  have hn := n.isLt
  have hwide : (s.carry.setWidth 64).toNat = s.carry.toNat := by
    rw [BitVec.toNat_setWidth]
    omega
  constructor
  · apply BitVec.eq_of_toNat_eq
    rw [toNat_shiftLeft_or _ _ (by omega), hwide, hq, BitVec.toNat_udiv, ← hdiv]
    omega
  · apply BitVec.eq_of_toNat_eq
    rw [BitVec.toNat_umod, ← hmod]

/-! ## Before the loop -/

/-- The first values of `sr`, `q` and `r`, as the comments of the source have them. -/
structure Ready (n d : BitVec 64) (sr : BitVec 32) (q r : UDwords) : Prop where
  bound : sr.toNat ≤ 63
  q : q.all = n <<< (64 - sr.toNat)
  r : r.all = n >>> sr.toNat
  remainder : n.toNat / 2 ^ sr.toNat < d.toNat
  comparable : Comparable n d sr.toNat

theorem Ready.dividing {sr : BitVec 32} {q r : UDwords} (h : Ready n d sr q r) :
    Dividing n d sr.toNat ⟨q, r, 0⟩ := by
  have hbound := h.bound
  have hq : q.all.toNat = n.toNat % 2 ^ sr.toNat * 2 ^ (64 - sr.toNat) := by
    rw [h.q, BitVec.toNat_shiftLeft, Nat.shiftLeft_eq,
      show (2 : Nat) ^ 64 = 2 ^ sr.toNat * 2 ^ (64 - sr.toNat) by
        rw [← Nat.pow_add]
        congr 1
        omega,
      Nat.mul_mod_mul_right]
  have hr : r.all.toNat = n.toNat / 2 ^ sr.toNat := by
    rw [h.r, BitVec.toNat_ushiftRight, Nat.shiftRight_eq_div_pow]
  refine ⟨Nat.zero_le 1, 0, hq, ?_⟩
  show Divided n.toNat d.toNat sr.toNat 0 r.all.toNat
  rw [hr]
  exact Divided.start h.remainder

/-- What the code before the loop comes to: the result, or a loop that gives it. -/
inductive Begun (n d : BitVec 64) (rem : Bool) : Start → Prop
  | done : Begun n d rem (.done (n / d) (if rem then some (n % d) else none))
  | rounds {sr : BitVec 32} {q r : UDwords} (h : Ready n d sr q r) :
      Begun n d rem (.rounds sr q r)

theorem ready_short (n : UDwords) (sr : BitVec 32) (hpos : 1 ≤ sr.toNat) (hlt : sr.toNat < 32)
    (hremainder : n.all.toNat / 2 ^ sr.toNat < d.toNat) (hcompare : Comparable n.all d sr.toNat) :
    ∃ qHigh rHigh left right, shl n.low (32 - sr) = some qHigh ∧ shr n.high sr = some rHigh ∧
      shl n.high (32 - sr) = some left ∧ shr n.low sr = some right ∧
      Ready n.all d sr ⟨qHigh, 0⟩ ⟨rHigh, left ||| right⟩ := by
  have hback : (32 - sr).toNat = 32 - sr.toNat := by
    rw [BitVec.toNat_sub_of_le (by rw [BitVec.le_def]; exact Nat.le_of_lt hlt)]
    rfl
  refine ⟨n.low <<< (32 - sr.toNat), n.high >>> sr.toNat, n.high <<< (32 - sr.toNat),
    n.low >>> sr.toNat, ?_, ?_, ?_, ?_, ?_⟩
  · rw [shl, if_pos (by omega), hback]
  · rw [shr, if_pos hlt]
  · rw [shl, if_pos (by omega), hback]
  · rw [shr, if_pos hlt]
  · refine ⟨by omega, ?_, ?_, hremainder, hcompare⟩
    · have hq := append_shiftLeft_of_ge n.high n.low (show 32 ≤ 64 - sr.toNat by omega)
      rw [show 64 - sr.toNat - 32 = 32 - sr.toNat by omega] at hq
      exact hq
    · exact append_ushiftRight_of_le n.high n.low (Nat.le_of_lt hlt)

theorem ready_word (n : UDwords) {sr : BitVec 32} (hsr : sr.toNat = 32)
    (hremainder : n.all.toNat / 2 ^ sr.toNat < d.toNat) (hcompare : Comparable n.all d sr.toNat) :
    Ready n.all d sr ⟨n.low, 0⟩ ⟨0, n.high⟩ := by
  refine ⟨by omega, ?_, ?_, hremainder, hcompare⟩
  · have hq := append_shiftLeft_of_ge n.high n.low (show 32 ≤ 32 by decide)
    rw [Nat.sub_self, BitVec.shiftLeft_zero] at hq
    rw [hsr]
    exact hq
  · have hr := append_ushiftRight_of_ge n.high n.low (show 32 ≤ 32 by decide)
    rw [Nat.sub_self, BitVec.ushiftRight_zero] at hr
    rw [hsr]
    exact hr

theorem ready_long (n : UDwords) (sr : BitVec 32) (hgt : 32 < sr.toNat) (hbound : sr.toNat ≤ 63)
    (hremainder : n.all.toNat / 2 ^ sr.toNat < d.toNat) (hcompare : Comparable n.all d sr.toNat) :
    ∃ qLow left right rLow, shl n.low (64 - sr) = some qLow ∧ shl n.high (64 - sr) = some left ∧
      shr n.low (sr - 32) = some right ∧ shr n.high (sr - 32) = some rLow ∧
      Ready n.all d sr ⟨left ||| right, qLow⟩ ⟨0, rLow⟩ := by
  have hback : (64 - sr).toNat = 64 - sr.toNat := by
    rw [BitVec.toNat_sub_of_le (by rw [BitVec.le_def]; exact Nat.le_succ_of_le hbound)]
    rfl
  have hover : (sr - 32).toNat = sr.toNat - 32 := by
    rw [BitVec.toNat_sub_of_le (by rw [BitVec.le_def]; exact Nat.le_of_lt hgt)]
    rfl
  refine ⟨n.low <<< (64 - sr.toNat), n.high <<< (64 - sr.toNat), n.low >>> (sr.toNat - 32),
    n.high >>> (sr.toNat - 32), ?_, ?_, ?_, ?_, ?_⟩
  · rw [shl, if_pos (by omega), hback]
  · rw [shl, if_pos (by omega), hback]
  · rw [shr, if_pos (by omega), hover]
  · rw [shr, if_pos (by omega), hover]
  · refine ⟨hbound, ?_, ?_, hremainder, hcompare⟩
    · have hq := append_shiftLeft_of_le n.high n.low (show 64 - sr.toNat ≤ 32 by omega)
      rw [show 32 - (64 - sr.toNat) = sr.toNat - 32 by omega] at hq
      exact hq
    · exact append_ushiftRight_of_ge n.high n.low (Nat.le_of_lt hgt)

/-! ## How far the numbers are shifted -/

theorem builtinClz_eq {x : BitVec 32} (hx : x ≠ 0) : builtinClz x = some x.clz := if_neg hx

theorem builtinCtz_eq {x : BitVec 32} (hx : x ≠ 0) : builtinCtz x = some x.ctz := if_neg hx

theorem clz_bounds {x : BitVec 32} (hx : x ≠ 0) :
    x.clz.toNat ≤ 31 ∧ 2 ^ (31 - x.clz.toNat) ≤ x.toNat ∧ x.toNat < 2 ^ (32 - x.clz.toNat) := by
  have hlower := BitVec.two_pow_sub_clz_le_toNat_of_ne_zero (by decide) hx
  have hupper := BitVec.toNat_lt_two_pow_sub_clz (x := x)
  have hlt := BitVec.clz_lt_iff_ne_zero.2 hx
  refine ⟨?_, hlower, hupper⟩
  exact Nat.le_of_lt_succ hlt

/-- The zeros above the leading one of a double word whose upper half is not zero. -/
theorem UDwords.clz_bounds {x : UDwords} (hx : x.high ≠ 0) :
    2 ^ (63 - x.high.clz.toNat) ≤ x.all.toNat ∧ x.all.toNat < 2 ^ (64 - x.high.clz.toNat) := by
  obtain ⟨hle, hlower, hupper⟩ := Klib.clz_bounds hx
  have hlow := x.low.isLt
  rw [UDwords.toNat_all, show 63 - x.high.clz.toNat = 31 - x.high.clz.toNat + 32 by omega,
    show 64 - x.high.clz.toNat = 32 - x.high.clz.toNat + 32 by omega, Nat.pow_add, Nat.pow_add]
  omega

theorem div_two_pow_lt {n d e f sr : Nat} (hn : n < 2 ^ e) (hd : 2 ^ f ≤ d) (he : e ≤ f + sr) :
    n / 2 ^ sr < d := by
  rw [Nat.div_lt_iff_lt_mul (Nat.two_pow_pos sr)]
  calc
    n < 2 ^ e := hn
    _ ≤ 2 ^ (f + sr) := Nat.pow_le_pow_right (by decide) he
    _ = 2 ^ f * 2 ^ sr := Nat.pow_add 2 f sr
    _ ≤ d * 2 ^ sr := Nat.mul_le_mul_right _ hd

/-- What the test for a power of two finds. -/
theorem power_of_two {x : BitVec 32} (hx : x ≠ 0) (htest : x &&& (x - 1) = 0) :
    x.toNat = 2 ^ x.ctz.toNat ∧ x.ctz.toNat < 32 ∧
      ∀ y : BitVec 32, (y &&& (x - 1)).toNat = y.toNat % 2 ^ x.ctz.toNat := by
  have hpos : x.toNat ≠ 0 := fun hzero => hx (BitVec.eq_of_toNat_eq hzero)
  have hpred : (x - 1).toNat = x.toNat - 1 :=
    BitVec.toNat_sub_of_le (by rw [BitVec.le_def]; exact Nat.pos_of_ne_zero hpos)
  have hand : x.toNat &&& (x.toNat - 1) = 0 := by
    rw [← hpred, ← BitVec.toNat_and, htest]
    rfl
  obtain ⟨e, he⟩ := (Nat.and_sub_one_eq_zero_iff_isPowerOfTwo hpos).1 hand
  have hctz : x.ctz.toNat = e := by
    apply ctz_toNat
    · rw [he, Nat.mod_self]
    · rw [he, Nat.testBit_two_pow_self]
  have hlt : e < 32 := by
    have hx32 := x.isLt
    rw [he] at hx32
    exact (Nat.pow_lt_pow_iff_right (by decide)).1 hx32
  refine ⟨by rw [hctz, he], by omega, ?_⟩
  intro y
  rw [BitVec.toNat_and, hpred, he, hctz, Nat.and_two_pow_sub_one_eq_mod]

/-- Of the words with a single bit below them, one is a power of two. -/
theorem clz_le_of_not_power {x : BitVec 32} (hx : x ≠ 0) (htest : x &&& (x - 1) ≠ 0) :
    x.clz.toNat ≤ 30 := by
  obtain ⟨hle, hlower, hupper⟩ := clz_bounds hx
  by_contra hgt
  rw [show x.clz.toNat = 31 by omega] at hlower hupper
  have hone : x = 1 := BitVec.eq_of_toNat_eq (show x.toNat = 1 by omega)
  rw [hone] at htest
  exact htest (by decide)

theorem store_some (value : BitVec 64) :
    store rem (some value) = some (if rem then some value else none) := by
  cases rem <;> rfl

theorem Begun.of_toNat {quotient value : BitVec 64} (hq : quotient.toNat = n.toNat / d.toNat)
    (hr : value.toNat = n.toNat % d.toNat) :
    Begun n d rem (.done quotient (if rem then some value else none)) := by
  have hquotient : quotient = n / d := BitVec.eq_of_toNat_eq (by rw [hq, BitVec.toNat_udiv])
  have hvalue : value = n % d := BitVec.eq_of_toNat_eq (by rw [hr, BitVec.toNat_umod])
  rw [hquotient, hvalue]
  exact Begun.done

theorem Begun.of_lt (h : n.toNat < d.toNat) :
    Begun n d rem (.done 0 (if rem then some n else none)) :=
  Begun.of_toNat (Nat.div_eq_of_lt h).symm (Nat.mod_eq_of_lt h).symm

section

variable {n d : UDwords}

theorem toNat_all_of_low {x : UDwords} (hx : x.low = 0) : x.all.toNat = x.high.toNat * 2 ^ 32 := by
  rw [UDwords.toNat_all, hx]
  exact Nat.add_zero _

theorem toNat_wide (x : BitVec 32) : (x.setWidth 64).toNat = x.toNat := by
  rw [BitVec.toNat_setWidth]
  omega

/-- The shift of a division of double words, where both upper halves count. -/
structure Shifted (n d : UDwords) (sr : BitVec 32) : Prop where
  nonneg : n.high.clz.toNat ≤ d.high.clz.toNat
  value : sr.toNat = d.high.clz.toNat - n.high.clz.toNat

theorem Shifted.remainder {sr : BitVec 32} (h : Shifted n d sr) (hn : n.high ≠ 0) (hd : d.high ≠ 0) :
    n.all.toNat / 2 ^ (sr.toNat + 1) < d.all.toNat := by
  have hvalue := h.value
  have hnonneg := h.nonneg
  have hdle := (clz_bounds hd).1
  exact div_two_pow_lt (UDwords.clz_bounds hn).2 (UDwords.clz_bounds hd).1 (by omega)

theorem Shifted.comparable {sr : BitVec 32} (h : Shifted n d sr) (hn : n.high ≠ 0)
    (hd : d.high ≠ 0) : Comparable n.all d.all (sr.toNat + 1) := by
  have hvalue := h.value
  have hnonneg := h.nonneg
  have hupper := (UDwords.clz_bounds hd).2
  have hlower := (UDwords.clz_bounds hn).1
  by_cases hlead : d.high.clz.toNat = 0
  · have hnlead : n.high.clz.toNat = 0 := by omega
    rw [hnlead] at hlower
    exact Or.inr ⟨by omega, hlower⟩
  · exact Or.inl (Nat.lt_of_lt_of_le hupper (Nat.pow_le_pow_right (by decide) (by omega)))

/-- The difference of the leading zeros is the shift, or wraps if the dividend has more. -/
theorem shift_cases (hn : n.high ≠ 0) (hd : d.high ≠ 0) :
    Shifted n d (d.high.clz - n.high.clz) ∧ (d.high.clz - n.high.clz).toNat ≤ 31 ∨
      n.all.toNat < d.all.toNat ∧ 31 < (d.high.clz - n.high.clz).toNat := by
  have hnle := (clz_bounds hn).1
  have hdle := (clz_bounds hd).1
  by_cases hle : n.high.clz.toNat ≤ d.high.clz.toNat
  · have hvalue : (d.high.clz - n.high.clz).toNat = d.high.clz.toNat - n.high.clz.toNat :=
      BitVec.toNat_sub_of_le hle
    exact Or.inl ⟨⟨hle, hvalue⟩, by omega⟩
  · have hless : n.all.toNat < d.all.toNat := by
      calc
        n.all.toNat < 2 ^ (64 - n.high.clz.toNat) := (UDwords.clz_bounds hn).2
        _ ≤ 2 ^ (63 - d.high.clz.toNat) := Nat.pow_le_pow_right (by decide) (by omega)
        _ ≤ d.all.toNat := (UDwords.clz_bounds hd).1
    have hwraps : 31 < (d.high.clz - n.high.clz).toNat := by
      rw [BitVec.toNat_sub]
      omega
    exact Or.inr ⟨hless, hwraps⟩

theorem toNat_incr {sr : BitVec 32} (h : sr.toNat ≤ 31) : (sr + 1).toNat = sr.toNat + 1 := by
  have hone : (1 : BitVec 32).toNat = 1 := rfl
  rw [BitVec.toNat_add, hone]
  omega

theorem startLowZero_begun (hn : n.high ≠ 0) (hlow : d.low = 0) (hhigh : d.high ≠ 0) :
    ∃ st, startLowZero n d rem = some st ∧ Begun n.all d.all rem st := by
  have hd := toNat_all_of_low hlow
  have hblocks := div_mod_blocks (h := n.high.toNat) (k := d.high.toNat) n.low.isLt
  rw [← n.toNat_all, ← hd] at hblocks
  rw [startLowZero, if_neg hhigh]
  by_cases hnLow : n.low = 0
  · rw [if_pos hnLow, modWord, if_neg hhigh, divWord, if_neg hhigh, Option.map_some, store_some]
    refine ⟨_, rfl, Begun.of_toNat ?_ ?_⟩
    · rw [toNat_wide, BitVec.toNat_udiv, hblocks.1]
    · rw [toNat_all_of_low rfl, BitVec.toNat_umod, hblocks.2, hnLow]
      exact (Nat.add_zero _).symm
  rw [if_neg hnLow]
  by_cases htest : d.high &&& (d.high - 1) = 0
  · obtain ⟨hpow, hctz, hand⟩ := power_of_two hhigh htest
    rw [if_pos htest]
    simp only [store_some, builtinCtz_eq hhigh, Option.bind_eq_bind, Option.bind_some, shr,
      if_pos hctz]
    refine ⟨_, rfl, Begun.of_toNat ?_ ?_⟩
    · rw [toNat_wide, BitVec.toNat_ushiftRight, Nat.shiftRight_eq_div_pow, ← hpow, hblocks.1]
    · rw [UDwords.toNat_all, hand, ← hpow, hblocks.2]
  rw [if_neg htest]
  simp only [builtinClz_eq hhigh, builtinClz_eq hn, Option.bind_eq_bind, Option.bind_some]
  rcases shift_cases hn hhigh with ⟨hshift, hle⟩ | ⟨hless, hwraps⟩
  · have hvalue := hshift.value
    have hlead := clz_le_of_not_power hhigh htest
    have hfits : ¬d.high.clz - n.high.clz > 30 := by
      rw [gt_iff_lt, BitVec.lt_def, Nat.not_lt]
      exact Nat.le_trans (Nat.le_of_eq hvalue) (Nat.le_trans (Nat.sub_le _ _) hlead)
    have hincr := toNat_incr hle
    obtain ⟨qHigh, rHigh, left, right, hq, hr, hleft, hright, hready⟩ :=
      ready_short n (d.high.clz - n.high.clz + 1) (by omega) (by omega)
        (by rw [hincr]; exact hshift.remainder hn hhigh)
        (by rw [hincr]; exact hshift.comparable hn hhigh)
    rw [if_neg hfits]
    simp only [hq, hr, hleft, hright, Option.bind_some]
    exact ⟨_, rfl, Begun.rounds hready⟩
  · have htoo : d.high.clz - n.high.clz > 30 := by
      rw [gt_iff_lt, BitVec.lt_def]
      exact Nat.lt_of_succ_lt hwraps
    rw [if_pos htoo, store_some]
    exact ⟨_, rfl, Begun.of_lt hless⟩

theorem startFull_begun (hn : n.high ≠ 0) (hhigh : d.high ≠ 0) :
    ∃ st, startFull n d rem = some st ∧ Begun n.all d.all rem st := by
  rw [startFull]
  simp only [builtinClz_eq hhigh, builtinClz_eq hn, Option.bind_eq_bind, Option.bind_some]
  rcases shift_cases hn hhigh with ⟨hshift, hle⟩ | ⟨hless, hwraps⟩
  · have hfits : ¬d.high.clz - n.high.clz > 31 := by
      rw [gt_iff_lt, BitVec.lt_def, Nat.not_lt]
      exact hle
    have hincr := toNat_incr hle
    have hremainder := hshift.remainder hn hhigh
    have hcompare := hshift.comparable hn hhigh
    rw [← hincr] at hremainder hcompare
    rw [if_neg hfits]
    by_cases hword : d.high.clz - n.high.clz + 1 = 32
    · rw [if_pos hword]
      refine ⟨_, rfl, Begun.rounds (ready_word n ?_ hremainder hcompare)⟩
      rw [hword]
      rfl
    · have hne : (d.high.clz - n.high.clz + 1).toNat ≠ 32 :=
        fun heq => hword (BitVec.eq_of_toNat_eq heq)
      obtain ⟨qHigh, rHigh, left, right, hq, hr, hleft, hright, hready⟩ :=
        ready_short n _ (by omega) (by omega) hremainder hcompare
      rw [if_neg hword]
      simp only [hq, hr, hleft, hright, Option.bind_some]
      exact ⟨_, rfl, Begun.rounds hready⟩
  · have htoo : d.high.clz - n.high.clz > 31 := by
      rw [gt_iff_lt, BitVec.lt_def]
      exact hwraps
    rw [if_pos htoo, store_some]
    exact ⟨_, rfl, Begun.of_lt hless⟩

theorem toNat_low (x : UDwords) : x.low.toNat = x.all.toNat % 2 ^ 32 := by
  have := x.toNat_all
  omega

theorem startHighZero_power (hlow : d.low ≠ 0) (hd : d.all.toNat = d.low.toNat)
    (htest : d.low &&& (d.low - 1) = 0) :
    ∃ st, startHighZero n d rem = some st ∧ Begun n.all d.all rem st := by
  obtain ⟨hpow, hctz, hand⟩ := power_of_two hlow htest
  have hmod : ((n.low &&& (d.low - 1)).setWidth 64).toNat = n.all.toNat % d.all.toNat := by
    rw [toNat_wide, hand, toNat_low, Nat.mod_mod_of_dvd _ (Nat.pow_dvd_pow 2 (Nat.le_of_lt hctz)),
      hd, hpow]
  rw [startHighZero, if_pos htest, store_some]
  by_cases hone : d.low = 1
  · simp only [if_pos hone, Option.bind_eq_bind, Option.bind_some]
    refine ⟨_, rfl, Begun.of_toNat ?_ hmod⟩
    rw [hd, hone]
    exact (Nat.div_one _).symm
  · have hpos : 1 ≤ d.low.ctz.toNat := by
      by_contra hzero
      rw [show d.low.ctz.toNat = 0 by omega] at hpow
      exact hone (BitVec.eq_of_toNat_eq hpow)
    have hback : (32 - d.low.ctz).toNat = 32 - d.low.ctz.toNat := by
      rw [BitVec.toNat_sub_of_le (by rw [BitVec.le_def]; exact Nat.le_of_lt hctz)]
      rfl
    simp only [if_neg hone, builtinCtz_eq hlow, Option.bind_eq_bind, Option.bind_some, shr, shl,
      if_pos hctz, if_pos (show (32 - d.low.ctz).toNat < 32 by omega)]
    refine ⟨_, rfl, Begun.of_toNat ?_ hmod⟩
    have hshift := append_ushiftRight_of_le n.high n.low (Nat.le_of_lt hctz)
    rw [← hback] at hshift
    calc
      _ = (n.all >>> d.low.ctz.toNat).toNat := congrArg BitVec.toNat hshift
      _ = n.all.toNat / d.all.toNat := by
        rw [BitVec.toNat_ushiftRight, Nat.shiftRight_eq_div_pow, ← hpow, hd]

theorem startHighZero_begun (hn : n.high ≠ 0) (hlow : d.low ≠ 0) (hhigh : d.high = 0) :
    ∃ st, startHighZero n d rem = some st ∧ Begun n.all d.all rem st := by
  have hd : d.all.toNat = d.low.toNat := by
    rw [UDwords.toNat_all, hhigh]
    exact Nat.zero_add _
  by_cases htest : d.low &&& (d.low - 1) = 0
  · exact startHighZero_power hlow hd htest
  obtain ⟨hdle, hdlower, hdupper⟩ := clz_bounds hlow
  have hlead := clz_le_of_not_power hlow htest
  have hnle := (clz_bounds hn).1
  have hsum : (1 + 32 + d.low.clz).toNat = 33 + d.low.clz.toNat := by
    have hconst : (1 + 32 : BitVec 32).toNat = 33 := rfl
    rw [BitVec.toNat_add, hconst]
    omega
  have hsr : (1 + 32 + d.low.clz - n.high.clz).toNat =
      33 + d.low.clz.toNat - n.high.clz.toNat := by
    rw [BitVec.toNat_sub_of_le (by rw [BitVec.le_def, hsum]; omega), hsum]
  have hremainder : n.all.toNat / 2 ^ (1 + 32 + d.low.clz - n.high.clz).toNat < d.all.toNat := by
    rw [hd]
    exact div_two_pow_lt (UDwords.clz_bounds hn).2 hdlower (by omega)
  have hcompare : Comparable n.all d.all (1 + 32 + d.low.clz - n.high.clz).toNat := by
    have := d.low.isLt
    exact Or.inl (by omega)
  rw [startHighZero, if_neg htest]
  simp only [builtinClz_eq hlow, builtinClz_eq hn, Option.bind_eq_bind, Option.bind_some]
  generalize 1 + 32 + d.low.clz - n.high.clz = sr at hsr hremainder hcompare ⊢
  by_cases hword : sr = 32
  · rw [if_pos hword]
    refine ⟨_, rfl, Begun.rounds (ready_word n ?_ hremainder hcompare)⟩
    rw [hword]
    rfl
  have hne : sr.toNat ≠ 32 := fun heq => hword (BitVec.eq_of_toNat_eq heq)
  rw [if_neg hword]
  by_cases hshort : sr < 32
  · have hlt : sr.toNat < 32 := hshort
    obtain ⟨qHigh, rHigh, left, right, hq, hr, hleft, hright, hready⟩ :=
      ready_short n sr (by omega) hlt hremainder hcompare
    rw [if_pos hshort]
    simp only [hq, hr, hleft, hright, Option.bind_some]
    exact ⟨_, rfl, Begun.rounds hready⟩
  · have hge : ¬sr.toNat < 32 := hshort
    obtain ⟨qLow, left, right, rLow, hq, hleft, hright, hr, hready⟩ :=
      ready_long n sr (by omega) (by omega) hremainder hcompare
    rw [if_neg hshort]
    simp only [hq, hr, hleft, hright, Option.bind_some]
    exact ⟨_, rfl, Begun.rounds hready⟩

theorem start_begun (hd : d.all ≠ 0) :
    ∃ st, start n d rem = some st ∧ Begun n.all d.all rem st := by
  rw [start]
  by_cases hn : n.high = 0
  · have hnAll : n.all.toNat = n.low.toNat := by
      rw [UDwords.toNat_all, hn]
      exact Nat.zero_add _
    rw [if_pos hn]
    by_cases hhigh : d.high = 0
    · have hdAll : d.all.toNat = d.low.toNat := by
        rw [UDwords.toNat_all, hhigh]
        exact Nat.zero_add _
      have hlow : d.low ≠ 0 := by
        intro hzero
        rw [hzero] at hdAll
        exact hd (BitVec.eq_of_toNat_eq hdAll)
      rw [if_pos hhigh, modWord, if_neg hlow, divWord, if_neg hlow, Option.map_some, store_some]
      refine ⟨_, rfl, Begun.of_toNat ?_ ?_⟩
      · rw [toNat_wide, BitVec.toNat_udiv, hnAll, hdAll]
      · rw [toNat_wide, BitVec.toNat_umod, hnAll, hdAll]
    · have hpos : d.high.toNat ≠ 0 := fun hzero => hhigh (BitVec.eq_of_toNat_eq hzero)
      have hdAll := d.toNat_all
      have hlt := n.low.isLt
      have hless : n.all.toNat < d.all.toNat := by omega
      have hvalue : n.low.setWidth 64 = n.all := BitVec.eq_of_toNat_eq (by rw [toNat_wide, hnAll])
      rw [if_neg hhigh, store_some, hvalue]
      exact ⟨_, rfl, Begun.of_lt hless⟩
  rw [if_neg hn]
  by_cases hlow : d.low = 0
  · have hhigh : d.high ≠ 0 := by
      intro hzero
      have hdAll := toNat_all_of_low hlow
      rw [hzero] at hdAll
      exact hd (BitVec.eq_of_toNat_eq hdAll)
    rw [if_pos hlow]
    exact startLowZero_begun hn hlow hhigh
  rw [if_neg hlow]
  by_cases hhigh : d.high = 0
  · rw [if_pos hhigh]
    exact startHighZero_begun hn hlow hhigh
  · rw [if_neg hhigh]
    exact startFull_begun hn hhigh

/-- A division by zero is one by the lower half, which is zero. -/
theorem start_zero (hhigh : d.high = 0) (hlow : d.low = 0) : start n d rem = none := by
  by_cases hn : n.high = 0 <;>
    cases rem <;> simp [start, startLowZero, store, modWord, divWord, hn, hhigh, hlow]

end

/-! ## Unsigned division -/

theorem udivmoddi4_zero (a : BitVec 64) : udivmoddi4 a 0 rem = none := by
  rw [udivmoddi4, start_zero (by decide) (by decide)]
  rfl

theorem udivmoddi4_eq {a b : BitVec 64} (hb : b ≠ 0) :
    udivmoddi4 a b rem = some (a / b, if rem then some (a % b) else none) := by
  have hbegin : ∃ st, start (udwords a) (udwords b) rem = some st ∧
      Begun (udwords a).all (udwords b).all rem st := by
    apply start_begun
    rw [udwords_all]
    exact hb
  obtain ⟨st, hst, hbegun⟩ := hbegin
  rw [udwords_all, udwords_all] at hbegun
  rw [udivmoddi4, hst]
  cases hbegun with
  | done => rfl
  | rounds hready =>
      obtain ⟨hquotient, hremainder⟩ :=
        (hready.dividing.loop hready.bound hready.comparable).result
      simp only [Option.bind_eq_bind, Option.bind_some, hquotient, hremainder, store_some]
      rfl

/-- For every dividend and divisor, a divisor of zero apart, the routines give the quotient
and the remainder, and no shift on the way is by a word or more. -/
theorem unsigned_division (a b : BitVec 64) (rem : Bool) :
    udivmoddi4 a b rem =
        (if b = 0 then none else some (a / b, if rem then some (a % b) else none)) ∧
      udivdi3 a b = (if b = 0 then none else some (a / b)) ∧
      umoddi3 a b = if b = 0 then none else some (a % b) := by
  by_cases hb : b = 0
  · rw [udivdi3, umoddi3, hb, udivmoddi4_zero, udivmoddi4_zero, udivmoddi4_zero, if_pos rfl,
      if_pos rfl, if_pos rfl]
    exact ⟨rfl, rfl, rfl⟩
  · rw [udivdi3, umoddi3, udivmoddi4_eq hb, udivmoddi4_eq hb, udivmoddi4_eq hb, if_neg hb,
      if_neg hb, if_neg hb]
    exact ⟨rfl, rfl, rfl⟩

end OSLabs.Klib
