import OSLabs.Klib.Int64
import OSLabs.Lib.Zeros

/-! # klib: counting zeros

The branch-free searches shift by less than a word and count the zeros of every word, all
of them if the word is zero.
-/

namespace OSLabs.Klib

open OSLabs.Lib

variable {a x r mask : BitVec 32} {k s : Nat}

/-! ## One step of the searches -/

theorem shr_eq {n : BitVec 32} (hn : n.toNat < 32) : shr x n = some (x >>> n.toNat) := if_pos hn

theorem toNat_flag (p : Prop) [Decidable p] (hs : s < 5) :
    (ofProp p <<< s).toNat = if p then 2 ^ s else 0 := by
  have hpow : 2 ^ s < 2 ^ 32 := Nat.pow_lt_pow_right (by decide) (by omega)
  by_cases hp : p
  · rw [ofProp, if_pos hp, if_pos hp, BitVec.toNat_shiftLeft, Nat.shiftLeft_eq]
    exact (congrArg (· % 2 ^ 32) (Nat.one_mul _)).trans (Nat.mod_eq_of_lt hpow)
  · rw [ofProp, if_neg hp, if_neg hp]
    simp

theorem upper_eq_zero_iff (hmask : mask.toNat = (2 ^ k - 1) <<< k) (hx : x.toNat < 2 ^ (k + k)) :
    x &&& mask = 0 ↔ x.toNat < 2 ^ k := by
  have hdiv : x.toNat / 2 ^ k < 2 ^ k := by
    rw [Nat.div_lt_iff_lt_mul (Nat.two_pow_pos k), ← Nat.pow_add]
    exact hx
  have hand : (x &&& mask).toNat = x.toNat / 2 ^ k * 2 ^ k := by
    rw [BitVec.toNat_and, hmask, and_fieldMask, Nat.shiftRight_eq_div_pow, Nat.mod_eq_of_lt hdiv,
      Nat.shiftLeft_eq]
  have hpow := Nat.two_pow_pos k
  constructor
  · intro hzero
    rw [hzero] at hand
    have hquot : x.toNat / 2 ^ k = 0 := by
      rcases Nat.mul_eq_zero.1 hand.symm with h | h
      · exact h
      · omega
    exact Nat.lt_of_div_eq_zero hpow hquot
  · intro hlow
    apply BitVec.eq_of_toNat_eq
    rw [hand, Nat.div_eq_of_lt hlow]
    simp

theorem lower_eq_zero_iff (hmask : mask.toNat = 2 ^ k - 1) :
    x &&& mask = 0 ↔ x.toNat % 2 ^ k = 0 := by
  rw [← BitVec.toNat_inj, BitVec.toNat_and, hmask, Nat.and_two_pow_sub_one_eq_mod]
  rfl

/-- What is in `x` and `r` during `clzsi2 a`, with `k` bits left. -/
abbrev LeadingIn (a : BitVec 32) (k : Nat) (r x : BitVec 32) : Prop :=
  Leading a.toNat 32 k r.toNat x.toNat

theorem LeadingIn.step (h : LeadingIn a (k + k) r x) (bits mask : BitVec 32) (hk : k = 2 ^ s)
    (hs : s < 5) (hbits : bits.toNat = k) (hmask : mask.toNat = (2 ^ k - 1) <<< k) :
    ∃ y, shr x (bits - ofProp (x &&& mask = 0) <<< s) = some y ∧
      LeadingIn a k (r + ofProp (x &&& mask = 0) <<< s) y := by
  have hk16 : k ≤ 2 ^ 4 := by
    rw [hk]
    exact Nat.pow_le_pow_right (by decide) (by omega)
  have hr : r.toNat ≤ 32 := by
    have hsize := h.size
    have hbound := Nat.size_le.2 h.bound
    omega
  have htest := upper_eq_zero_iff hmask h.bound
  have hflag : (ofProp (x &&& mask = 0) <<< s).toNat = if x.toNat < 2 ^ k then k else 0 := by
    rw [toNat_flag _ hs, ← hk]
    exact if_congr htest rfl rfl
  have hle : (ofProp (x &&& mask = 0) <<< s).toNat ≤ k := by
    rw [hflag]
    split <;> omega
  have hshift : (bits - ofProp (x &&& mask = 0) <<< s).toNat =
      k - if x.toNat < 2 ^ k then k else 0 := by
    rw [BitVec.toNat_sub_of_le (by rw [BitVec.le_def, hbits]; exact hle), hbits, hflag]
  refine ⟨_, shr_eq (by omega), ?_⟩
  have hsum : (r + ofProp (x &&& mask = 0) <<< s).toNat =
      r.toNat + if x.toNat < 2 ^ k then k else 0 := by
    rw [BitVec.toNat_add, hflag, Nat.mod_eq_of_lt]
    omega
  rw [LeadingIn, hsum, BitVec.toNat_ushiftRight, hshift, Nat.shiftRight_eq_div_pow]
  exact h.half (by omega)

/-- What is in `x` and `r` during `ctzsi2 a`, where `k` bits are to be looked at. -/
abbrev TrailingIn (a : BitVec 32) (k : Nat) (r x : BitVec 32) : Prop :=
  Trailing a.toNat 32 k r.toNat x.toNat

theorem TrailingIn.step (h : TrailingIn a (k + k) r x) (mask : BitVec 32) (hk : k = 2 ^ s)
    (hs : s < 5) (hmask : mask.toNat = 2 ^ k - 1) :
    ∃ y, shr x (ofProp (x &&& mask = 0) <<< s) = some y ∧
      TrailingIn a k (r + ofProp (x &&& mask = 0) <<< s) y := by
  have hk16 : k ≤ 2 ^ 4 := by
    rw [hk]
    exact Nat.pow_le_pow_right (by decide) (by omega)
  have hroom := h.room
  have hflag : (ofProp (x &&& mask = 0) <<< s).toNat = if x.toNat % 2 ^ k = 0 then k else 0 := by
    rw [toNat_flag _ hs, ← hk]
    exact if_congr (lower_eq_zero_iff hmask) rfl rfl
  have hle : (ofProp (x &&& mask = 0) <<< s).toNat ≤ k := by
    rw [hflag]
    split <;> omega
  refine ⟨_, shr_eq (by omega), ?_⟩
  have hsum : (r + ofProp (x &&& mask = 0) <<< s).toNat =
      r.toNat + if x.toNat % 2 ^ k = 0 then k else 0 := by
    rw [BitVec.toNat_add, hflag, Nat.mod_eq_of_lt]
    omega
  rw [TrailingIn, hsum, BitVec.toNat_ushiftRight, hflag, Nat.shiftRight_eq_div_pow]
  exact h.half

/-! ## The counts -/

theorem two_bits (hx : x.toNat < 4) : x = 0 ∨ x = 1 ∨ x = 2 ∨ x = 3 := by
  have hcases : x.toNat = 0 ∨ x.toNat = 1 ∨ x.toNat = 2 ∨ x.toNat = 3 := by omega
  simpa [← BitVec.toNat_inj] using hcases

/-- The last two bits are counted without a branch. -/
theorem LeadingIn.result (h : LeadingIn a 2 r x) :
    r + ((2 - x) &&& -ofProp (x &&& 2 = 0)) = a.clz := by
  have hlast : ((2 - x) &&& -ofProp (x &&& 2 = 0)).toNat = (x.setWidth 2).clz.toNat := by
    rcases two_bits h.bound with rfl | rfl | rfl | rfl <;> decide
  have hx : (x.setWidth 2).toNat = x.toNat := by
    rw [BitVec.toNat_setWidth]
    exact Nat.mod_eq_of_lt h.bound
  have hclz : a.clz.toNat = r.toNat + (x.setWidth 2).clz.toNat := by
    apply Leading.clz _ (by decide)
    rw [hx]
    exact h
  apply BitVec.eq_of_toNat_eq
  rw [BitVec.toNat_add, hlast, ← hclz]
  exact Nat.mod_eq_of_lt a.clz.isLt

theorem clzsi2_eq (a : BitVec 32) : clzsi2 a = some a.clz := by
  have h0 : LeadingIn a 32 0#32 a := Leading.start a.isLt
  obtain ⟨x1, hx1, h1⟩ := h0.step 16 0xFFFF0000 (show 16 = 2 ^ 4 by rfl) (by decide) rfl rfl
  rw [BitVec.zero_add] at h1
  obtain ⟨x2, hx2, h2⟩ := h1.step 8 0xFF00 (show 8 = 2 ^ 3 by rfl) (by decide) rfl rfl
  obtain ⟨x3, hx3, h3⟩ := h2.step 4 0xF0 (show 4 = 2 ^ 2 by rfl) (by decide) rfl rfl
  obtain ⟨x4, hx4, h4⟩ := h3.step 2 0xC (show 2 = 2 ^ 1 by rfl) (by decide) rfl rfl
  simp only [clzsi2, hx1, hx2, hx3, hx4, h4.result, Option.bind_eq_bind, Option.bind_some,
    Option.pure_def]

/-- Of the last two bits the lower one decides. -/
theorem TrailingIn.result (h : TrailingIn a 2 r x) :
    r + ((2 - (x &&& 3) >>> 1) &&& -ofProp (x &&& 3 &&& 1 = 0)) = a.ctz := by
  have hmask : (x &&& 3).toNat = x.toNat % 4 := by
    rw [BitVec.toNat_and]
    exact Nat.and_two_pow_sub_one_eq_mod x.toNat 2
  have hlast : ((2 - (x &&& 3) >>> 1) &&& -ofProp (x &&& 3 &&& 1 = 0)).toNat =
      ((x &&& 3).setWidth 2).ctz.toNat := by
    rcases two_bits (show (x &&& 3).toNat < 4 by omega) with hy | hy | hy | hy <;>
      rw [hy] <;> decide
  have hx : ((x &&& 3).setWidth 2).toNat = x.toNat % 2 ^ 2 := by
    rw [BitVec.toNat_setWidth, hmask]
    omega
  apply BitVec.eq_of_toNat_eq
  rw [BitVec.toNat_add, hlast, ← h.ctz hx]
  exact Nat.mod_eq_of_lt a.ctz.isLt

theorem ctzsi2_eq (a : BitVec 32) : ctzsi2 a = some a.ctz := by
  have h0 : TrailingIn a 32 0#32 a := Trailing.start
  obtain ⟨x1, hx1, h1⟩ := h0.step 0x0000FFFF (show 16 = 2 ^ 4 by rfl) (by decide) rfl
  rw [BitVec.zero_add] at h1
  obtain ⟨x2, hx2, h2⟩ := h1.step 0x00FF (show 8 = 2 ^ 3 by rfl) (by decide) rfl
  obtain ⟨x3, hx3, h3⟩ := h2.step 0x0F (show 4 = 2 ^ 2 by rfl) (by decide) rfl
  obtain ⟨x4, hx4, h4⟩ := h3.step 0x3 (show 2 = 2 ^ 1 by rfl) (by decide) rfl
  simp only [ctzsi2, hx1, hx2, hx3, hx4, h4.result, Option.bind_eq_bind, Option.bind_some,
    Option.pure_def]

/-! ## Double words -/

theorem udwords_high (a : BitVec 64) : (udwords a).high.toNat = a.toNat / 2 ^ 32 := by
  rw [udwords, BitVec.extractLsb'_toNat, Nat.shiftRight_eq_div_pow]
  exact Nat.mod_eq_of_lt (by omega)

theorem udwords_low (a : BitVec 64) : (udwords a).low.toNat = a.toNat % 2 ^ 32 := by
  rw [udwords, BitVec.extractLsb'_toNat, Nat.shiftRight_zero]

/-- The mask of a comparison chooses one of two words. -/
theorem choose (p : Prop) [Decidable p] (x y : BitVec 32) :
    (x &&& -ofProp p) ||| (y &&& ~~~(-ofProp p)) = if p then x else y := by
  have hones : -(1 : BitVec 32) = BitVec.allOnes 32 := by decide
  have hzero : -(0 : BitVec 32) = 0#32 := rfl
  by_cases hp : p
  · rw [ofProp, if_pos hp, if_pos hp, hones, BitVec.and_allOnes, BitVec.not_allOnes,
      BitVec.and_zero, BitVec.or_zero]
  · rw [ofProp, if_neg hp, if_neg hp, hzero, BitVec.and_zero, BitVec.not_zero,
      BitVec.and_allOnes, BitVec.zero_or]

theorem toNat_choose_bits (p : Prop) [Decidable p] :
    (-ofProp p &&& 32 : BitVec 32).toNat = if p then 32 else 0 := by
  by_cases hp : p
  · rw [ofProp, if_pos hp, if_pos hp]
    decide
  · rw [ofProp, if_neg hp, if_neg hp]
    decide

theorem high_eq_zero_iff (a : BitVec 64) : (udwords a).high = 0 ↔ a.toNat < 2 ^ 32 := by
  rw [← BitVec.toNat_inj, udwords_high]
  exact Nat.div_eq_zero_iff_lt (by decide)

theorem low_eq_zero_iff (a : BitVec 64) : (udwords a).low = 0 ↔ a.toNat % 2 ^ 32 = 0 := by
  rw [← BitVec.toNat_inj, udwords_low]
  rfl

theorem clzdi2_eq (a : BitVec 64) : clzdi2 a = some (a.clz.setWidth 32) := by
  have hhalf := (Leading.start a.isLt : Leading a.toNat 64 64 0 a.toNat).half (k := 32) (by decide)
  have hy : (if (udwords a).high = 0 then (udwords a).low else (udwords a).high).toNat =
      a.toNat / 2 ^ (32 - if a.toNat < 2 ^ 32 then 32 else 0) := by
    by_cases hlow : a.toNat < 2 ^ 32
    · rw [if_pos ((high_eq_zero_iff a).2 hlow), if_pos hlow, udwords_low, Nat.mod_eq_of_lt hlow]
      simp
    · rw [if_neg (mt (high_eq_zero_iff a).1 hlow), if_neg hlow, udwords_high]
  rw [← hy, Nat.zero_add] at hhalf
  have hclz := hhalf.clz (by decide)
  rw [clzdi2, BitVec.or_comm, choose, clzsi2_eq]
  refine congrArg some (BitVec.eq_of_toNat_eq ?_)
  rw [BitVec.toNat_add, toNat_choose_bits, BitVec.toNat_setWidth, hclz, Nat.add_comm]
  simp only [high_eq_zero_iff]

theorem ctzdi2_eq (a : BitVec 64) : ctzdi2 a = some (a.ctz.setWidth 32) := by
  have hhalf := (Trailing.start : Trailing a.toNat 64 64 0 a.toNat).half (k := 32)
  have hy : (if (udwords a).low = 0 then (udwords a).high else (udwords a).low).toNat =
      a.toNat / 2 ^ (if a.toNat % 2 ^ 32 = 0 then 32 else 0) % 2 ^ 32 := by
    by_cases hlow : a.toNat % 2 ^ 32 = 0
    · rw [if_pos ((low_eq_zero_iff a).2 hlow), if_pos hlow, udwords_high, Nat.mod_eq_of_lt]
      omega
    · rw [if_neg (mt (low_eq_zero_iff a).1 hlow), if_neg hlow, udwords_low, Nat.pow_zero,
        Nat.div_one]
  have hctz := hhalf.ctz hy
  rw [ctzdi2, choose, ctzsi2_eq]
  refine congrArg some (BitVec.eq_of_toNat_eq ?_)
  rw [BitVec.toNat_add, toNat_choose_bits, BitVec.toNat_setWidth, hctz, Nat.zero_add, Nat.add_comm]
  simp only [low_eq_zero_iff]

/-- The searches count the zeros above the leading one of a word or double word, and they
never shift by a word or more. -/
theorem leading_zeros_counted (a : BitVec 32) (b : BitVec 64) :
    clzsi2 a = some a.clz ∧ clzdi2 b = some (b.clz.setWidth 32) :=
  ⟨clzsi2_eq a, clzdi2_eq b⟩

/-- Likewise for the zeros below the trailing one. -/
theorem trailing_zeros_counted (a : BitVec 32) (b : BitVec 64) :
    ctzsi2 a = some a.ctz ∧ ctzdi2 b = some (b.ctz.setWidth 32) :=
  ⟨ctzsi2_eq a, ctzdi2_eq b⟩

end OSLabs.Klib
