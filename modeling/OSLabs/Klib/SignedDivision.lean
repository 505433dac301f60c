import OSLabs.Klib.Division

/-! # klib: signed division

The signed routines divide absolute values and negate without a branch. The least `di_int`
has no absolute value: there they rest on arithmetic that wraps around.
-/

namespace OSLabs.Klib

open OSLabs.Lib

variable {a b x : BitVec 64} {wrap : Bool}

/-! ## Negation without a branch -/

theorem toInt_mask (p : Prop) [Decidable p] : (mask 64 p).toInt = if p then -1 else 0 := by
  by_cases hp : p
  · rw [mask, if_pos hp, if_pos hp]
    decide
  · rw [mask, if_neg hp, if_neg hp]
    decide

theorem toInt_xor_mask (x : BitVec 64) (p : Prop) [Decidable p] :
    (x ^^^ mask 64 p).toInt = if p then -x.toInt - 1 else x.toInt := by
  have hx := x.isLt
  by_cases hp : p
  · rw [mask, if_pos hp, if_pos hp, BitVec.xor_allOnes]
    simp only [BitVec.toInt_eq_toNat_cond, BitVec.toNat_not]
    split <;> split <;> omega
  · rw [mask, if_neg hp, if_neg hp, BitVec.xor_zero]

theorem eq_intMin_iff (x : BitVec 64) : x = BitVec.intMin 64 ↔ x.toInt = -2 ^ 63 :=
  BitVec.toInt_inj.symm

/-- Only the least number cannot be negated. -/
theorem ssub_xor_mask (wrap : Bool) (x : BitVec 64) (p : Prop) [Decidable p] :
    ssub wrap (x ^^^ mask 64 p) (mask 64 p) =
      if wrap = false ∧ p ∧ x = BitVec.intMin 64 then none else some (if p then -x else x) := by
  have hlower := BitVec.le_toInt x
  have hupper := BitVec.toInt_lt (x := x)
  have hoverflow : (x ^^^ mask 64 p).ssubOverflow (mask 64 p) = true ↔
      p ∧ x = BitVec.intMin 64 := by
    rw [BitVec.ssubOverflow, toInt_xor_mask, toInt_mask, eq_intMin_iff, Bool.or_eq_true,
      decide_eq_true_iff, decide_eq_true_iff]
    by_cases hp : p
    · rw [if_pos hp, if_pos hp, and_iff_right hp]
      omega
    · rw [if_neg hp, if_neg hp]
      constructor
      · omega
      · exact fun h => absurd h.1 hp
  rw [ssub, xor_sub_mask]
  cases wrap with
  | true => simp
  | false =>
      by_cases hleast : p ∧ x = BitVec.intMin 64
      · rw [hoverflow.2 hleast]
        exact (if_pos ⟨rfl, hleast⟩).symm
      · rw [Bool.eq_false_iff.2 (mt hoverflow.1 hleast)]
        exact (if_neg (fun h => hleast h.2)).symm

/-- `a = (a ^ s) - s`: the absolute value. -/
theorem ssub_sign (wrap : Bool) (x : BitVec 64) :
    ssub wrap (x ^^^ x.sshiftRight 63) (x.sshiftRight 63) =
      if wrap = false ∧ x = BitVec.intMin 64 then none else some x.abs := by
  have hleast : x.msb = true ∧ x = BitVec.intMin 64 ↔ x = BitVec.intMin 64 := by
    constructor
    · exact fun h => h.2
    · intro h
      rw [h]
      decide
  rw [sshiftRight_sign, ssub_xor_mask]
  exact if_congr (and_congr_right fun _ => hleast) rfl rfl

/-! ## Quotient and remainder -/

/-- Where C leaves signed division undefined, or this code its steps. -/
def Undefined (wrap : Bool) (a b : BitVec 64) : Prop :=
  b = 0 ∨ wrap = false ∧ (a = BitVec.intMin 64 ∨ b = BitVec.intMin 64)

instance (wrap : Bool) (a b : BitVec 64) : Decidable (Undefined wrap a b) :=
  inferInstanceAs (Decidable (_ ∨ _))

theorem abs_ne_zero (hb : b ≠ 0) : b.abs ≠ 0 := by
  intro hzero
  apply hb
  rw [BitVec.abs] at hzero
  split at hzero
  · exact BitVec.neg_eq_zero_iff.1 hzero
  · exact hzero

/-- Both operands have absolute values, and these can be divided, or the division is
undefined. -/
theorem undefined_cases (wrap : Bool) (a b : BitVec 64) (rem : Bool) :
    ¬Undefined wrap a b ∧ ¬(wrap = false ∧ a = BitVec.intMin 64) ∧
        ¬(wrap = false ∧ b = BitVec.intMin 64) ∧
        udivmoddi4 a.abs b.abs rem =
          some (a.abs / b.abs, if rem then some (a.abs % b.abs) else none) ∨
      Undefined wrap a b ∧ (wrap = false ∧ a = BitVec.intMin 64 ∨
        wrap = false ∧ b = BitVec.intMin 64 ∨ udivmoddi4 a.abs b.abs rem = none) := by
  by_cases hb : b = 0
  · have hundefined : Undefined wrap a b := Or.inl hb
    refine Or.inr ⟨hundefined, Or.inr (Or.inr ?_)⟩
    rw [hb]
    exact udivmoddi4_zero a.abs
  by_cases hleast : wrap = false ∧ (a = BitVec.intMin 64 ∨ b = BitVec.intMin 64)
  · have hundefined : Undefined wrap a b := Or.inr hleast
    obtain ⟨hwrap, ha | hmin⟩ := hleast
    · exact Or.inr ⟨hundefined, Or.inl ⟨hwrap, ha⟩⟩
    · exact Or.inr ⟨hundefined, Or.inr (Or.inl ⟨hwrap, hmin⟩)⟩
  · have hdefined : ¬Undefined wrap a b := fun h => h.elim hb hleast
    exact Or.inl ⟨hdefined, fun h => hleast ⟨h.1, Or.inl h.2⟩, fun h => hleast ⟨h.1, Or.inr h.2⟩,
      udivmoddi4_eq (abs_ne_zero hb)⟩

theorem quotient_sign (a b : BitVec 64) :
    ((a.abs / b.abs) ^^^ (a.sshiftRight 63 ^^^ b.sshiftRight 63)) -
      (a.sshiftRight 63 ^^^ b.sshiftRight 63) = a.sdiv b := by
  rw [sshiftRight_sign, sshiftRight_sign, mask_xor, xor_sub_mask, BitVec.sdiv_eq, BitVec.abs,
    BitVec.abs]
  cases a.msb <;> cases b.msb <;> rfl

theorem divdi3_eq (wrap : Bool) (a b : BitVec 64) :
    divdi3 wrap a b = if Undefined wrap a b then none else some (a.sdiv b) := by
  rw [divdi3, ssub_sign, ssub_sign]
  rcases undefined_cases wrap a b false with
    ⟨hdefined, ha, hb, hdivided⟩ | ⟨hundefined, ha | hb | hnone⟩
  · rw [if_neg hdefined, if_neg ha, if_neg hb]
    simp only [Option.bind_eq_bind, Option.bind_some, hdivided, quotient_sign, Option.pure_def]
  · rw [if_pos hundefined, if_pos ha]
    rfl
  · rw [if_pos hundefined, if_pos hb]
    split <;> rfl
  · rw [if_pos hundefined]
    split
    · rfl
    · split
      · rfl
      · simp only [Option.bind_eq_bind, Option.bind_some, hnone, Option.bind_none]

theorem toNat_abs_lt (hmin : b ≠ BitVec.intMin 64) : b.abs.toNat < 2 ^ 63 := by
  have hsign := BitVec.msb_abs (x := b)
  rw [decide_eq_false hmin, Bool.false_and, BitVec.msb_eq_decide, decide_eq_false_iff_not] at hsign
  omega

/-- The remainder is less than the absolute value of the divisor, so that it can be negated. -/
theorem remainder_ne_intMin (hb : b ≠ 0) (hmin : b ≠ BitVec.intMin 64) :
    a.abs % b.abs ≠ BitVec.intMin 64 := by
  have hpos : 0 < b.abs.toNat :=
    Nat.pos_of_ne_zero fun hzero => abs_ne_zero hb (BitVec.eq_of_toNat_eq hzero)
  have hlt : (a.abs % b.abs).toNat < 2 ^ 63 := by
    rw [BitVec.toNat_umod]
    exact Nat.lt_trans (Nat.mod_lt _ hpos) (toNat_abs_lt hmin)
  intro heq
  rw [heq] at hlt
  exact absurd hlt (by decide)

/-- The remainder takes the sign of the dividend. -/
theorem remainder_sign (wrap : Bool) (hdefined : ¬Undefined wrap a b) :
    ssub wrap ((a.abs % b.abs) ^^^ a.sshiftRight 63) (a.sshiftRight 63) = some (a.srem b) := by
  have hvalue : (if a.msb = true then -(a.abs % b.abs) else a.abs % b.abs) = a.srem b := by
    rw [BitVec.srem_eq, BitVec.abs, BitVec.abs]
    cases a.msb <;> cases b.msb <;> rfl
  have hnegated : ¬(wrap = false ∧ a.msb = true ∧ a.abs % b.abs = BitVec.intMin 64) := by
    intro h
    have hb : b ≠ 0 := fun hzero => hdefined (Or.inl hzero)
    have hmin : b ≠ BitVec.intMin 64 := fun hleast => hdefined (Or.inr ⟨h.1, Or.inr hleast⟩)
    exact remainder_ne_intMin hb hmin h.2.2
  rw [sshiftRight_sign, ssub_xor_mask, if_neg hnegated, hvalue]

theorem moddi3_eq (wrap : Bool) (a b : BitVec 64) :
    moddi3 wrap a b = if Undefined wrap a b then none else some (a.srem b) := by
  simp only [moddi3, ssub_sign, Option.bind_eq_bind]
  rcases undefined_cases wrap a b true with
    ⟨hdefined, ha, hb, hdivided⟩ | ⟨hundefined, ha | hb | hnone⟩
  · rw [if_neg hdefined, if_neg ha, if_neg hb]
    simp only [Option.bind_some, hdivided, if_true, remainder_sign wrap hdefined]
  · rw [if_pos hundefined, if_pos ha]
    split <;> rfl
  · rw [if_pos hundefined, if_pos hb]
    rfl
  · rw [if_pos hundefined]
    split
    · rfl
    · split
      · rfl
      · simp only [Option.bind_some, hnone, Option.bind_none]

/-- The remainder that is left by the quotient, also where the quotient wraps around. -/
theorem sub_sdiv_mul (a b : BitVec 64) : a - a.sdiv b * b = a.srem b := by
  apply BitVec.eq_of_toInt_eq
  have hmod : a.toInt - a.toInt.tdiv b.toInt * b.toInt = a.toInt.tmod b.toInt := by
    rw [Int.tmod_def, Int.mul_comm]
  calc
    (a - a.sdiv b * b).toInt = (a.toInt - a.toInt.tdiv b.toInt * b.toInt).bmod (2 ^ 64) := by
      simp only [BitVec.toInt_sub, BitVec.toInt_mul, BitVec.toInt_sdiv, Int.sub_bmod_bmod,
        Int.bmod_mul_bmod]
    _ = (a.srem b).toInt.bmod (2 ^ 64) := by rw [hmod, BitVec.toInt_srem]
    _ = (a.srem b).toInt := BitVec.toInt_bmod_cancel _

/-- Neither the product nor the difference overflows, if the division does not. -/
theorem divmod_no_overflow (ha : a ≠ BitVec.intMin 64) :
    (a.sdiv b).smulOverflow b = false ∧ a.ssubOverflow (a.sdiv b * b) = false := by
  have hlower := BitVec.le_toInt a
  have hupper := BitVec.toInt_lt (x := a)
  have hleast := mt (eq_intMin_iff a).2 ha
  have hdiv : (a.sdiv b).toInt = a.toInt.tdiv b.toInt :=
    BitVec.toInt_sdiv_of_ne_or_ne a b (Or.inl ha)
  have hproduct : (a.toInt.tdiv b.toInt * b.toInt).natAbs ≤ a.toInt.natAbs := by
    rw [Int.natAbs_mul, Int.natAbs_tdiv]
    exact Nat.div_mul_le_self _ _
  have hrest : (a.toInt - a.toInt.tdiv b.toInt * b.toInt).natAbs ≤ a.toInt.natAbs := by
    rw [show a.toInt - a.toInt.tdiv b.toInt * b.toInt = a.toInt.tmod b.toInt by
      rw [Int.tmod_def, Int.mul_comm], Int.natAbs_tmod]
    exact Nat.mod_le _ _
  have hvalue : (a.sdiv b * b).toInt = a.toInt.tdiv b.toInt * b.toInt := by
    rw [BitVec.toInt_mul, hdiv]
    exact Int.bmod_eq_of_le (by omega) (by omega)
  constructor
  · rw [BitVec.smulOverflow, hdiv, Bool.or_eq_false_iff, decide_eq_false_iff_not,
      decide_eq_false_iff_not]
    omega
  · rw [BitVec.ssubOverflow, hvalue, Bool.or_eq_false_iff, decide_eq_false_iff_not,
      decide_eq_false_iff_not]
    omega

theorem divmoddi4_eq (wrap : Bool) (a b : BitVec 64) :
    divmoddi4 wrap a b = if Undefined wrap a b then none else some (a.sdiv b, a.srem b) := by
  rw [divmoddi4, divdi3_eq]
  by_cases hundefined : Undefined wrap a b
  · rw [if_pos hundefined, if_pos hundefined]
    rfl
  rw [if_neg hundefined, if_neg hundefined]
  simp only [Option.bind_eq_bind, Option.bind_some]
  have hfits : (wrap || !(a.sdiv b).smulOverflow b) = true ∧
      (wrap || !a.ssubOverflow (a.sdiv b * b)) = true := by
    cases wrap with
    | true => exact ⟨rfl, rfl⟩
    | false =>
        have ha : a ≠ BitVec.intMin 64 :=
          fun hleast => hundefined (Or.inr ⟨rfl, Or.inl hleast⟩)
        obtain ⟨hmul, hsub⟩ := divmod_no_overflow (b := b) ha
        rw [hmul, hsub]
        exact ⟨rfl, rfl⟩
  rw [smul, if_pos hfits.1, Option.bind_some, ssub, if_pos hfits.2, Option.bind_some,
    sub_sdiv_mul]
  rfl

/-- For every dividend and divisor, the signed routines give the quotient truncated toward
zero and the remainder with the sign of the dividend, the quotient of the least number by
`-1` wrapping around. They are undefined for a divisor of zero, and for the least number
unless arithmetic wraps around. -/
theorem signed_division (wrap : Bool) (a b : BitVec 64) :
    divdi3 wrap a b = (if Undefined wrap a b then none else some (a.sdiv b)) ∧
      moddi3 wrap a b = (if Undefined wrap a b then none else some (a.srem b)) ∧
      divmoddi4 wrap a b =
        (if Undefined wrap a b then none else some (a.sdiv b, a.srem b)) ∧
      (a.sdiv b).toInt = (a.toInt.tdiv b.toInt).bmod (2 ^ 64) ∧
      (a.srem b).toInt = a.toInt.tmod b.toInt :=
  ⟨divdi3_eq wrap a b, moddi3_eq wrap a b, divmoddi4_eq wrap a b, BitVec.toInt_sdiv a b,
    BitVec.toInt_srem a b⟩

end OSLabs.Klib
