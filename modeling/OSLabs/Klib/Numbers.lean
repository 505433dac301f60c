import Mathlib.Data.List.TakeWhile
import OSLabs.Klib.Model

/-! # klib: what the numbers are

The low word of `next` takes no part of the high one, and `rand` shows bits of the low
word only. `atoi` reads every numeral of an `int` except the largest ones, for which the
code of the last digit is added before that of `'0'` is taken off.
-/

namespace OSLabs.Klib

/-! ## Random numbers -/

section

variable {w : Nat}

theorem rand_toNat (hw : 32 ≤ w) (next : BitVec w) :
    (rand next).1.toNat = (rand next).2.toNat / 65536 % 32768 := by
  have hpow : 2 ^ 32 ≤ 2 ^ w := Nat.pow_le_pow_right (by decide) hw
  have hdiv : 65536 % 2 ^ w = 65536 := Nat.mod_eq_of_lt (by omega)
  have hrange : 32768 % 2 ^ 32 = 32768 := by decide
  simp only [rand, BitVec.toNat_umod, BitVec.toNat_setWidth, BitVec.toNat_udiv,
    BitVec.toNat_ofNat, hdiv, hrange]
  omega

/-- The low word of the new `next` is that of a generator with this word only. -/
theorem rand_low (hw : 32 ≤ w) (next : BitVec w) :
    ((rand next).2).setWidth 32 = (rand (next.setWidth 32)).2 := by
  simp only [rand, BitVec.setWidth_add _ _ hw, BitVec.setWidth_mul _ _ hw,
    BitVec.setWidth_ofNat_of_le hw]

/-- Whatever the width, the low word of `next` runs through the same values. -/
theorem nextAfter_low (hw : 32 ≤ w) (seed : BitVec 32) (n : Nat) :
    (nextAfter w seed n).setWidth 32 = nextAfter 32 seed n := by
  induction n with
  | zero => simp [nextAfter, srand, BitVec.setWidth_setWidth_of_le _ hw]
  | succ n ih => rw [nextAfter, rand_low hw, ih, nextAfter]

theorem randAfter_eq (hw : 32 ≤ w) (seed : BitVec 32) (n : Nat) :
    randAfter w seed n = randAfter 32 seed n := by
  apply BitVec.eq_of_toNat_eq
  rw [randAfter, randAfter, rand_toNat hw, rand_toNat (Nat.le_refl 32), ← nextAfter_low hw,
    ← rand_low hw, BitVec.toNat_setWidth]
  omega

end

/-- The numbers are the same on machines of 32 and of 64 bits, and from `0` to `32767`. -/
theorem rand_independent_of_width (seed : BitVec 32) (n : Nat) :
    randAfter 32 seed n = randAfter 64 seed n ∧
      0 ≤ (randAfter 32 seed n).toInt ∧ (randAfter 32 seed n).toInt ≤ 32767 := by
  have hlt : (randAfter 32 seed n).toNat < 32768 := by
    rw [randAfter, rand_toNat (Nat.le_refl 32)]
    exact Nat.mod_lt _ (by decide)
  have hint : (randAfter 32 seed n).toInt = (randAfter 32 seed n).toNat :=
    BitVec.toInt_eq_toNat_of_lt (by omega)
  refine ⟨(randAfter_eq (by decide) seed n).symm, ?_, ?_⟩
  · omega
  · omega

/-! ## Numerals -/

/-- The number that decimal digits denote behind those of `x`. -/
def decimalFrom (x : Nat) (ds : List Char) : Nat :=
  ds.foldl (fun x c => 10 * x + (c.toNat - '0'.toNat)) x

def decimal (ds : List Char) : Nat := decimalFrom 0 ds

/-- The numeral `ds` ends where `rest` starts, and with no digits the blanks do. -/
def Ends (ds rest : List Char) : Prop :=
  ∀ c, rest.head? = some c → isDigit c = false ∧ (ds = [] → c ≠ ' ')

theorem isDigit_bounds {c : Char} (h : isDigit c = true) : 48 ≤ c.toNat ∧ c.toNat ≤ 57 := by
  rcases Bool.and_eq_true_iff.1 h with ⟨hlow, hhigh⟩
  exact ⟨of_decide_eq_true hlow, of_decide_eq_true hhigh⟩

theorem le_decimalFrom (x : Nat) (ds : List Char) : x ≤ decimalFrom x ds := by
  induction ds generalizing x with
  | nil => exact Nat.le_refl x
  | cons c ds ih =>
      have hrest := ih (10 * x + (c.toNat - '0'.toNat))
      rw [decimalFrom, List.foldl_cons, ← decimalFrom]
      omega

/-- One digit leaves `int` only through the code that is added. -/
theorem digitLoop_cons {x : Nat} {c : Char} {nptr : List Char} (hc : isDigit c = true)
    (hx : 10 * x + (c.toNat - '0'.toNat) < 2147483648) :
    digitLoop x (c :: nptr) =
      if 10 * x + (c.toNat - '0'.toNat) < 2147483600 then
        digitLoop (10 * x + (c.toNat - '0'.toNat) : Nat) nptr
      else none := by
  have hcode := isDigit_bounds hc
  have hzero : '0'.toNat = 48 := rfl
  rw [hzero] at hx ⊢
  have htens : checkInt ((x : Int) * 10) = some ((x : Int) * 10) := checkInt_of_bounds (by omega)
  rw [digitLoop, if_pos hc, htens, Option.bind_eq_bind, Option.bind_some]
  by_cases hfit : 10 * x + (c.toNat - 48) < 2147483600
  · have hsum : checkInt ((x : Int) * 10 + c.toNat) = some ((x : Int) * 10 + c.toNat) :=
      checkInt_of_bounds (by omega)
    have hnext : checkInt ((x : Int) * 10 + c.toNat - 48) =
        some ((10 * x + (c.toNat - 48) : Nat) : Int) := by
      rw [checkInt_of_bounds (by omega)]
      exact congrArg some (by omega)
    rw [if_pos hfit, hsum, Option.bind_some]
    exact congrArg (fun o : Option Int => o.bind fun x => digitLoop x nptr) hnext
  · have hsum : checkInt ((x : Int) * 10 + c.toNat) = none := if_neg (by omega)
    rw [if_neg hfit, hsum]
    rfl

theorem digitLoop_end {x : Int} {rest : List Char}
    (h : ∀ c, rest.head? = some c → isDigit c = false) : digitLoop x rest = some x := by
  cases rest with
  | nil => rfl
  | cons c rest =>
      rw [digitLoop, if_neg]
      rw [h c rfl]
      exact Bool.false_ne_true

theorem digitLoop_eq {x : Nat} {ds rest : List Char} (hds : ∀ c ∈ ds, isDigit c = true)
    (hrest : ∀ c, rest.head? = some c → isDigit c = false)
    (hvalue : decimalFrom x ds < 2147483648) :
    digitLoop x (ds ++ rest) =
      if ds = [] ∨ decimalFrom x ds < 2147483600 then some (decimalFrom x ds : Int) else none := by
  induction ds generalizing x with
  | nil => rw [if_pos (.inl rfl)]; exact digitLoop_end hrest
  | cons c ds ih =>
      rw [decimalFrom, List.foldl_cons, ← decimalFrom] at hvalue ⊢
      have hle := le_decimalFrom (10 * x + (c.toNat - '0'.toNat)) ds
      rw [List.cons_append, digitLoop_cons (hds c List.mem_cons_self) (by omega)]
      have hih := ih (fun d hd => hds d (List.mem_cons_of_mem c hd)) hvalue
      by_cases hfit : 10 * x + (c.toNat - '0'.toNat) < 2147483600
      · rw [if_pos hfit, hih]
        cases ds with
        | nil =>
            rw [if_pos (.inl rfl), if_pos (.inr hfit)]
        | cons d ds => simp
      · rw [if_neg hfit, if_neg]
        simp only [List.cons_ne_nil, false_or]
        omega

/-- `atoi` returns the number of every numeral up to `2147483599` without leaving `int` on
the way, and of no larger one. -/
theorem atoi_exact_iff (blanks : Nat) (ds rest : List Char) (hds : ∀ c ∈ ds, isDigit c = true)
    (hrest : Ends ds rest) (hvalue : decimal ds ≤ 2147483647) :
    atoi (List.replicate blanks ' ' ++ (ds ++ rest)) = some (decimal ds : Int) ↔
      decimal ds ≤ 2147483599 := by
  have hskip : (List.replicate blanks ' ' ++ (ds ++ rest)).dropWhile (· = ' ') = ds ++ rest := by
    rw [List.dropWhile_append_of_pos (by simp)]
    cases ds with
    | nil =>
        cases rest with
        | nil => rfl
        | cons c rest => simp [(hrest c rfl).2 rfl]
    | cons c ds =>
        have hc : c ≠ ' ' := by
          rintro rfl
          exact absurd (hds ' ' List.mem_cons_self) (by decide)
        simp [hc]
  have hloop := digitLoop_eq (x := 0) hds (fun c hc => (hrest c hc).1)
    (Nat.lt_succ_of_le hvalue)
  rw [atoi, hskip, show (0 : Int) = ((0 : Nat) : Int) from rfl, hloop, ← decimal]
  by_cases hfit : ds = [] ∨ decimal ds < 2147483600
  · rw [if_pos hfit]
    refine iff_of_true rfl ?_
    rcases hfit with rfl | hfit
    · exact Nat.zero_le _
    · omega
  · rw [if_neg hfit]
    rw [not_or] at hfit
    exact iff_of_false (by simp) (by omega)

/-- For the largest `int` the sum with the code of its last digit is none. -/
theorem atoi_largest :
    decimal ['2', '1', '4', '7', '4', '8', '3', '6', '4', '7'] = 2147483647 ∧
      atoi ['2', '1', '4', '7', '4', '8', '3', '6', '4', '7'] ≠ some 2147483647 := by
  decide

theorem atoi_exact_iff_blanks :
    atoi (List.replicate 2 ' ' ++ (['0', '4', '2'] ++ [';', '1'])) = some (42 : Nat) ↔
      42 ≤ 2147483599 :=
  atoi_exact_iff 2 ['0', '4', '2'] [';', '1'] (by simp [isDigit]) (by simp [Ends, isDigit])
    (by decide)

end OSLabs.Klib
