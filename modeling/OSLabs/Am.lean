/-! # Areas of memory and arithmetic on `int`

What `am.h`, `klib-macros.h` and the C language give to several of the models.
-/

namespace OSLabs

structure Area where
  start : Nat
  stop : Nat
  deriving DecidableEq, Repr

def inRange (p : Nat) (a : Area) : Prop := a.start ≤ p ∧ p < a.stop

instance (p : Nat) (a : Area) : Decidable (inRange p a) := inferInstanceAs (Decidable (_ ∧ _))

/-- A value converted to `int`, and a result of arithmetic on `int` where it wraps around. -/
def int (n : Int) : Int := n.bmod 4294967296

/-- A result of arithmetic on `int` where an overflow is undefined. -/
def checkInt (n : Int) : Option Int :=
  if -2147483648 ≤ n ∧ n < 2147483648 then some n else none

theorem int_eq {n : Int} (hlow : -2147483648 ≤ n) (hhigh : n < 2147483648) : int n = n := by
  unfold int
  exact Int.bmod_eq_of_le (by omega) (by omega)

theorem int_wrapped {n : Int} (hlow : 2147483648 ≤ n) (hhigh : n < 4294967296) :
    int n = n - 4294967296 := by
  unfold int
  rw [Int.bmod_eq_iff (by omega)]
  omega

theorem checkInt_of_bounds {n : Int} (h : -2147483648 ≤ n ∧ n < 2147483648) :
    checkInt n = some n :=
  if_pos h

end OSLabs
