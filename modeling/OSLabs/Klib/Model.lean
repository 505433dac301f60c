import OSLabs.Am

/-! # klib: random numbers and numerals

The part of klib's `stdlib.c` that computes: the random numbers, for any width of
`unsigned long`, and the reading of decimal numerals. A string is the list of its
characters before the terminating NUL.
-/

namespace OSLabs.Klib

/-! ## Random numbers -/

section

variable {w : Nat}

/-- `rand`: the value and the new `next`, where `unsigned long` has `w` bits. -/
def rand (next : BitVec w) : BitVec 32 × BitVec w :=
  let next := next * 1103515245#w + 12345#w
  ((next / 65536#w).setWidth 32 % 32768#32, next)

def srand (w : Nat) (seed : BitVec 32) : BitVec w := seed.setWidth w

/-- `next` after `srand(seed)` and `n` calls of `rand`. -/
def nextAfter (w : Nat) (seed : BitVec 32) : Nat → BitVec w
  | 0 => srand w seed
  | n + 1 => (rand (nextAfter w seed n)).2

def randAfter (w : Nat) (seed : BitVec 32) (n : Nat) : BitVec 32 :=
  (rand (nextAfter w seed n)).1

end

/-! ## Numerals -/

def isDigit (c : Char) : Bool := '0' ≤ c && c ≤ '9'

/-- `while (*nptr >= '0' && *nptr <= '9')`, with each operation in the order of the
source. -/
def digitLoop (x : Int) : List Char → Option Int
  | [] => some x
  | c :: nptr =>
    if isDigit c then do
      let tens ← checkInt (x * 10)
      let sum ← checkInt (tens + c.toNat)
      let x ← checkInt (sum - '0'.toNat)
      digitLoop x nptr
    else some x

def atoi (nptr : List Char) : Option Int :=
  digitLoop 0 (nptr.dropWhile (· = ' '))

end OSLabs.Klib
