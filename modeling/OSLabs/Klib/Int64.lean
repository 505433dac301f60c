/-! # klib: 64-bit arithmetic on 32-bit words

The routines of `int64.c` that a compiler calls where the machine has no instruction for
them. `none` is what C leaves undefined: a shift by the width of a word or more, a division
by zero, the built-in counts of zeros at zero, and an overflow of signed arithmetic if the
compiler does not let it `wrap`.
-/

namespace OSLabs.Klib

/-- `udwords`: a double word and its halves. -/
structure UDwords where
  high : BitVec 32
  low : BitVec 32
deriving DecidableEq, Repr

def UDwords.all (x : UDwords) : BitVec 64 := x.high ++ x.low

def udwords (all : BitVec 64) : UDwords where
  high := all.extractLsb' 32 32
  low := all.extractLsb' 0 32

/-! ## Operations that may be undefined -/

def shl (x n : BitVec 32) : Option (BitVec 32) :=
  if n.toNat < 32 then some (x <<< n.toNat) else none

def shr (x n : BitVec 32) : Option (BitVec 32) :=
  if n.toNat < 32 then some (x >>> n.toNat) else none

def divWord (x y : BitVec 32) : Option (BitVec 32) := if y = 0 then none else some (x / y)

def modWord (x y : BitVec 32) : Option (BitVec 32) := if y = 0 then none else some (x % y)

/-- `__builtin_clz`, as the compiler documents it. -/
def builtinClz (x : BitVec 32) : Option (BitVec 32) := if x = 0 then none else some x.clz

/-- `__builtin_ctz`, as the compiler documents it. -/
def builtinCtz (x : BitVec 32) : Option (BitVec 32) := if x = 0 then none else some x.ctz

def ssub (wrap : Bool) (x y : BitVec 64) : Option (BitVec 64) :=
  if wrap || !x.ssubOverflow y then some (x - y) else none

def smul (wrap : Bool) (x y : BitVec 64) : Option (BitVec 64) :=
  if wrap || !x.smulOverflow y then some (x * y) else none

/-! ## Counting zeros -/

/-- A comparison as the `int` that it is in C. -/
def ofProp (p : Prop) [Decidable p] : BitVec 32 := if p then 1 else 0

def clzsi2 (a : BitVec 32) : Option (BitVec 32) := do
  let x := a
  let t := ofProp (x &&& 0xFFFF0000 = 0) <<< 4
  let x ← shr x (16 - t)
  let r := t
  let t := ofProp (x &&& 0xFF00 = 0) <<< 3
  let x ← shr x (8 - t)
  let r := r + t
  let t := ofProp (x &&& 0xF0 = 0) <<< 2
  let x ← shr x (4 - t)
  let r := r + t
  let t := ofProp (x &&& 0xC = 0) <<< 1
  let x ← shr x (2 - t)
  let r := r + t
  return r + ((2 - x) &&& -ofProp (x &&& 2 = 0))

def ctzsi2 (a : BitVec 32) : Option (BitVec 32) := do
  let x := a
  let t := ofProp (x &&& 0x0000FFFF = 0) <<< 4
  let x ← shr x t
  let r := t
  let t := ofProp (x &&& 0x00FF = 0) <<< 3
  let x ← shr x t
  let r := r + t
  let t := ofProp (x &&& 0x0F = 0) <<< 2
  let x ← shr x t
  let r := r + t
  let t := ofProp (x &&& 0x3 = 0) <<< 1
  let x ← shr x t
  let x := x &&& 3
  let r := r + t
  return r + ((2 - x >>> 1) &&& -ofProp (x &&& 1 = 0))

def ctzdi2 (a : BitVec 64) : Option (BitVec 32) := do
  let x := udwords a
  let f := -ofProp (x.low = 0)
  let c ← ctzsi2 ((x.high &&& f) ||| (x.low &&& ~~~f))
  return c + (f &&& 32)

def clzdi2 (a : BitVec 64) : Option (BitVec 32) := do
  let x := udwords a
  let f := -ofProp (x.high = 0)
  let c ← clzsi2 ((x.high &&& ~~~f) ||| (x.low &&& f))
  return c + (f &&& 32)

/-! ## Division -/

/-- What is stored through `rem`, if it is not `NULL`. -/
def store (rem : Bool) (value : Option (BitVec 64)) : Option (Option (BitVec 64)) :=
  if rem then value.map some else some none

/-- `__udivmoddi4` before its loop: the result of a special case, or the first values of
`sr`, `q` and `r`. -/
inductive Start where
  | done (quotient : BitVec 64) (rem : Option (BitVec 64))
  | rounds (sr : BitVec 32) (q r : UDwords)
deriving DecidableEq, Repr

/-- `d.s.low == 0`, where `n.s.high` is not zero. -/
def startLowZero (n d : UDwords) (rem : Bool) : Option Start := do
  if d.high = 0 then
    let stored ← store rem ((modWord n.high d.low).map (·.setWidth 64))
    let quotient ← divWord n.high d.low
    return .done (quotient.setWidth 64) stored
  if n.low = 0 then
    let stored ← store rem ((modWord n.high d.high).map fun high => (UDwords.mk high 0).all)
    let quotient ← divWord n.high d.high
    return .done (quotient.setWidth 64) stored
  if d.high &&& (d.high - 1) = 0 then
    let stored ← store rem (some (UDwords.mk (n.high &&& (d.high - 1)) n.low).all)
    let quotient ← shr n.high (← builtinCtz d.high)
    return .done (quotient.setWidth 64) stored
  let sr := (← builtinClz d.high) - (← builtinClz n.high)
  if sr > 30 then
    let stored ← store rem (some n.all)
    return .done 0 stored
  let sr := sr + 1
  let qHigh ← shl n.low (32 - sr)
  let rHigh ← shr n.high sr
  let rLow := (← shl n.high (32 - sr)) ||| (← shr n.low sr)
  return .rounds sr ⟨qHigh, 0⟩ ⟨rHigh, rLow⟩

/-- `d.s.low != 0` and `d.s.high == 0`, where `n.s.high` is not zero. -/
def startHighZero (n d : UDwords) (rem : Bool) : Option Start := do
  if d.low &&& (d.low - 1) = 0 then
    let stored ← store rem (some ((n.low &&& (d.low - 1)).setWidth 64))
    if d.low = 1 then
      return .done n.all stored
    let sr ← builtinCtz d.low
    let qHigh ← shr n.high sr
    let qLow := (← shl n.high (32 - sr)) ||| (← shr n.low sr)
    return .done (UDwords.mk qHigh qLow).all stored
  let sr := 1 + 32 + (← builtinClz d.low) - (← builtinClz n.high)
  if sr = 32 then
    return .rounds sr ⟨n.low, 0⟩ ⟨0, n.high⟩
  if sr < 32 then
    let qHigh ← shl n.low (32 - sr)
    let rHigh ← shr n.high sr
    let rLow := (← shl n.high (32 - sr)) ||| (← shr n.low sr)
    return .rounds sr ⟨qHigh, 0⟩ ⟨rHigh, rLow⟩
  let qLow ← shl n.low (64 - sr)
  let qHigh := (← shl n.high (64 - sr)) ||| (← shr n.low (sr - 32))
  let rLow ← shr n.high (sr - 32)
  return .rounds sr ⟨qHigh, qLow⟩ ⟨0, rLow⟩

/-- `d.s.low` and `d.s.high` both not zero, nor is `n.s.high`. -/
def startFull (n d : UDwords) (rem : Bool) : Option Start := do
  let sr := (← builtinClz d.high) - (← builtinClz n.high)
  if sr > 31 then
    let stored ← store rem (some n.all)
    return .done 0 stored
  let sr := sr + 1
  if sr = 32 then
    return .rounds sr ⟨n.low, 0⟩ ⟨0, n.high⟩
  let qHigh ← shl n.low (32 - sr)
  let rHigh ← shr n.high sr
  let rLow := (← shl n.high (32 - sr)) ||| (← shr n.low sr)
  return .rounds sr ⟨qHigh, 0⟩ ⟨rHigh, rLow⟩

def start (n d : UDwords) (rem : Bool) : Option Start := do
  if n.high = 0 then
    if d.high = 0 then
      let stored ← store rem ((modWord n.low d.low).map (·.setWidth 64))
      let quotient ← divWord n.low d.low
      return .done (quotient.setWidth 64) stored
    let stored ← store rem (some (n.low.setWidth 64))
    return .done 0 stored
  if d.low = 0 then
    startLowZero n d rem
  else if d.high = 0 then
    startHighZero n d rem
  else
    startFull n d rem

structure Division where
  q : UDwords
  r : UDwords
  carry : BitVec 32
deriving DecidableEq, Repr

/-- The body of the loop: `r:q` moves up by one bit and takes in `carry`, and `d` is taken
off `r` without a branch. -/
def divisionRound (d : BitVec 64) (s : Division) : Division :=
  let r := UDwords.mk ((s.r.high <<< 1) ||| (s.r.low >>> 31)) ((s.r.low <<< 1) ||| (s.q.high >>> 31))
  let q := UDwords.mk ((s.q.high <<< 1) ||| (s.q.low >>> 31)) ((s.q.low <<< 1) ||| s.carry)
  let mask := (d - r.all - 1).sshiftRight 63
  { q, r := udwords (r.all - (d &&& mask)), carry := (mask &&& 1).setWidth 32 }

/-- `for (; sr > 0; --sr)` -/
def divisionLoop (d : BitVec 64) : Nat → Division → Division
  | 0, s => s
  | sr + 1, s => divisionLoop d sr (divisionRound d s)

/-- `__udivmoddi4`: the quotient, and what is stored through `rem`. -/
def udivmoddi4 (a b : BitVec 64) (rem : Bool) : Option (BitVec 64 × Option (BitVec 64)) := do
  match ← start (udwords a) (udwords b) rem with
  | .done quotient stored => return (quotient, stored)
  | .rounds sr q r =>
    let s := divisionLoop b sr.toNat ⟨q, r, 0⟩
    let stored ← store rem (some s.r.all)
    return (s.q.all <<< 1 ||| s.carry.setWidth 64, stored)

def udivdi3 (a b : BitVec 64) : Option (BitVec 64) := do
  let (quotient, _) ← udivmoddi4 a b false
  return quotient

def umoddi3 (a b : BitVec 64) : Option (BitVec 64) := do
  let (_, stored) ← udivmoddi4 a b true
  stored

def divdi3 (wrap : Bool) (a b : BitVec 64) : Option (BitVec 64) := do
  let sa := a.sshiftRight 63
  let sb := b.sshiftRight 63
  let a ← ssub wrap (a ^^^ sa) sa
  let b ← ssub wrap (b ^^^ sb) sb
  let sa := sa ^^^ sb
  let (quotient, _) ← udivmoddi4 a b false
  return (quotient ^^^ sa) - sa

def divmoddi4 (wrap : Bool) (a b : BitVec 64) : Option (BitVec 64 × BitVec 64) := do
  let d ← divdi3 wrap a b
  let rem ← ssub wrap a (← smul wrap d b)
  return (d, rem)

def moddi3 (wrap : Bool) (a b : BitVec 64) : Option (BitVec 64) := do
  let s := b.sshiftRight 63
  let b ← ssub wrap (b ^^^ s) s
  let s := a.sshiftRight 63
  let a ← ssub wrap (a ^^^ s) s
  let (_, stored) ← udivmoddi4 a b true
  let r ← stored
  ssub wrap (r ^^^ s) s

end OSLabs.Klib
