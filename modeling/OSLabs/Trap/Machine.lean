import OSLabs.Lib.ByteMemory
import Mathlib.Logic.Function.Basic

/-! # The processor

The part of the machine that the entry and the exit of a trap work on, for registers of 32
and of 64 bits, and the instructions that they are written in. Segments are flat, and the
kernel's memory is mapped to itself in every address space.
-/

namespace OSLabs.Trap

open Lib (ByteMemory)
open Lib.ByteMemory

/-- `sp0` and `ss0` are those of the processor's `tss`; `R` names the general registers other
than the stack pointer. -/
structure Machine (R : Type) (w : Nat) where
  regs : R → BitVec w
  sp : BitVec w
  ip : BitVec w
  flags : BitVec w
  cs : BitVec 16
  ds : BitVec 16
  es : BitVec 16
  ss : BitVec 16
  cr2 : BitVec w
  cr3 : BitVec w
  sp0 : BitVec w
  ss0 : BitVec 16
  mem : ByteMemory w

/-! ## Flags -/

variable {R : Type} {w k : Nat}

def setFlag (flags : BitVec w) (i : Nat) (b : Bool) : BitVec w :=
  if b then flags ||| BitVec.twoPow w i else flags &&& ~~~BitVec.twoPow w i

def FL_IF : Nat := 9

def FL_ZF : Nat := 6

def evenParity (r : BitVec k) : Bool := (List.range 8).countP r.getLsbD % 2 == 0

/-- The status flags of a result `r`: carry, parity, adjust, sign, overflow and zero. -/
def status (flags : BitVec w) (carry overflow : Bool) (x y r : BitVec k) : BitVec w :=
  setFlag (setFlag (setFlag (setFlag (setFlag (setFlag flags 0 carry) 2 (evenParity r))
    4 ((x ^^^ y ^^^ r).getLsbD 4)) 7 r.msb) 11 overflow) FL_ZF (r == 0)

def statusAdd (flags : BitVec w) (x y : BitVec k) : BitVec w :=
  status flags (BitVec.carry k x y false) ((x.msb == y.msb) && (x.msb != (x + y).msb)) x y (x + y)

def statusSub (flags : BitVec w) (x y : BitVec k) : BitVec w :=
  status flags (BitVec.ult x y) ((x.msb != y.msb) && (x.msb != (x - y).msb)) x y (x - y)

theorem getLsbD_setFlag (flags : BitVec w) {i : Nat} (hi : i < w) (b : Bool) :
    (setFlag flags i b).getLsbD i = b := by
  unfold setFlag
  cases b with
  | true => simp [hi]
  | false => simp [hi]

/-- A comparison sets the zero flag exactly if its operands are equal. -/
theorem getLsbD_statusSub (flags : BitVec w) (hw : FL_ZF < w) (x y : BitVec k) :
    (statusSub flags x y).getLsbD FL_ZF = (x == y) := by
  unfold statusSub status
  rw [getLsbD_setFlag _ hw]
  by_cases hxy : x = y
  · simp [hxy]
  · have hne : x - y ≠ 0 := fun hzero => hxy (by
      have hcancel := BitVec.sub_add_cancel x y
      rw [hzero] at hcancel
      simpa using hcancel.symm)
    rw [beq_false_of_ne hne, beq_false_of_ne hxy]

/-! ## Instructions -/

/-- Displacements count bytes; where a memory operand names no base, it is the stack
pointer. -/
inductive Instr (R : Type) (w : Nat) where
  | cli
  | subSp (n : BitVec w)
  | addSp (n : BitVec w)
  | push (r : R)
  | pushImm (v : BitVec w)
  | pushSp
  | pop (r : R)
  | movFromSp (r : R)
  | movToSp (r : R)
  | load (off : BitVec w) (base r : R)
  | loadSp (off : BitVec w) (r : R)
  | store (r : R) (off : BitVec w) (base : R)
  | leaSp (off : BitVec w) (base : R)
  | movwImm (v : BitVec 16) (r : R)
  | movwFromDs (r : R)
  | movwToDs (r : R)
  | movwToEs (r : R)
  | movwToSs (r : R)
  | cmpwSp (v : BitVec 16) (off : BitVec w)

def setLow (x : BitVec w) (v : BitVec 16) : BitVec w :=
  (x &&& ~~~(BitVec.allOnes 16).setWidth w) ||| v.setWidth w

namespace Machine

variable [DecidableEq R] (s : Machine R w)

def setReg (r : R) (v : BitVec w) : Machine R w := { s with regs := Function.update s.regs r v }

def pushWord (v : BitVec w) : Machine R w :=
  { s with sp := s.sp - BitVec.ofNat w (w / 8),
           mem := store s.mem (s.sp - BitVec.ofNat w (w / 8)) v }

def popWord (r : R) : Machine R w :=
  { s with regs := Function.update s.regs r (load s.mem s.sp),
           sp := slot s.sp 1 }

def exec : Instr R w → Machine R w
  | .cli => { s with flags := setFlag s.flags FL_IF false }
  | .subSp n => { s with sp := s.sp - n, flags := statusSub s.flags s.sp n }
  | .addSp n => { s with sp := s.sp + n, flags := statusAdd s.flags s.sp n }
  | .push r => s.pushWord (s.regs r)
  | .pushImm v => s.pushWord v
  | .pushSp => s.pushWord s.sp
  | .pop r => s.popWord r
  | .movFromSp r => s.setReg r s.sp
  | .movToSp r => { s with sp := s.regs r }
  | .load off base r => s.setReg r (load s.mem (s.regs base + off))
  | .loadSp off r => s.setReg r (load s.mem (s.sp + off))
  | .store r off base =>
    { s with mem := store s.mem (s.regs base + off) (s.regs r) }
  | .leaSp off base => { s with sp := s.regs base + off }
  | .movwImm v r => s.setReg r (setLow (s.regs r) v)
  | .movwFromDs r => s.setReg r (setLow (s.regs r) s.ds)
  | .movwToDs r => { s with ds := (s.regs r).setWidth 16 }
  | .movwToEs r => { s with es := (s.regs r).setWidth 16 }
  | .movwToSs r => { s with ss := (s.regs r).setWidth 16 }
  | .cmpwSp v off =>
    { s with flags := statusSub s.flags ((load s.mem (s.sp + off)).setWidth 16) v }

def run (code : List (Instr R w)) : Machine R w := code.foldl exec s

end Machine

end OSLabs.Trap
