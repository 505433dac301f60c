import Mathlib.Algebra.Group.Nat.Defs
import OSLabs.Boot.Model

/-! # The disk of the x86 machine

A controller with two drives is behind the ports `0x1f0` to `0x1f7`. After a command and after
a transfer it is busy for a while, which only the status shows. What it does with any other
access in that time is not defined, and `none` stands for it here.
-/

namespace OSLabs.Disk

open Boot (Memory Drives SECTSIZE uint32 readLE)

/-! ## The controller -/

inductive Phase where
  | idle
  /-- The data port gives a sector, of which `pos` bytes have been read. -/
  | reading (drive lba pos : Nat)
  /-- The data port takes a sector, of which `pos` bytes have been written. -/
  | writing (drive lba pos : Nat)
  deriving DecidableEq, Repr

/-- The registers `0x1f2` to `0x1f6` and what goes on behind them. -/
structure Ata where
  count : UInt8
  lbaLow : UInt8
  lbaMid : UInt8
  lbaHigh : UInt8
  device : UInt8
  phase : Phase
  /-- What the next reads of the status give besides the busy bit, as long as it is set. -/
  busy : List UInt8
  /-- The same for the times to come. -/
  delays : Nat → List UInt8
  drives : Drives

namespace Ata

def lba (a : Ata) : Nat :=
  a.lbaLow.toNat + 0x100 * a.lbaMid.toNat + 0x10000 * a.lbaHigh.toNat +
    0x1000000 * (a.device.toNat % 16)

def drive (a : Ata) : Nat := a.device.toNat / 16 % 2

def startPhase (a : Ata) (phase : Phase) : Ata :=
  { a with phase, busy := a.delays 0, delays := fun i => a.delays (i + 1) }

/-- A read of the status at `0x1f7`: bit 7 for busy, bit 6 for ready, bit 3 for data. -/
def inb (a : Ata) : UInt8 × Ata :=
  match a.busy with
  | bits :: busy => (0x80 ||| bits, { a with busy })
  | [] => (if a.phase = .idle then 0x50 else 0x58, a)

def start (command : UInt8) (a : Ata) : Option Ata :=
  if a.count = 1 ∧ a.device &&& 0x40 ≠ 0 then
    if command = 0x20 then some (a.startPhase (.reading a.drive a.lba 0))
    else if command = 0x30 then some (a.startPhase (.writing a.drive a.lba 0))
    else none
  else none

def outb (port : Nat) (value : UInt8) (a : Ata) : Option Ata :=
  if a.busy = [] ∧ a.phase = .idle then
    match port with
    | 0x1f2 => some { a with count := value }
    | 0x1f3 => some { a with lbaLow := value }
    | 0x1f4 => some { a with lbaMid := value }
    | 0x1f5 => some { a with lbaHigh := value }
    | 0x1f6 => some { a with device := value }
    | 0x1f7 => a.start value
    | _ => none
  else none

end Ata

/-- The low `n` bytes of a number, stored from `p` on. -/
def storeLE (mem : Memory) (p value n : Nat) : Memory :=
  fun q => if p ≤ q ∧ q < p + n then UInt8.ofNat (value / 256 ^ (q - p)) else mem q

namespace Ata

def inl (a : Ata) : Option (Nat × Ata) :=
  match a.phase with
  | .reading drive lba pos =>
    if a.busy = [] then
      some (readLE (a.drives drive) (lba * SECTSIZE + pos) 4,
        if pos + 4 < SECTSIZE then { a with phase := .reading drive lba (pos + 4) }
        else a.startPhase .idle)
    else none
  | _ => none

def outl (value : Nat) (a : Ata) : Option Ata :=
  match a.phase with
  | .writing drive lba pos =>
    if a.busy = [] then
      let stored := { a with
        drives := Function.update a.drives drive
          (storeLE (a.drives drive) (lba * SECTSIZE + pos) value 4) }
      some (if pos + 4 < SECTSIZE then { stored with phase := .writing drive lba (pos + 4) }
        else stored.startPhase .idle)
    else none
  | _ => none

theorem inb_of_ready {a : Ata} (h : a.busy = []) :
    a.inb.1 &&& 0xc0 = 0x40 ∧ a.inb.2 = a := by
  unfold inb
  rw [h]
  refine ⟨?_, rfl⟩
  show (if a.phase = .idle then (0x50 : UInt8) else 0x58) &&& 0xc0 = 0x40
  split
  · decide
  · decide

theorem inb_of_busy {a : Ata} {bits : UInt8} {busy : List UInt8} (h : a.busy = bits :: busy) :
    a.inb = (0x80 ||| bits, { a with busy }) := by
  unfold inb
  rw [h]

/-- A status that the loop of `wait_disk` does not accept uses up some of the busy time. -/
theorem busy_of_not_ready {a : Ata} (h : a.inb.1 &&& 0xc0 ≠ 0x40) :
    a.inb.2.busy.length < a.busy.length := by
  cases hbusy : a.busy with
  | nil => exact absurd (inb_of_ready hbusy).1 h
  | cons bits busy =>
      rw [inb_of_busy hbusy]
      exact Nat.lt_succ_self busy.length

end Ata

/-! ## The driver -/

def waitDisk (a : Ata) : Ata :=
  if a.inb.1 &&& 0xc0 ≠ 0x40 then waitDisk a.inb.2 else a.inb.2
termination_by a.busy.length
decreasing_by exact Ata.busy_of_not_ready ‹_›

/-- The six writes that select a sector and start a command. -/
def command (sect : Nat) (cmd : UInt8) (a : Ata) : Option Ata := do
  let a ← a.outb 0x1f2 1
  let a ← a.outb 0x1f3 (UInt8.ofNat sect)
  let a ← a.outb 0x1f4 (UInt8.ofNat (sect / 2 ^ 8))
  let a ← a.outb 0x1f5 (UInt8.ofNat (sect / 2 ^ 16))
  let a ← a.outb 0x1f6 (UInt8.ofNat (sect / 2 ^ 24) ||| 0xe0)
  a.outb 0x1f7 cmd

/-- `n` rounds of the loop that stores words from the data port at `ptr`. -/
def readWords : Nat → Nat → Memory → Ata → Option (Memory × Ata)
  | 0, _, mem, a => some (mem, a)
  | n + 1, ptr, mem, a => do
    let (value, a) ← a.inl
    readWords n (ptr + 4) (storeLE mem ptr value 4) a

/-- `n` rounds of the loop that gives the words at `ptr` to the data port. -/
def writeWords : Nat → Nat → Memory → Ata → Option Ata
  | 0, _, _, a => some a
  | n + 1, ptr, mem, a => do
    let a ← a.outl (readLE mem ptr 4)
    writeWords n (ptr + 4) mem a

def BLKSZ : Nat := 512

def DISKSZ : Nat := 64 * 2 ^ 20

def blkcnt : Nat := DISKSZ / BLKSZ

structure Blkio where
  write : Bool
  buf : Nat
  blkno : Int
  blkcnt : Int
  deriving DecidableEq, Repr

def ofInt (i : Int) : Nat := (i % 0x100000000).toNat

/-- The loop of `disk_blkio`, with `remain` rounds left. -/
def blkioLoop (write : Bool) : Nat → Nat → Nat → Memory → Ata → Option (Memory × Ata)
  | 0, _, _, mem, a => some (mem, a)
  | remain + 1, blkno, ptr, mem, a => do
    let a ← command blkno (if write then 0x30 else 0x20) (waitDisk a)
    let a := waitDisk a
    if write then
      let a ← writeWords (BLKSZ / 4) ptr mem a
      blkioLoop write remain (uint32 (blkno + 1)) (ptr + BLKSZ) mem a
    else
      let (mem, a) ← readWords (BLKSZ / 4) ptr mem a
      blkioLoop write remain (uint32 (blkno + 1)) (ptr + BLKSZ) mem a

def diskBlkio (bio : Blkio) (mem : Memory) (a : Ata) : Option (Memory × Ata) :=
  blkioLoop bio.write (ofInt bio.blkcnt) (ofInt bio.blkno) bio.buf mem a

end OSLabs.Disk
