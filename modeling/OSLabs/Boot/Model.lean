import Mathlib.Logic.Function.Basic
import OSLabs.Am

/-! # The boot loader of the x86 machine

The boot sector loads an ELF image that lies on the disk behind the boot sector and the
argument area. It reads the disk in whole sectors. The processor is in 32-bit mode: pointers
and `uint32_t` values are taken modulo `2 ^ 32`. The result is `none` where the loader goes on
forever, and where it writes over its own code or stack. Memory is accessed in the order of
the source.
-/

namespace OSLabs.Boot

def SECTSIZE : Nat := 512

def ARGSIZE : Nat := 1024

def MAINARG_ADDR : Nat := 0x10000

def BOOTREC_ADDR : Nat := 0x7000

abbrev Memory := Nat → UInt8

/-- The bytes of the two drives of the disk controller. -/
abbrev Drives := Nat → Nat → UInt8

/-- A value of type `uint32_t`. -/
def uint32 (n : Nat) : Nat := n % 0x100000000

/-! ## The disk -/

/-- Byte `i` of a sector. The registers `0x1f3` to `0x1f6` take 28 bits of the number, and
the bit above them selects the drive. -/
def sectorByte (drives : Drives) (sect i : Nat) : UInt8 :=
  drives (sect / 0x10000000 % 2) (sect % 0x10000000 * SECTSIZE + i)

def readDisk (drives : Drives) (mem : Memory) (buf sect : Nat) : Memory :=
  fun a => if buf ≤ a ∧ a < buf + SECTSIZE then sectorByte drives sect (a - buf) else mem a

/-- The number of the first sector for a position behind the argument area. -/
def firstSector (diskOffset : Int) : Nat :=
  ((diskOffset.tdiv SECTSIZE + (ARGSIZE / SECTSIZE : Nat) + 1) % 0x100000000).toNat

/-- `buf & ~(SECTSIZE - 1)`. -/
def sectorStart (buf : Nat) : Nat := buf / SECTSIZE * SECTSIZE

/-- What the loader runs on: the routine that reads a sector to an address, where `σ` is the
state of the disk, and the lowest address of the stack. -/
structure Loader (σ : Type) where
  readDisk : Nat → Nat → Memory → σ → Option (Memory × σ)
  stack : Nat

def byteDisk (stack : Nat) : Loader Drives where
  readDisk buf sect mem drives := some (readDisk drives mem buf sect, drives)
  stack

/-! ## Headers -/

def readLE (mem : Memory) (a : Nat) : Nat → Nat
  | 0 => 0
  | n + 1 => (mem a).toNat + 256 * readLE mem (a + 1) n

structure Field where
  pos : Nat
  width : Nat

def Field.read (f : Field) (mem : Memory) (base : Nat) : Nat :=
  readLE mem (base + f.pos) f.width

inductive Format where
  | elf32
  | elf64
  deriving DecidableEq, Repr

namespace Format

def e_phoff : Format → Field
  | elf32 => ⟨28, 4⟩
  | elf64 => ⟨32, 8⟩

def e_phnum : Format → Field
  | elf32 => ⟨44, 2⟩
  | elf64 => ⟨56, 2⟩

def e_entry : Format → Field
  | elf32 => ⟨24, 4⟩
  | elf64 => ⟨24, 8⟩

def p_offset : Format → Field
  | elf32 => ⟨4, 4⟩
  | elf64 => ⟨8, 8⟩

def p_paddr : Format → Field
  | elf32 => ⟨12, 4⟩
  | elf64 => ⟨24, 8⟩

def p_filesz : Format → Field
  | elf32 => ⟨16, 4⟩
  | elf64 => ⟨32, 8⟩

def p_memsz : Format → Field
  | elf32 => ⟨20, 4⟩
  | elf64 => ⟨40, 8⟩

def phdrSize : Format → Nat
  | elf32 => 32
  | elf64 => 56

end Format

/-- The fields of a program header that the loader uses. -/
structure Phdr where
  filesz : Nat
  memsz : Nat
  paddr : Nat
  offset : Nat
  deriving DecidableEq, Repr

def phdrAt (c : Format) (mem : Memory) (ph : Nat) : Phdr where
  filesz := c.p_filesz.read mem ph
  memsz := c.p_memsz.read mem ph
  paddr := c.p_paddr.read mem ph
  offset := c.p_offset.read mem ph

/-- The bytes that pointers of 32 bits lead to. -/
def at32 (mem : Memory) : Memory := fun a => mem (uint32 a)

def elfAddr : Nat := 0x8000

def EM_X86_64 : Nat := 62

/-- `elf32->e_machine`, which is at the same place in both structures. -/
def machine (mem : Memory) : Nat := readLE mem (elfAddr + 18) 2

/-! ## The loader -/

namespace Loader

variable {σ : Type} (l : Loader σ)

/-- The addresses of the boot sector's code and of the stack, which starts at `0xa000`. -/
def Own (a : Nat) : Prop := 0x7c00 ≤ a ∧ a < 0x7e00 ∨ l.stack ≤ a ∧ a < 0xa000

instance (a : Nat) : Decidable (l.Own a) := inferInstanceAs (Decidable (_ ∨ _))

/-- None of the `n` addresses from `a` on is the loader's own, where `n` is not 0. -/
def Free (a n : Nat) : Prop :=
  (a + n ≤ 0x7c00 ∨ 0x7e00 ≤ a) ∧ (a + n ≤ l.stack ∨ 0xa000 ≤ a ∨ 0xa000 ≤ l.stack)

instance (a n : Nat) : Decidable (l.Free a n) := inferInstanceAs (Decidable (_ ∧ _))

/-- The loop of `copy_from_disk`. `fuel` bounds the rounds. -/
def copySectors : Nat → Nat → Nat → Nat → Memory → σ → Option (Memory × σ)
  | 0, _, _, _, _, _ => none
  | fuel + 1, cur, ed, sect, mem, s =>
    if cur < ed then
      if l.Free cur SECTSIZE then do
        let (mem, s) ← l.readDisk cur sect mem s
        copySectors fuel (uint32 (cur + SECTSIZE)) ed (uint32 (sect + 1)) mem s
      else none
    else some (mem, s)

/-- There are `2 ^ 23` sectors of addresses, so a loop of as many rounds goes on forever. -/
def copyFromDisk (buf nbytes : Nat) (diskOffset : Int) (mem : Memory) (s : σ) :
    Option (Memory × σ) :=
  l.copySectors 0x800000 (sectorStart buf) (uint32 (buf + nbytes)) (firstSector diskOffset) mem s

/-- `n` rounds of the loop that clears the rest of a segment. -/
def clearBss : Nat → Nat → Memory → Option Memory
  | 0, _, mem => some mem
  | n + 1, bss, mem =>
    if l.Free bss 1 then clearBss n (uint32 (bss + 1)) (Function.update mem bss 0) else none

def loadProgram (filesz memsz paddr offset : Nat) (mem : Memory) (s : σ) :
    Option (Memory × σ) := do
  let (mem, s) ← l.copyFromDisk paddr filesz (int offset) mem s
  let mem ← l.clearBss (uint32 (memsz + 0x100000000 - filesz)) (uint32 (paddr + filesz)) mem
  return (mem, s)

def loadSegment (p : Phdr) (mem : Memory) (s : σ) : Option (Memory × σ) :=
  l.loadProgram (uint32 p.filesz) (uint32 p.memsz) (uint32 p.paddr) (uint32 p.offset) mem s

/-- The loop over the program headers, which reads the header at `elf` again in every
round. `fuel` bounds the rounds; `e_phnum` has 16 bits. -/
def loadLoop (c : Format) (elf : Nat) :
    Nat → Nat → Nat → Memory → σ → Option (Memory × σ)
  | 0, _, _, mem, s => some (mem, s)
  | fuel + 1, i, ph, mem, s =>
    if i < c.e_phnum.read (at32 mem) elf then do
      let (mem, s) ← l.loadSegment (phdrAt c (at32 mem) ph) mem s
      loadLoop c elf fuel (i + 1) (ph + c.phdrSize) mem s
    else some (mem, s)

/-- `load_elf32` and `load_elf64`, which differ in the structures they use only. -/
def loadElf (c : Format) (elf : Nat) (mem : Memory) (s : σ) : Option (Memory × σ) :=
  l.loadLoop c elf 0x10000 0 (elf + c.e_phoff.read (at32 mem) elf) mem s

def loadElf64 (elf : Nat) (mem : Memory) (s : σ) : Option (Memory × σ) :=
  l.loadElf .elf64 elf mem s

def loadElf32 (elf : Nat) (mem : Memory) (s : σ) : Option (Memory × σ) :=
  l.loadElf .elf32 elf mem s

/-- The part of `load_kernel` that only the first processor runs. -/
def loadImage (mem : Memory) (s : σ) : Option (Memory × σ) := do
  let (mem, s) ← l.copyFromDisk MAINARG_ADDR 1024 (-1024) mem s
  let (mem, s) ← l.copyFromDisk elfAddr 4096 0 mem s
  if machine mem = EM_X86_64 then l.loadElf64 elfAddr mem s else l.loadElf32 elfAddr mem s

/-- The memory and the address that is called at the end. -/
def loadKernel (mem : Memory) (s : σ) : Option ((Memory × Nat) × σ) := do
  let isAp := readLE mem (BOOTREC_ADDR + 4) 4
  let (mem, s) ← if isAp = 0 then l.loadImage mem s else some (mem, s)
  let c := if machine mem = EM_X86_64 then Format.elf64 else Format.elf32
  return ((mem, uint32 (c.e_entry.read mem elfAddr)), s)

end Loader

end OSLabs.Boot
