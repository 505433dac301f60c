import Mathlib.Algebra.Group.Nat.Defs
import Mathlib.Logic.Function.Basic
import OSLabs.Am
import OSLabs.Lib.Tables

/-! # Page tables of x86-qemu

Both configurations of the memory manager, with the memory that it reads and writes:
the page tables, by their base addresses, and the `ptr` cells of the address spaces.
Words are natural numbers below `2 ^ width`. `pgalloc` and `pgfree` belong to the
caller of `vmeInit`; their calls are recorded in order.
-/

namespace OSLabs.Vme

open OSLabs.Lib

/-- The two sides of `#if __x86_64__`. -/
inductive Arch where
  | x86_64
  | i386
  deriving DecidableEq, Repr

def Arch.width : Arch → Nat
  | x86_64 => 64
  | i386 => 32

/-! ## Constants -/

def pteP : Nat := 0x001
def pteW : Nat := 0x002
def pteU : Nat := 0x004
def ptePS : Nat := 0x080

def mmapNone : Nat := 0
def mmapRead : Nat := 1
def mmapWrite : Nat := 2

structure PtInfo where
  name : String
  mask : Nat
  shift : Nat
  bits : Nat
  deriving DecidableEq, Repr

structure MmuConfig where
  ptlevels : Nat
  pgsize : Nat
  pgtables : List PtInfo

def mmu : Arch → MmuConfig
  | .x86_64 =>
    { pgsize := 4096
      ptlevels := 4
      pgtables := [
        ⟨"CR3", 0x000000000000, 0, 0⟩,
        ⟨"PML4", 0xff8000000000, 39, 9⟩,
        ⟨"PDPT", 0x007fc0000000, 30, 9⟩,
        ⟨"PD", 0x00003fe00000, 21, 9⟩,
        ⟨"PT", 0x0000001ff000, 12, 9⟩] }
  | .i386 =>
    { pgsize := 4096
      ptlevels := 2
      pgtables := [
        ⟨"CR3", 0x00000000, 0, 0⟩,
        ⟨"PD", 0xffc00000, 22, 10⟩,
        ⟨"PT", 0x003ff000, 12, 10⟩] }

structure VmArea where
  area : Area
  kernel : Bool
  deriving DecidableEq, Repr

def vmAreas : Arch → List VmArea
  | .x86_64 => [
      ⟨⟨0x100000000000, 0x108000000000⟩, false⟩,
      ⟨⟨0x000000000000, 0x008000000000⟩, true⟩]
  | .i386 => [
      ⟨⟨0x40000000, 0x80000000⟩, false⟩,
      ⟨⟨0x00000000, 0x40000000⟩, true⟩,
      ⟨⟨0xfd000000, 0x00000000⟩, true⟩]

def uvmArea (c : Arch) : Area :=
  match vmAreas c with
  | vma :: _ => vma.area
  | [] => ⟨0, 0⟩

/-- `addr & ~(sz - 1)` on words. -/
def rounddown (c : Arch) (addr sz : Nat) : Nat := addr &&& (2 ^ c.width - sz)

/-! ## Memory -/

/-- What a pointer to a table entry starts from: the `ptr` cell of an address space, or
the base address of a page. -/
inductive Base where
  | space (as : Nat)
  | page (p : Nat)
  deriving DecidableEq, Repr

structure AddrSpace where
  pgsize : Nat
  area : Area
  ptr : Nat

inductive PgCall where
  | pgalloc (page : Nat)
  | pgfree (page : Nat)
  deriving DecidableEq, Repr

/-- The tables in memory, the address spaces, the static `kpt`, and the calls of
`pgalloc` and `pgfree` so far. -/
structure State where
  pages : Nat → Option (Nat → Nat)
  spaces : Nat → Option AddrSpace
  kpt : Nat
  calls : List PgCall

/-- `panic` stops the machine; `stray` is an access to a table that is not there. -/
inductive Halt where
  | panic (text : String)
  | stray
  deriving DecidableEq, Repr

/-- The memory by tables; an address space is a table of one entry, its `ptr`. -/
def State.heap (σ : State) : Heap Base Nat Nat
  | .space as => (σ.spaces as).map fun a i => if i = 0 then a.ptr else 0
  | .page p => σ.pages p

def load (σ : State) (pt : Base) (index : Nat) : Except Halt Nat :=
  match σ.heap pt with
  | some t => .ok (t index)
  | none => .error .stray

def store (σ : State) (pt : Base) (index w : Nat) : Except Halt State :=
  match pt with
  | .space as =>
    match σ.spaces as with
    | some a =>
      if index = 0 then
        .ok { σ with spaces := Function.update σ.spaces as (some { a with ptr := w }) }
      else .error .stray
    | none => .error .stray
  | .page p =>
    match σ.pages p with
    | some t =>
      .ok { σ with pages := Function.update σ.pages p (some (Function.update t index w)) }
    | none => .error .stray

/-! ## The page allocator of the caller -/

def Arch.physical : Arch → Nat
  | x86_64 => 52
  | i386 => 32

/-- A page-aligned physical address other than `NULL`. -/
def IsPage (c : Arch) (p : Nat) : Prop := p ≠ 0 ∧ p % 4096 = 0 ∧ p < 2 ^ c.physical

instance (c : Arch) (p : Nat) : Decidable (IsPage c p) := inferInstanceAs (Decidable (_ ∧ _))

/-- A `pgalloc` that answers, after the calls so far, `NULL` or a page not otherwise in use. -/
structure Pgalloc (c : Arch) where
  answer : List PgCall → (Nat → Option (Nat → Nat)) → Option Nat
  fresh : ∀ {calls pages p}, answer calls pages = some p → IsPage c p ∧ pages p = none

section Functions

variable (c : Arch) (pgalloc : Pgalloc c)

def pgallocz (σ : State) : Except Halt (Nat × State) :=
  match pgalloc.answer σ.calls σ.pages with
  | none => .error (.panic "cannot allocate page")
  | some base => .ok (base,
      { σ with
        pages := Function.update σ.pages base (some fun _ => 0)
        calls := σ.calls ++ [.pgalloc base] })

def pgfree (σ : State) (pt : Base) : Except Halt State :=
  match pt with
  | .space _ => .error .stray
  | .page p =>
    match σ.pages p with
    | some _ =>
      .ok { σ with
        pages := Function.update σ.pages p none
        calls := σ.calls ++ [.pgfree p] }
    | none => .error .stray

def indexof (addr : Nat) (info : PtInfo) : Nat := (addr &&& info.mask) >>> info.shift

def baseof (addr : Nat) : Nat := rounddown c addr (mmu c).pgsize

/-- The loop of `ptwalk` from the table `pt` on: the last level returns the entry's place,
the others go to the next table, which is allocated where the entry is not present. -/
def ptwalkFrom (addr flags : Nat) :
    List PtInfo → Base → State → Except Halt ((Base × Nat) × State)
  | [], _, _ => .error (.panic "internal error (likely a bug in AM)")
  | [ptinfo], pt, σ => .ok ((pt, indexof addr ptinfo), σ)
  | ptinfo :: inner :: rest, pt, σ => do
    let index := indexof addr ptinfo
    let e ← load σ pt index
    if e &&& pteP = 0 then
      let (nextPage, σ) ← pgallocz c pgalloc σ
      let σ ← store σ pt index (nextPage ||| pteP ||| flags)
      ptwalkFrom addr flags (inner :: rest) (.page nextPage) σ
    else
      ptwalkFrom addr flags (inner :: rest) (.page (baseof c e)) σ

def ptwalk (as addr flags : Nat) (σ : State) : Except Halt ((Base × Nat) × State) :=
  ptwalkFrom c pgalloc addr flags (mmu c).pgtables (.space as) σ

/-- `teardown` at `level`, whose tables and those below have the given layouts. Below the
last level it returns at once. -/
def teardown : List PtInfo → Nat → Base → State → Except Halt State
  | [], _, _, σ => .ok σ
  | ptinfo :: rest, level, pt, σ => do
    let σ ← (List.range (2 ^ ptinfo.bits)).foldlM (fun σ index => do
      let e ← load σ pt index
      if e &&& pteP ≠ 0 ∧ e &&& pteU ≠ 0 then
        teardown rest (level + 1) (.page (baseof c e)) σ
      else .ok σ) σ
    if level ≥ 1 then pgfree σ pt else .ok σ

/-- The values of `cur` in `for (cur = start; cur != end; cur += step)`; the sum wraps
around. -/
def loopAddrs (step stop : Nat) : Nat → Nat → List Nat
  | 0, _ => []
  | fuel + 1, cur =>
    if cur = stop then [] else cur :: loopAddrs step stop fuel ((cur + step) % 2 ^ c.width)

def kernelAddrs (step : Nat) : List Nat :=
  ((vmAreas c).filter (·.kernel)).flatMap fun vma =>
    loopAddrs c step vma.area.stop (2 ^ c.width / step) vma.area.start

end Functions

/-! ## Start of the machine -/

def pml4Addr : Nat := 0x1000
def pdptAddr : Nat := 0x2000

/-- Memory when C code starts: `start64.S` has built the tables of the first 512 GiB out
of 1 GiB pages. -/
def start (c : Arch) : State where
  pages :=
    match c with
    | .x86_64 => fun p =>
      if p = pml4Addr then some fun i => if i = 0 then pdptAddr ||| pteP ||| pteW else 0
      else if p = pdptAddr then
        some fun i => if i < 512 then (i <<< 30) ||| (pteP ||| pteW ||| ptePS) else 0
      else none
    | .i386 => fun _ => none
  spaces _ := none
  kpt := 0
  calls := []

section Interface

variable (c : Arch) (pgalloc : Pgalloc c)

/-- The handle of the address space on the stack of `vmeInit`. -/
def bootSpace : Nat := 0

def vmeInit (cpu : Nat) (σ : State) : Except Halt State :=
  if cpu ≠ 0 then .error (.panic "init VME in non-bootstrap CPU")
  else if c = .x86_64 then .ok { σ with kpt := pml4Addr }
  else do
    let σ := { σ with
      spaces := Function.update σ.spaces bootSpace (some ⟨0, ⟨0, 0⟩, 0⟩) }
    let σ ← (kernelAddrs c (mmu c).pgsize).foldlM (fun σ cur => do
      let (ptentry, σ) ← ptwalk c pgalloc bootSpace cur pteW σ
      store σ ptentry.1 ptentry.2 (cur ||| pteP ||| pteW)) σ
    let ptr ← load σ (.space bootSpace) 0
    .ok { σ with
      kpt := baseof c ptr
      spaces := Function.update σ.spaces bootSpace none }

def level1 : PtInfo :=
  match (mmu c).pgtables with
  | _ :: info :: _ => info
  | _ => ⟨"", 0, 0, 0⟩

def protect (as : Nat) (σ : State) : Except Halt State := do
  let (upt, σ) ← pgallocz c pgalloc σ
  let σ ← (kernelAddrs c (2 ^ (level1 c).shift)).foldlM (fun σ cur => do
    let index := indexof cur (level1 c)
    let e ← load σ (.page σ.kpt) index
    store σ (.page upt) index e) σ
  .ok { σ with
    spaces := Function.update σ.spaces as
      (some ⟨(mmu c).pgsize, uvmArea c, upt ||| pteP ||| pteU⟩) }

def unprotect (as : Nat) (σ : State) : Except Halt State :=
  teardown c (mmu c).pgtables 0 (.space as) σ

def map (as va pa prot : Nat) (σ : State) : Except Halt State := do
  if ¬inRange va (uvmArea c) then .error (.panic "mapping an invalid address")
  else if va ≠ rounddown c va (mmu c).pgsize ∨ pa ≠ rounddown c pa (mmu c).pgsize then
    .error (.panic "non-page-boundary address")
  else
    let (ptentry, σ) ← ptwalk c pgalloc as va (pteW ||| pteU) σ
    let e ← load σ ptentry.1 ptentry.2
    let σ ←
      if prot = mmapNone then
        if e &&& pteP = 0 then .error (.panic "unmapping a non-mapped page")
        else store σ ptentry.1 ptentry.2 0
      else if e &&& pteP ≠ 0 then .error (.panic "remapping a mapped page")
      else
        store σ ptentry.1 ptentry.2
          (pa ||| pteP ||| pteU ||| (if prot &&& mmapWrite ≠ 0 then pteW else 0))
    let (_, σ) ← ptwalk c pgalloc as va (pteW ||| pteU) σ
    .ok σ

end Interface

/-! ## The page walk of the processor -/

/-- The address field of a table entry. -/
def frame (c : Arch) (e : Nat) : Nat := e &&& (2 ^ c.physical - 4096)

/-- The levels at which the processor takes an entry with `ptePS` for a large page. The
32-bit configuration leaves `CR4.PSE` clear. -/
def largePage : Arch → PtInfo → Bool
  | .x86_64, info => info.shift == 30 || info.shift == 21
  | .i386, _ => false

/-- What a walk ends with: the last entry read, the first byte and the size (as a power of
two) of the physical page, and the permissions that all entries on the way grant. -/
structure Leaf where
  entry : Nat
  page : Nat
  shift : Nat
  writable : Bool
  user : Bool
  deriving DecidableEq, Repr

/-- `wild` is a walk that leaves the tables in memory. -/
inductive Walk where
  | absent
  | wild
  | present (leaf : Leaf)
  deriving DecidableEq, Repr

def pageWalkFrom (c : Arch) (σ : State) (va : Nat) : List PtInfo → Nat → Bool → Bool → Walk
  | [], _, _, _ => .wild
  | info :: rest, base, writable, user =>
    match σ.pages base with
    | none => .wild
    | some t =>
      let e := t (indexof va info)
      let writable := writable && decide (e &&& pteW ≠ 0)
      let user := user && decide (e &&& pteU ≠ 0)
      if e &&& pteP = 0 then .absent
      else if rest = [] ∨ largePage c info = true ∧ e &&& ptePS ≠ 0 then
        .present ⟨e, (frame c e >>> info.shift) <<< info.shift, info.shift, writable, user⟩
      else pageWalkFrom c σ va rest (frame c e) writable user

def pageWalk (c : Arch) (σ : State) (cr3 va : Nat) : Walk :=
  pageWalkFrom c σ va (mmu c).pgtables.tail (frame c cr3) true true

end OSLabs.Vme
