import Mathlib.Algebra.Group.Nat.Defs
import Mathlib.Logic.Function.Basic
import OSLabs.Am

/-! # Address spaces of the native machine

The memory manager that runs on a host process: address spaces are lists of page
mappings with a hash table beside them, and switching replays a list on the host with
`mmap`. One processor is modelled. `pgalloc` belongs to the caller of `vme_init`; the hash
table is a map from keys to nodes, and a host call sets or clears one page.
-/

namespace OSLabs.Native

def userSpace : Area := ⟨0x40000000, 0xc0000000⟩

structure PageMap where
  va : Nat
  pa : Nat
  next : Option Nat
  prot : Nat
  isMapped : Bool
  key : List Char
  deriving DecidableEq, Repr

structure VMHead where
  head : Option Nat
  hash : List Char → Option Nat
  nrPage : Nat

structure AddrSpace where
  pgsize : Nat
  area : Area
  ptr : Nat
  deriving DecidableEq, Repr

/-- A page of the memory object that the host maps: its offset there and the host's
protection bits. -/
structure HostPage where
  offset : Nat
  prot : Nat
  deriving DecidableEq, Repr

/-- The list nodes and heads in memory by their addresses, the pages obtained so far, the
address spaces, `thiscpu->vm_head`, and the pages that the host maps. -/
structure Machine where
  nodes : Nat → Option PageMap
  heads : Nat → Option VMHead
  allocated : List Nat
  spaces : Nat → Option AddrSpace
  vmHead : Option Nat
  host : Nat → Option HostPage
  vmeEnable : Bool

/-- `stray` is an access through a null or dangling pointer; with `fuel` a loop is still
running. -/
inductive Stop where
  | assertion (text : String)
  | stray
  | fuel
  deriving DecidableEq, Repr

def assert (text : String) (p : Prop) [Decidable p] : Except Stop Unit :=
  if p then .ok () else .error (.assertion text)

/-- A `pgalloc` that answers, after the pages so far, `NULL` or another page. -/
structure Pgalloc where
  answer : List Nat → Option Nat
  fresh : ∀ {ps p}, answer ps = some p → p ∉ ps

/-! ## The host -/

def mmapRead : Nat := 1
def mmapWrite : Nat := 2
def protRead : Nat := 1
def protWrite : Nat := 2
def protExec : Nat := 4
def pmemStart : Nat := 0x1000000

/-- The host page for a physical page; readable pages are executable as well. -/
def pmemPage (pa prot : Nat) : HostPage where
  offset := (pa + (2 ^ 64 - pmemStart)) % 2 ^ 64
  prot := (if prot &&& mmapRead ≠ 0 then protRead ||| protExec else 0) |||
    (if prot &&& mmapWrite ≠ 0 then protWrite else 0)

def pmemMap (va pa prot : Nat) (m : Machine) : Machine :=
  { m with host := Function.update m.host va (some (pmemPage pa prot)) }

def pmemUnmap (va : Nat) (m : Machine) : Machine :=
  { m with host := Function.update m.host va none }

/-! ## Memory -/

def setNode (p : Nat) (e : PageMap) (m : Machine) : Machine :=
  { m with nodes := Function.update m.nodes p (some e) }

def setHead (h : Nat) (H : VMHead) (m : Machine) : Machine :=
  { m with heads := Function.update m.heads h (some H) }

def nodeAt (m : Machine) (p : Nat) : Except Stop PageMap :=
  match m.nodes p with
  | some e => .ok e
  | none => .error .stray

def headAt (m : Machine) (h : Nat) : Except Stop VMHead :=
  match m.heads h with
  | some H => .ok H
  | none => .error .stray

/-- What `snprintf` prints for `"%x"`: the low 32 bits in hexadecimal. -/
def hexKey (va : Nat) : List Char := Nat.toDigits 16 (va % 2 ^ 32)

/-! ## The interface -/

section Functions

variable (pgsize : Nat) (pgalloc : Pgalloc)

def protect (as : Nat) (m : Machine) : Except Stop Machine :=
  match pgalloc.answer m.allocated with
  | none => .error (.assertion "h != NULL")
  | some h => .ok
      { m with
        allocated := m.allocated ++ [h]
        heads := Function.update m.heads h (some ⟨none, fun _ => none, 0⟩)
        spaces := Function.update m.spaces as (some ⟨pgsize, userSpace, h⟩) }

def listForeach (body : Nat → Machine → Except Stop Machine) :
    Nat → Option Nat → Machine → Except Stop Machine
  | _, none, m => .ok m
  | 0, some _, _ => .error .fuel
  | fuel + 1, some p, m => do
    let m ← body p m
    let pp ← nodeAt m p
    listForeach body fuel pp.next m

def unmapNode (p : Nat) (m : Machine) : Except Stop Machine := do
  let pp ← nodeAt m p
  if pp.isMapped then .ok (setNode p { pp with isMapped := false } (pmemUnmap pp.va m))
  else .ok m

def mapNode (p : Nat) (m : Machine) : Except Stop Machine := do
  let pp ← nodeAt m p
  assert "IN_RANGE(pp->va, USER_SPACE)" (inRange pp.va userSpace)
  .ok (setNode p { pp with isMapped := true } (pmemMap pp.va pp.pa pp.prot m))

def foreachOf (body : Nat → Machine → Except Stop Machine) (fuel : Nat) (h : Option Nat)
    (m : Machine) : Except Stop Machine :=
  match h with
  | none => .ok m
  | some h => do
    let H ← headAt m h
    listForeach body fuel H.head m

def amSwitch (fuel : Nat) (head : Option Nat) (m : Machine) : Except Stop Machine :=
  if m.vmeEnable = false then .ok m
  else if head = m.vmHead then .ok { m with vmHead := head }
  else do
    let m ← foreachOf unmapNode fuel m.vmHead m
    let m ← foreachOf mapNode fuel head m
    .ok { m with vmHead := head }

/-- The node for `va` in the hash table of `h`, else a new one, which is entered there. -/
def findOrEnter (h va : Nat) (m : Machine) : Except Stop (Nat × Machine) := do
  let H ← headAt m h
  match H.hash (hexKey va) with
  | some p => .ok (p, m)
  | none =>
    match pgalloc.answer m.allocated with
    | none => .error .stray
    -- All of the new page but the key is written by `map`.
    | some p => .ok (p, setHead h
        { H with
          hash := Function.update H.hash (hexKey va) (some p)
          nrPage := H.nrPage + 1 }
        { m with
          allocated := m.allocated ++ [p]
          nodes := Function.update m.nodes p (some ⟨0, 0, none, 0, false, hexKey va⟩) })

def map (as va pa prot : Nat) (m : Machine) : Except Stop Machine := do
  assert "IN_RANGE(va, USER_SPACE)" (inRange va userSpace)
  assert "(uintptr_t)va % __am_pgsize == 0" (va % pgsize = 0)
  assert "(uintptr_t)pa % __am_pgsize == 0" (pa % pgsize = 0)
  match m.spaces as with
  | none => .error (.assertion "vm_head != NULL")
  | some a =>
    let (p, m) ← findOrEnter pgalloc a.ptr va m
    let pp ← nodeAt m p
    let H ← headAt m a.ptr
    let pp := { pp with va := va, pa := pa, prot := prot, isMapped := false, next := H.head }
    let m := setHead a.ptr { H with head := some p } (setNode p pp m)
    if m.vmHead = some a.ptr then
      .ok (setNode p { pp with isMapped := true } (pmemMap pp.va pp.pa pp.prot m))
    else .ok m

end Functions

end OSLabs.Native
