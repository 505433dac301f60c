import OSLabs.Gpu.Model
import OSLabs.Lib.Arena

/-! # Rendering canvases

`gpu_render` draws a tree of canvases in `vmem`. A subtree is drawn into a local buffer
taken from `vbuf` and then scaled into the buffer of its parent. The canvases are read from
the memory as the rendering has changed it so far. All accesses are recorded. A write outside
`vbuf` and the frame buffer stops the rendering, since C leaves undefined what follows.
-/

namespace OSLabs.Gpu

open Lib

def VMEM_SIZE : Nat := 524288

/-- Where the arrays of the device are in the address space, of 32 or of 64 bits. -/
structure Device where
  display : Display
  space : Nat
  vmem : Nat
  vbuf : Nat
  fb : Nat
  vmem_pos : 0 < vmem
  vmem_lt : vmem + VMEM_SIZE < space
  vbuf_lt : vbuf + VMEM_SIZE < space
  fb_lt : fb + 3 * (display.w.toNat * display.h.toNat) < space
  vmem_vbuf : vmem + VMEM_SIZE ≤ vbuf ∨ vbuf + VMEM_SIZE ≤ vmem
  vmem_fb : vmem + VMEM_SIZE ≤ fb ∨ fb + 3 * (display.w.toNat * display.h.toNat) ≤ vmem

namespace Device

variable (m : Device)

def vmemRegion : Region := ⟨m.vmem, VMEM_SIZE⟩

def vbufRegion : Region := ⟨m.vbuf, VMEM_SIZE⟩

def fbRegion : Region := ⟨m.fb, 3 * (m.display.w.toNat * m.display.h.toNat : Nat)⟩

def ptr (a : Int) : Int := a % m.space

end Device

/-! ## Canvases -/

abbrev Memory := Int → UInt8

def u16At (mem : Memory) (a : Int) : UInt16 := (mem a).toUInt16 ||| (mem (a + 1)).toUInt16 <<< 8

def u32At (mem : Memory) (a : Int) : UInt32 :=
  (u16At mem a).toUInt32 ||| (u16At mem (a + 2)).toUInt32 <<< 16

def AM_GPU_TEXTURE : UInt16 := 1

def AM_GPU_SUBTREE : UInt16 := 2

def AM_GPU_NULL : UInt32 := 0xffffffff

structure TextureDesc where
  w : UInt16
  h : UInt16
  pixels : UInt32
  deriving DecidableEq, Repr

/-- `struct gpu_canvas`. `child` and `texture` are the same bytes. -/
structure Canvas where
  type : UInt16
  w : UInt16
  h : UInt16
  x1 : UInt16
  y1 : UInt16
  w1 : UInt16
  h1 : UInt16
  sibling : UInt32
  child : UInt32
  texture : TextureDesc
  deriving DecidableEq, Repr

def canvasSize : Nat := 26

def canvasAt (mem : Memory) (a : Int) : Canvas where
  type := u16At mem a
  w := u16At mem (a + 2)
  h := u16At mem (a + 4)
  x1 := u16At mem (a + 6)
  y1 := u16At mem (a + 8)
  w1 := u16At mem (a + 10)
  h1 := u16At mem (a + 12)
  sibling := u32At mem (a + 14)
  child := u32At mem (a + 18)
  texture := { w := u16At mem (a + 18), h := u16At mem (a + 20), pixels := u32At mem (a + 22) }

/-- The null pointer is the address 0. -/
def toHost (m : Device) (p : UInt32) : Int :=
  if p = AM_GPU_NULL then 0 else m.ptr (m.vmem + p.toNat)

/-! ## Accesses -/

inductive Access where
  | canvas (a : Int)
  | zero (start size : Int)
  | copy (dst src : Int)
  deriving DecidableEq, Repr

def Access.reads : Access → List Region
  | .canvas a => [⟨a, canvasSize⟩]
  | .zero _ _ => []
  | .copy _ src => [⟨src, 3⟩]

def Access.writes : Access → List Region
  | .canvas _ => []
  | .zero start size => if 0 < size then [⟨start, size⟩] else []
  | .copy dst _ => [⟨dst, 3⟩]

def Access.perform (mem : Memory) : Access → Memory
  | .canvas _ => mem
  | .zero start size => fun a => if (Region.mk start size).Has a then 0 else mem a
  | .copy dst src => fun a => if (Region.mk dst 3).Has a then mem (src + (a - dst)) else mem a

/-- An access with the local buffer of the call that makes it, if it has one, and those of
all calls that have not returned. A local buffer has `w * h` pixels. -/
structure Event where
  access : Access
  own : Option Region
  live : List Region
  deriving DecidableEq, Repr

/-! ## Rendering -/

inductive Stop where
  | noMemory
  | invalidNode
  | overflow
  | outside
  | fuel
  deriving DecidableEq, Repr

structure Progress where
  mem : Memory
  /-- `vbuf_head` -/
  head : Int
  /-- The accesses so far. -/
  log : List Event

abbrev Rendering := EStateM Stop Progress

/-- What is written lies in `vbuf` or in the frame buffer. -/
def Access.Lands (m : Device) (c : Access) : Prop :=
  ∀ r ∈ c.writes, m.vbufRegion.Holds r ∨ m.fbRegion.Holds r

instance (m : Device) (c : Access) : Decidable (c.Lands m) :=
  inferInstanceAs (Decidable (∀ r ∈ c.writes, _))

def performAll (mem : Memory) (log : List Event) : Memory :=
  log.foldl (fun mem e => e.access.perform mem) mem

/-- The progress after some more accesses that leave `vbuf_head` at `next`. -/
def Progress.after (s : Progress) (log : List Event) (next : Int) : Progress where
  mem := performAll s.mem log
  head := next
  log := s.log ++ log

def access (m : Device) (own : Option Region) (live : List Region) (c : Access) :
    Rendering Unit := fun s =>
  let s := s.after [⟨c, own, live⟩] s.head
  if c.Lands m then .ok () s else .error .outside s

/-- A result of arithmetic on `int` operands that are not negative. C leaves it undefined
where it is too large. -/
def arith (n : Nat) : Option Nat := if n < 2147483648 then some n else none

def defined {α : Type} : Option α → Rendering α
  | some a => pure a
  | none => throw .overflow

def localBuffer (head : Int) (w h : Nat) : Region := ⟨head, 3 * (w * h : Nat)⟩

/-- `vbuf_alloc` for a local buffer of `w * h` pixels. The new head is compared as an address,
after it has moved. -/
def vbufAlloc (m : Device) (w h : Nat) (live : List Region) (size : Int) : Rendering Int := do
  let ret := (← get).head
  modify fun s => { s with head := m.ptr (ret + size) }
  if (m.vbuf : Int) + VMEM_SIZE < m.ptr (ret + size) then throw .noMemory
  else do
    access m (some (localBuffer ret w h)) (localBuffer ret w h :: live) (.zero ret size)
    return ret

/-- The argument of `vbuf_alloc`, converted from `size_t` to `int`. -/
def localSize (w h : Nat) : Option Int := (arith (w * h)).map fun (n : Nat) => int (n * 3)

def copyPixel (m : Device) (cv : Canvas) (W : Nat) (px : Int) (w h : Nat) (pxLocal : Int)
    (ij : Nat × Nat) : Option Access := do
  let x ← arith (cv.x1.toNat + ij.1)
  let y ← arith (cv.y1.toNat + ij.2)
  let down ← arith (W * y)
  let dst ← arith (down + x)
  let scaled ← arith (ij.2 * h)
  let row ← arith (w * (scaled / cv.h1.toNat))
  let across ← arith (ij.1 * w)
  let src ← arith (row + across / cv.w1.toNat)
  return .copy (m.ptr (px + 3 * dst)) (m.ptr (pxLocal + 3 * src))

def drawLocal (m : Device) (cv : Canvas) (W : Nat) (px : Int) (w h : Nat) (pxLocal : Int)
    (own : Option Region) (live : List Region) : Rendering Unit :=
  ((List.range cv.w1.toNat).product (List.range cv.h1.toNat)).forM fun ij => do
    let c ← defined (copyPixel m cv W px w h pxLocal ij)
    access m own live c

def forChildren (m : Device) (call : Int → Rendering Unit) : Nat → Int → Rendering Unit
  | 0, _ => throw .fuel
  | fuel + 1, ch =>
    if ch = 0 then pure ()
    else do
      call ch
      forChildren m call fuel (toHost m (canvasAt (← get).mem ch).sibling)

/-- `render(cv, parent, px)`, where `W` is `parent->w`. -/
def render (m : Device) : Nat → Int → Nat → Int → List Region → Rendering Unit
  | 0, _, _, _, _ => throw .fuel
  | fuel + 1, a, W, px, live => do
    access m none live (.canvas a)
    let cv := canvasAt (← get).mem a
    if cv.type = AM_GPU_TEXTURE then
      let w := cv.texture.w.toNat
      let h := cv.texture.h.toNat
      drawLocal m cv W px w h (toHost m cv.texture.pixels) none live
    else if cv.type = AM_GPU_SUBTREE then
      let w := cv.w.toNat
      let h := cv.h.toNat
      let size ← defined (localSize w h)
      let pxLocal ← vbufAlloc m w h live size
      let own := localBuffer pxLocal w h
      forChildren m (fun ch => render m fuel ch w pxLocal (own :: live)) fuel
        (toHost m (canvasAt (← get).mem a).child)
      drawLocal m (canvasAt (← get).mem a) W px w h pxLocal (some own) (own :: live)
    else throw .invalidNode

def gpuRender (m : Device) (mem : Memory) (fuel : Nat) (root : UInt32) :
    EStateM.Result Stop Progress Unit :=
  render m fuel (toHost m root) m.display.w.toNat m.fb [] ⟨mem, m.vbuf, []⟩

end OSLabs.Gpu
