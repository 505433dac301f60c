import OSLabs.Am
import OSLabs.Lib.Stores

/-! # The frame buffer of the x86 machine

The drawing device of the emulated machine, and the kernel's routines that draw through
it. The routines never read the frame buffer, so each one is given by the stores it
makes, with the index into `fb` of each.
-/

namespace OSLabs.Gpu

/-- The mode that `gpu_init` reads into `display`. -/
structure Display where
  w : UInt16
  h : UInt16
  deriving DecidableEq, Repr

def Display.W (d : Display) : Int := d.w.toNat

def Display.H (d : Display) : Int := d.h.toNat

structure Pixel where
  b : UInt8
  g : UInt8
  r : UInt8
  deriving DecidableEq, Repr

/-! ## Colours -/

def R (p : UInt32) : UInt8 := (p >>> 16).toUInt8

def G (p : UInt32) : UInt8 := (p >>> 8).toUInt8

def B (p : UInt32) : UInt8 := p.toUInt8

def toPixel (p : UInt32) : Pixel := { r := R p, g := G p, b := B p }

/-! ## The device -/

structure FbDraw where
  x : Int
  y : Int
  pixels : List UInt32
  w : Int
  h : Int

/-- The fields of `AM_GPU_CONFIG_T` that `gpu_config` takes from the mode. -/
structure GpuConfig where
  width : Int
  height : Int
  deriving DecidableEq, Repr

def gpuConfig (d : Display) : GpuConfig := { width := d.W, height := d.H }

/-- The index of `px` when row `j` of a drawing is started. -/
def rowStart (d : Display) (draw : FbDraw) (j : Nat) : Int :=
  int (draw.x + int (int (j + draw.y) * d.W))

def drawLen (d : Display) (draw : FbDraw) : Int :=
  if d.W ≤ int (draw.x + draw.w) then int (d.W - draw.x) else draw.w

/-- `pixels[i]` in row `j`, where `pixels` has been advanced by `w` for every earlier row. -/
def pixelAt (draw : FbDraw) (j i : Nat) : UInt32 :=
  draw.pixels.getD (j * draw.w + i).toNat 0

def drawRow (d : Display) (draw : FbDraw) (j : Nat) : List (Int × Pixel) :=
  if int (draw.y + j) < d.H then
    (List.range (drawLen d draw).toNat).map fun (i : Nat) =>
      (rowStart d draw j + i, toPixel (pixelAt draw j i))
  else []

def gpuFbdraw (d : Display) (draw : FbDraw) : List (Int × Pixel) :=
  (List.range draw.h.toNat).flatMap (drawRow d draw)

/-! ## The kernel -/

/-- One tile of a colour, drawn by `ioe_write(AM_GPU_FBDRAW)`, which is `gpu_fbdraw` in
the table of handlers. -/
def drawTile (d : Display) (x y w h : Int) (color : UInt32) : List (Int × Pixel) :=
  gpuFbdraw d { x, y, pixels := List.replicate (w * h).toNat color, w, h }

def SIDE : Nat := 16

/-- The values of a counter for which `counter * SIDE <= n`. -/
def tileSteps (n : Int) : List Nat := List.range (n.toNat / SIDE + 1)

def splash (d : Display) : List (Int × Pixel) :=
  let info := gpuConfig d
  (tileSteps info.width).flatMap fun x =>
    (tileSteps info.height).flatMap fun y =>
      if (x &&& 1) ^^^ (y &&& 1) ≠ 0 then
        drawTile d (x * SIDE : Nat) (y * SIDE : Nat) SIDE SIDE 0xffffff
      else []

/-- The colour word of the picture's pixel in row `i` and column `j`. -/
def szyColor (image : Nat → UInt8) (i j : Nat) : UInt32 :=
  let r := image ((i * 800 + j) * 3)
  let g := image ((i * 800 + j) * 3 + 1)
  let b := image ((i * 800 + j) * 3 + 2)
  (r.toUInt32 <<< 16) ||| (g.toUInt32 <<< 8) ||| b.toUInt32

def drawSzy (d : Display) (image : Nat → UInt8) : List (Int × Pixel) :=
  (List.range 600).flatMap fun (i : Nat) =>
    (List.range 800).flatMap fun (j : Nat) => drawTile d j i 1 1 (szyColor image i j)

end OSLabs.Gpu
