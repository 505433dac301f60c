import OSLabs.Gpu.Fbdraw

/-! # The kernel's two pictures

`draw_szy` puts a picture of 800 by 600 pixels on a screen of any size, and `splash` a
checkerboard of tiles of which some lie on or beyond the edges of the screen.
-/

namespace OSLabs.Gpu

open Lib (storeAll storeAll_eq storeAll_unchanged)

/-! ## Colours of the picture -/

theorem R_pack (r g b : UInt8) :
    R ((r.toUInt32 <<< 16) ||| (g.toUInt32 <<< 8) ||| b.toUInt32) = r := by
  unfold R
  apply UInt8.toBitVec_inj.1
  ext i hi
  have hg : g.toBitVec.getLsbD (16 + i - 8) = false := BitVec.getLsbD_of_ge _ _ (by omega)
  have hb : b.toBitVec.getLsbD (16 + i) = false := BitVec.getLsbD_of_ge _ _ (by omega)
  have hword : 16 + i < 32 := by omega
  have hhalf : i < 32 := by omega
  simp [hg, hb, hword, hhalf, BitVec.getLsbD_eq_getElem, hi]

theorem G_pack (r g b : UInt8) :
    G ((r.toUInt32 <<< 16) ||| (g.toUInt32 <<< 8) ||| b.toUInt32) = g := by
  unfold G
  apply UInt8.toBitVec_inj.1
  ext i hi
  have hred : 8 + i < 16 := by omega
  have hword : 8 + i < 32 := by omega
  have hhalf : i < 32 := by omega
  simp [hred, hword, hhalf, BitVec.getLsbD_eq_getElem, hi]

theorem B_pack (r g b : UInt8) :
    B ((r.toUInt32 <<< 16) ||| (g.toUInt32 <<< 8) ||| b.toUInt32) = b := by
  unfold B
  apply UInt8.toBitVec_inj.1
  ext i hi
  simp

def imagePixel (image : Nat → UInt8) (x y : Nat) : Pixel where
  r := image (3 * (800 * y + x))
  g := image (3 * (800 * y + x) + 1)
  b := image (3 * (800 * y + x) + 2)

theorem toPixel_szyColor (image : Nat → UInt8) (i j : Nat) :
    toPixel (szyColor image i j) = imagePixel image j i := by
  have hoffset : (i * 800 + j) * 3 = 3 * (800 * i + j) := by omega
  unfold toPixel szyColor imagePixel
  simp only [R_pack, G_pack, B_pack, hoffset]

/-! ## The picture on the screen -/

theorem mem_drawSzy {d : Display} {image : Nat → UInt8} {s : Int × Pixel} :
    s ∈ drawSzy d image ↔
      ∃ x y : Nat, (x < 800 ∧ x < d.w.toNat) ∧ (y < 600 ∧ y < d.h.toNat) ∧
        s = (pixelIndex d x y, imagePixel image x y) := by
  -- No index of the picture leaves `int`: it has at most 600 rows.
  have hstart (x y : Nat) (hx : x < 800) (hy : y < 600) :
      tileStart d x y = pixelIndex d x y := by
    have hW := d.w_lt
    have hrow : y * d.w.toNat ≤ 600 * 65536 := Nat.mul_le_mul (by omega) (by omega)
    have hcast : (y : Int) * d.W = (y * d.w.toNat : Nat) := (Int.natCast_mul _ _).symm
    have hfit : (x : Int) + y * d.W < 2147483648 := by omega
    rw [tileStart_eq hfit, pixelIndex]
  unfold drawSzy
  simp only [List.mem_flatMap, List.mem_range]
  constructor
  · rintro ⟨i, hi, j, hj, hs⟩
    rcases (mem_drawTile (w := 1) (h := 1) (by omega) (by omega)).1 hs with ⟨a, b, ha, hb, rfl⟩
    have hcol : a = j := by omega
    have hline : b = i := by omega
    subst hcol hline
    refine ⟨a, b, ⟨hj, ha.2.2⟩, ⟨hi, hb.2.2⟩, ?_⟩
    rw [hstart a b hj hi, toPixel_szyColor, Nat.sub_self, Int.natCast_zero, Int.add_zero]
  · rintro ⟨x, y, hx, hy, rfl⟩
    refine ⟨y, hy.1, x, hx.1, (mem_drawTile (w := 1) (h := 1) (by omega) (by omega)).2 ?_⟩
    refine ⟨x, y, by omega, by omega, ?_⟩
    rw [hstart x y hx.1 hy.1, toPixel_szyColor, Nat.sub_self, Int.natCast_zero, Int.add_zero]

/-- The picture is on the screen afterwards, as far as the screen shows it, and nothing
else of the frame buffer is changed or written. -/
theorem drawSzy_shows_picture (d : Display) (image : Nat → UInt8) (fb : Int → Pixel) :
    (∀ x y : Nat, x < min d.w.toNat 800 → y < min d.h.toNat 600 →
      storeAll fb (drawSzy d image) (pixelIndex d x y) = imagePixel image x y) ∧
    (∀ k : Int, (∀ x y : Nat, x < min d.w.toNat 800 → y < min d.h.toNat 600 →
        k ≠ pixelIndex d x y) →
      storeAll fb (drawSzy d image) k = fb k) ∧
    ∀ s ∈ drawSzy d image, 0 ≤ s.1 ∧ s.1 < d.W * d.H := by
  refine ⟨?_, ?_, ?_⟩
  · intro x y hx hy
    apply storeAll_eq
    · exact ⟨_, mem_drawSzy.2 ⟨x, y, by omega, by omega, rfl⟩, rfl⟩
    · intro s hs hindex
      rcases mem_drawSzy.1 hs with ⟨x', y', hx', hy', rfl⟩
      rcases pixelIndex_inj hx'.2 (by omega) hindex with ⟨rfl, rfl⟩
      rfl
  · intro k hk
    apply storeAll_unchanged
    intro s hs hindex
    rcases mem_drawSzy.1 hs with ⟨x, y, hx, hy, rfl⟩
    exact hk x y (by omega) (by omega) hindex.symm
  · intro s hs
    rcases mem_drawSzy.1 hs with ⟨x, y, hx, hy, rfl⟩
    exact pixelIndex_bounds hx.2 hy.2

/-! ## The checkerboard -/

def White (a b : Nat) : Prop := (a / 16 + b / 16) % 2 = 1

instance (a b : Nat) : Decidable (White a b) := inferInstanceAs (Decidable (_ = _))

def white : Pixel := toPixel 0xffffff

theorem mem_tileSteps {n x : Nat} : x ∈ tileSteps n ↔ x * 16 ≤ n := by
  unfold tileSteps SIDE
  rw [List.mem_range, Int.toNat_natCast]
  omega

theorem parity_xor (x y : Nat) : (x &&& 1) ^^^ (y &&& 1) ≠ 0 ↔ (x + y) % 2 = 1 := by
  rw [Nat.and_one_is_mod, Nat.and_one_is_mod, Nat.add_mod]
  rcases Nat.mod_two_eq_zero_or_one x with hx | hx
  · rcases Nat.mod_two_eq_zero_or_one y with hy | hy
    · simp [hx, hy]
    · simp [hx, hy]
  · rcases Nat.mod_two_eq_zero_or_one y with hy | hy
    · simp [hx, hy]
    · simp [hx, hy]

/-- Each white pixel is stored once, from the tile that covers it. -/
theorem mem_splash {d : Display} {s : Int × Pixel} :
    s ∈ splash d ↔
      ∃ a b : Nat, a < d.w.toNat ∧ b < d.h.toNat ∧ White a b ∧
        s = (tileStart d (a / 16 * 16) b + (a % 16 : Nat), white) := by
  have hW := d.w_lt
  have hH := d.h_lt
  unfold splash gpuConfig
  simp only [List.mem_flatMap, Display.W, Display.H, mem_tileSteps]
  constructor
  · rintro ⟨x, hx, y, hy, hs⟩
    by_cases hparity : (x &&& 1) ^^^ (y &&& 1) ≠ 0
    · rw [if_pos hparity] at hs
      rcases (mem_drawTile (w := 16) (h := 16) (by unfold SIDE; omega)
        (by unfold SIDE; omega)).1 hs with ⟨a, b, ha, hb, rfl⟩
      unfold SIDE at ha hb
      have htile : a / 16 = x := by omega
      have hline : b / 16 = y := by omega
      rw [parity_xor] at hparity
      refine ⟨a, b, ha.2.2, hb.2.2, by unfold White; omega, ?_⟩
      have hoffset : a - x * 16 = a % 16 := by omega
      rw [htile, SIDE, hoffset, white]
    · rw [if_neg hparity] at hs
      cases hs
  · rintro ⟨a, b, ha, hb, hwhite, rfl⟩
    refine ⟨a / 16, by omega, b / 16, by omega, ?_⟩
    rw [if_pos ((parity_xor _ _).2 hwhite)]
    refine (mem_drawTile (w := 16) (h := 16) (by unfold SIDE; omega)
      (by unfold SIDE; omega)).2 ⟨a, b, ?_, ?_, ?_⟩
    · unfold SIDE
      omega
    · unfold SIDE
      omega
    · have hoffset : a - a / 16 * 16 = a % 16 := by omega
      rw [SIDE, hoffset, white]

/-- The checkerboard is painted exactly, and only inside the frame buffer. -/
def Checkerboard (d : Display) : Prop :=
  ∀ fb : Int → Pixel,
    (∀ a b : Nat, a < d.w.toNat → b < d.h.toNat →
      storeAll fb (splash d) (pixelIndex d a b) =
        if White a b then white else fb (pixelIndex d a b)) ∧
    ∀ s ∈ splash d, 0 ≤ s.1 ∧ s.1 < d.W * d.H

/-- The index at which each painted row of a tile is started is an `int`. -/
def RowsFit (d : Display) : Prop :=
  ∀ a b : Nat, a < d.w.toNat → b < d.h.toNat → White a b →
    (a / 16 * 16 : Nat) + b * d.W < 2147483648

theorem mem_splash_of_rowsFit {d : Display} (hfit : RowsFit d) {s : Int × Pixel} :
    s ∈ splash d ↔
      ∃ a b : Nat, a < d.w.toNat ∧ b < d.h.toNat ∧ White a b ∧
        s = (pixelIndex d a b, white) := by
  have hindex (a b : Nat) (ha : a < d.w.toNat) (hb : b < d.h.toNat) (hwhite : White a b) :
      tileStart d (a / 16 * 16) b + (a % 16 : Nat) = pixelIndex d a b := by
    rw [tileStart_eq (hfit a b ha hb hwhite), pixelIndex]
    omega
  rw [mem_splash]
  constructor
  · rintro ⟨a, b, ha, hb, hwhite, rfl⟩
    exact ⟨a, b, ha, hb, hwhite, by rw [hindex a b ha hb hwhite]⟩
  · rintro ⟨a, b, ha, hb, hwhite, rfl⟩
    exact ⟨a, b, ha, hb, hwhite, by rw [hindex a b ha hb hwhite]⟩

theorem checkerboard_of_rowsFit {d : Display} (hfit : RowsFit d) : Checkerboard d := by
  intro fb
  constructor
  · intro a b ha hb
    by_cases hwhite : White a b
    · rw [if_pos hwhite]
      apply storeAll_eq
      · exact ⟨_, (mem_splash_of_rowsFit hfit).2 ⟨a, b, ha, hb, hwhite, rfl⟩, rfl⟩
      · intro s hs _
        rcases (mem_splash_of_rowsFit hfit).1 hs with ⟨a', b', _, _, _, rfl⟩
        rfl
    · rw [if_neg hwhite]
      apply storeAll_unchanged
      intro s hs hindex
      rcases (mem_splash_of_rowsFit hfit).1 hs with ⟨a', b', ha', _, hwhite', rfl⟩
      rcases pixelIndex_inj ha' ha hindex with ⟨rfl, rfl⟩
      exact hwhite hwhite'
  · intro s hs
    rcases (mem_splash_of_rowsFit hfit).1 hs with ⟨a, b, ha, hb, -, rfl⟩
    exact pixelIndex_bounds ha hb

/-- A row that starts beyond `int` is painted in front of the frame buffer. -/
theorem splash_before_buffer {d : Display} {a b : Nat} (ha : a < d.w.toNat)
    (hb : b < d.h.toNat) (hwhite : White a b)
    (hbig : 2147483648 ≤ ((a / 16 * 16 : Nat) : Int) + b * d.W) :
    ∃ s ∈ splash d, s.1 < 0 := by
  have harea : d.W * d.H ≤ 65535 * 65535 := by
    have hW := d.w_lt
    have hH := d.h_lt
    have hnat : d.w.toNat * d.h.toNat ≤ 65535 * 65535 := Nat.mul_le_mul (by omega) (by omega)
    have hcast : d.W * d.H = (d.w.toNat * d.h.toNat : Nat) := (Int.natCast_mul _ _).symm
    omega
  have hpixel := (pixelIndex_bounds ha hb).2
  unfold pixelIndex at hpixel
  have hstart : tileStart d (a / 16 * 16) b =
      ((a / 16 * 16 : Nat) : Int) + b * d.W - 4294967296 := by
    unfold tileStart
    rw [← int_wrapped hbig (by omega)]
    unfold int
    rw [Int.add_bmod_bmod]
  refine ⟨_, mem_splash.2 ⟨a, b, ha, hb, hwhite, rfl⟩, ?_⟩
  rw [hstart]
  omega

/-- The checkerboard is exact on the screens whose painted rows start within `int`, which
all screens of at most `2 ^ 31` pixels do. -/
theorem splash_checkerboard_iff (d : Display) :
    (Checkerboard d ↔ RowsFit d) ∧ (d.W * d.H ≤ 2147483648 → Checkerboard d) := by
  have hiff : Checkerboard d ↔ RowsFit d := by
    constructor
    · intro hboard a b ha hb hwhite
      by_contra hbig
      rcases splash_before_buffer ha hb hwhite (by omega) with ⟨s, hs, hneg⟩
      have hinside := ((hboard fun _ => white).2 s hs).1
      omega
    · exact checkerboard_of_rowsFit
  refine ⟨hiff, ?_⟩
  intro harea
  apply hiff.2
  intro a b ha hb _
  have hpixel := (pixelIndex_bounds ha hb).2
  unfold pixelIndex at hpixel
  omega

theorem splash_overflows : ¬ Checkerboard ⟨65535, 65535⟩ := by
  intro hboard
  have hlast : ∃ s ∈ splash ⟨65535, 65535⟩, s.1 < 0 :=
    splash_before_buffer (a := 65519) (b := 65534) (by decide) (by decide) (by decide)
      (by decide)
  rcases hlast with ⟨s, hs, hneg⟩
  have hinside := ((hboard fun _ => white).2 s hs).1
  omega

end OSLabs.Gpu
