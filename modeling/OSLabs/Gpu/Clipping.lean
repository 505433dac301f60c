import OSLabs.Gpu.Fbdraw

/-! # Where a drawing is clipped

`gpu_fbdraw` clips a rectangle at the right and at the bottom of the screen only. What
lies left of the screen goes into the row above, what lies above it in front of the frame
buffer. The drawing is the clipped rectangle exactly if nothing is drawn at all or the
rectangle starts on the screen and the rows that are drawn start within `int`.
-/

namespace OSLabs.Gpu

open Lib

variable {d : Display} {x y w h : Int}

def Inside (x y w h : Int) (a b : Nat) : Prop := (x ≤ a ∧ a < x + w) ∧ y ≤ b ∧ b < y + h

instance (x y w h : Int) (a b : Nat) : Decidable (Inside x y w h a b) :=
  inferInstanceAs (Decidable (_ ∧ _))

/-- The pixels of the rectangle that are on the screen are set, all others are unchanged
and nothing is stored outside the frame buffer. -/
structure DrawsRect (d : Display) (x y w h : Int) (pixels : List UInt32) (fb : Int → Pixel) :
    Prop where
  inside : ∀ a b : Nat, a < d.w.toNat → b < d.h.toNat → Inside x y w h a b →
    storeAll fb (gpuFbdraw d { x, y, pixels, w, h }) (pixelIndex d a b) =
      toPixel (pixels.getD ((b - y) * w + (a - x)).toNat 0)
  outside : ∀ a b : Nat, a < d.w.toNat → b < d.h.toNat → ¬ Inside x y w h a b →
    storeAll fb (gpuFbdraw d { x, y, pixels, w, h }) (pixelIndex d a b) = fb (pixelIndex d a b)
  bounds : ∀ s ∈ gpuFbdraw d { x, y, pixels, w, h }, 0 ≤ s.1 ∧ s.1 < d.W * d.H

/-- The drawing of a rectangle is right for every pixel array and every frame buffer. -/
def DrawsClipped (d : Display) (x y w h : Int) : Prop :=
  ∀ (pixels : List UInt32) (fb : Int → Pixel), pixels.length = (w * h).toNat →
    DrawsRect d x y w h pixels fb

/-! ## Stores at the pixels of the screen -/

/-- A drawing that stores each pixel of the rectangle that is on the screen in its place,
and nothing else, is right. -/
theorem DrawsRect.of_mem {pixels : List UInt32}
    (hmem : ∀ s : Int × Pixel, s ∈ gpuFbdraw d { x, y, pixels, w, h } ↔
      ∃ a b : Nat, a < d.w.toNat ∧ b < d.h.toNat ∧ Inside x y w h a b ∧
        s = (pixelIndex d a b, toPixel (pixels.getD ((b - y) * w + (a - x)).toNat 0)))
    (fb : Int → Pixel) : DrawsRect d x y w h pixels fb := by
  refine ⟨?_, ?_, ?_⟩
  · intro a b ha hb hin
    refine storeAll_eq ⟨_, (hmem _).2 ⟨a, b, ha, hb, hin, rfl⟩, rfl⟩ ?_
    intro s hs hsa
    rcases (hmem s).1 hs with ⟨a', b', ha', _, _, rfl⟩
    rcases pixelIndex_inj ha' ha hsa with ⟨rfl, rfl⟩
    rfl
  · intro a b ha hb hout
    refine storeAll_unchanged fun s hs hsa => hout ?_
    rcases (hmem s).1 hs with ⟨a', b', ha', _, hin, rfl⟩
    rcases pixelIndex_inj ha' ha hsa with ⟨rfl, rfl⟩
    exact hin
  · intro s hs
    rcases (hmem s).1 hs with ⟨a, b, ha, hb, _, rfl⟩
    exact pixelIndex_bounds ha hb

theorem exists_pixelIndex {k : Int} (hk : 0 ≤ k) (hlt : k < d.W * d.H) :
    ∃ a b : Nat, a < d.w.toNat ∧ b < d.h.toNat ∧ k = pixelIndex d a b := by
  obtain ⟨n, rfl⟩ : ∃ n : Nat, k = n := ⟨k.toNat, (Int.toNat_of_nonneg hk).symm⟩
  have hn : n < d.w.toNat * d.h.toNat := by
    unfold Display.W Display.H at hlt
    exact_mod_cast hlt
  have hW : 0 < d.w.toNat := Nat.pos_of_ne_zero fun hzero => by simp [hzero] at hn
  refine ⟨n % d.w.toNat, n / d.w.toNat, Nat.mod_lt _ hW, Nat.div_lt_of_lt_mul hn, ?_⟩
  have hsplit : n = n % d.w.toNat + n / d.w.toNat * d.w.toNat := by
    rw [Nat.mul_comm]
    exact (Nat.mod_add_div n d.w.toNat).symm
  unfold pixelIndex Display.W
  exact_mod_cast hsplit

theorem rowStart_eq (d : Display) (draw : FbDraw) (j : Nat) :
    rowStart d draw j = int (draw.x + (draw.y + j) * d.W) := by
  unfold rowStart int
  rw [Int.add_bmod_bmod, ← Int.add_bmod_bmod, Int.bmod_mul_bmod, Int.add_bmod_bmod,
    Int.add_comm (j : Int)]

section Int

variable (hx : -2147483648 ≤ x) (hy : -2147483648 ≤ y) (hw : 0 ≤ w) (hw' : w < 2147483648)
  (hright : x + w < 2147483648) (hbottom : y + h < 2147483648)

include hx hy hw hw' hright hbottom

/-- The stores of a drawing, with the index of each row as it is computed. -/
theorem mem_gpuFbdraw_iff {pixels : List UInt32} {s : Int × Pixel} :
    s ∈ gpuFbdraw d { x, y, pixels, w, h } ↔
      ∃ j i : Nat, ((j : Int) < h ∧ y + j < d.H) ∧ ((i : Int) < w ∧ x + i < d.W) ∧
        s = (int (x + (y + j) * d.W) + i, toPixel (pixels.getD (j * w + i).toNat 0)) := by
  rw [mem_gpuFbdraw]
  constructor
  · rintro ⟨j, hj, hrow, i, hi, rfl⟩
    have hjh : (j : Int) < h := Int.lt_toNat.1 hj
    have hrow' : int (y + j) < d.H := hrow
    rw [lt_drawLen hx hw hw' hright] at hi
    rw [int_eq (by omega) (by omega)] at hrow'
    exact ⟨j, i, ⟨hjh, hrow'⟩, hi, by rw [rowStart_eq]; rfl⟩
  · rintro ⟨j, i, ⟨hj, hrow⟩, hi, rfl⟩
    have hrow' : int (y + j) < d.H := by
      rw [int_eq (by omega) (by omega)]
      exact hrow
    refine ⟨j, Int.lt_toNat.2 hj, hrow', i, ?_, by rw [rowStart_eq]; rfl⟩
    rw [lt_drawLen hx hw hw' hright]
    exact hi

/-! ## Drawings that are right -/

theorem drawsClipped_of_empty (hempty : w = 0 ∨ h = 0 ∨ d.W ≤ x ∨ d.H ≤ y) :
    DrawsClipped d x y w h := by
  intro pixels fb _
  refine .of_mem (fun s => ?_) fb
  rw [mem_gpuFbdraw_iff hx hy hw hw' hright hbottom]
  constructor
  · rintro ⟨j, i, hj, hi, _⟩
    omega
  · rintro ⟨a, b, ha, hb, ⟨⟨_, _⟩, _, _⟩, _⟩
    unfold Display.W Display.H at hempty
    omega

theorem drawsClipped_of_corner (hx0 : 0 ≤ x) (hy0 : 0 ≤ y)
    (hlast : x + (min (y + h) d.H - 1) * d.W < 2147483648) : DrawsClipped d x y w h := by
  have hW : 0 ≤ d.W := by unfold Display.W; omega
  have hindex : ∀ b : Int, y ≤ b → b < y + h → b < d.H → int (x + b * d.W) = x + b * d.W := by
    intro b hyb hbh hbH
    have hle : b * d.W ≤ (min (y + h) d.H - 1) * d.W :=
      Int.mul_le_mul_of_nonneg_right (by omega) hW
    have hnonneg : 0 ≤ b * d.W := Int.mul_nonneg (by omega) hW
    exact int_eq (by omega) (by omega)
  intro pixels fb _
  refine .of_mem (fun s => ?_) fb
  rw [mem_gpuFbdraw_iff hx hy hw hw' hright hbottom]
  constructor
  · rintro ⟨j, i, ⟨hj, hrow⟩, ⟨hi, hcol⟩, rfl⟩
    rw [hindex _ (by omega) (by omega) hrow]
    unfold Display.W at hcol
    unfold Display.H at hrow
    refine ⟨(x + i).toNat, (y + j).toNat, by omega, by omega, ⟨⟨by omega, by omega⟩, by omega,
      by omega⟩, ?_⟩
    have ha : (((x + i).toNat : Nat) : Int) = x + i := Int.toNat_of_nonneg (by omega)
    have hb : (((y + j).toNat : Nat) : Int) = y + j := Int.toNat_of_nonneg (by omega)
    have hcancel : x + i - x = i ∧ y + j - y = j := by omega
    unfold pixelIndex
    rw [ha, hb, hcancel.1, hcancel.2, Int.add_right_comm]
  · rintro ⟨a, b, ha, hb, ⟨⟨hxa, haw⟩, hyb, hbh⟩, rfl⟩
    have hj : (((b - y).toNat : Nat) : Int) = b - y := Int.toNat_of_nonneg (by omega)
    have hi : (((a - x).toNat : Nat) : Int) = a - x := Int.toNat_of_nonneg (by omega)
    refine ⟨(b - y).toNat, (a - x).toNat, ⟨by omega, ?_⟩, ⟨by omega, ?_⟩, ?_⟩
    · unfold Display.H
      omega
    · unfold Display.W
      omega
    · have hcancel : y + (b - y) = (b : Int) := by omega
      rw [hj, hi, hcancel, hindex b hyb hbh (by unfold Display.H; omega)]
      have hpixel : pixelIndex d a b = x + b * d.W + (a - x) := by
        unfold pixelIndex
        omega
      rw [hpixel]

/-! ## Drawings that are wrong -/

/-- Black pixels on a white frame buffer show where the stores of a right drawing go. -/
theorem DrawsClipped.store_inside (draws : DrawsClipped d x y w h) {j i : Nat} (hj : (j : Int) < h)
    (hrow : y + j < d.H) (hi : (i : Int) < w) (hcol : x + i < d.W) :
    ∃ a b : Nat, a < d.w.toNat ∧ b < d.h.toNat ∧ Inside x y w h a b ∧
      int (x + (y + j) * d.W) + i = pixelIndex d a b := by
  obtain ⟨pixels, hpixels⟩ : ∃ pixels : List UInt32, pixels = List.replicate (w * h).toNat 0 :=
    ⟨_, rfl⟩
  have hblack : ∀ k, pixels.getD k 0 = 0 := by
    intro k
    rw [hpixels, List.getD_eq_getElem?_getD, List.getElem?_replicate]
    split
    · rfl
    · rfl
  have hdraw := draws pixels (fun _ => ⟨255, 255, 255⟩) (by rw [hpixels, List.length_replicate])
  have hmem := @mem_gpuFbdraw_iff d x y w h hx hy hw hw' hright hbottom pixels
  have hstore := hmem.2 ⟨j, i, ⟨hj, hrow⟩, ⟨hi, hcol⟩, rfl⟩
  rcases hdraw.bounds _ hstore with ⟨hnonneg, hlt⟩
  rcases exists_pixelIndex hnonneg hlt with ⟨a, b, ha, hb, hindex⟩
  refine ⟨a, b, ha, hb, ?_, hindex⟩
  by_contra hout
  have hwhite := hdraw.outside a b ha hb hout
  have hset : storeAll (fun _ => ⟨255, 255, 255⟩) (gpuFbdraw d { x, y, pixels, w, h })
      (pixelIndex d a b) = toPixel 0 := by
    refine storeAll_eq ⟨_, hstore, hindex⟩ fun s hs _ => ?_
    rcases hmem.1 hs with ⟨j', i', _, _, rfl⟩
    rw [hblack]
  rw [hset] at hwhite
  exact absurd hwhite (by decide)

/-- A right drawing that draws anything has a corner on the screen and rows within `int`. -/
theorem DrawsClipped.corner (draws : DrawsClipped d x y w h) (hwpos : 0 < w) (hhpos : 0 < h)
    (hxW : x < d.W) (hyH : y < d.H) :
    0 ≤ x ∧ 0 ≤ y ∧ x + (min (y + h) d.H - 1) * d.W < 2147483648 := by
  have harea := d.area_le
  have hWlt : 0 ≤ d.W ∧ d.W < 65536 := by
    have hlt := d.w_lt
    unfold Display.W
    omega
  have hH : 0 ≤ d.H := by unfold Display.H; omega
  have hstore : ∀ j i : Nat, (j : Int) < h → y + j < d.H → (i : Int) < w → x + i < d.W →
      ∃ a b : Nat, a < d.w.toNat ∧ b < d.h.toNat ∧ Inside x y w h a b ∧
        int (x + (y + j) * d.W) + i = pixelIndex d a b :=
    fun j i hj hrow hi hcol => draws.store_inside hx hy hw hw' hright hbottom hj hrow hi hcol
  rcases hstore 0 0 hhpos (by omega) hwpos (by omega) with
    ⟨a₀, b₀, ha₀, hb₀, ⟨⟨hxa₀, haw₀⟩, hyb₀, hbh₀⟩, hindex₀⟩
  have hy0 : 0 ≤ y := by
    by_contra hneg
    -- the row above the screen is drawn, in front of the frame buffer or far behind it
    obtain ⟨j, hj⟩ : ∃ j : Nat, (j : Int) = -1 - y := ⟨_, Int.toNat_of_nonneg (by omega)⟩
    obtain ⟨i, hi⟩ : ∃ i : Nat, (i : Int) = min w (d.W - x) - 1 :=
      ⟨_, Int.toNat_of_nonneg (by omega)⟩
    have hrow : x + (y + j) * d.W = x - d.W := by
      rw [hj, show y + (-1 - y) = -1 by omega]
      omega
    by_cases hlow : -2147483648 ≤ x - d.W
    · rcases hstore j 0 (by omega) (by omega) hwpos (by omega) with ⟨a, b, ha, hb, _, hindex⟩
      have hbounds := pixelIndex_bounds ha hb
      rw [hrow, int_eq hlow (by omega)] at hindex
      omega
    · rcases hstore j i (by omega) (by omega) (by omega) (by omega) with ⟨a, b, ha, hb, _, hindex⟩
      have hbounds := pixelIndex_bounds ha hb
      have hwrap : int (x - d.W) = x - d.W + 4294967296 := by
        unfold int
        rw [Int.bmod_eq_iff (by omega)]
        omega
      rw [hrow, hwrap] at hindex
      omega
  have hlast : ∀ j : Nat, y + j < d.H → 0 ≤ (y + j) * d.W ∧ x + (y + j) * d.W < 4294967296 := by
    intro j hj
    have hle : (y + j) * d.W ≤ (d.H - 1) * d.W :=
      Int.mul_le_mul_of_nonneg_right (by omega) hWlt.1
    rw [Int.sub_mul, Int.mul_comm d.H, Int.one_mul] at hle
    exact ⟨Int.mul_nonneg (by omega) hWlt.1, by omega⟩
  have hx0 : 0 ≤ x := by
    by_contra hneg
    -- the first pixel goes into an earlier row or in front of the frame buffer
    rcases hlast 0 (by omega) with ⟨hnonneg, hlt⟩
    have hbounds := pixelIndex_bounds ha₀ hb₀
    have hbelow : (y + (0 : Nat)) * d.W ≤ b₀ * d.W :=
      Int.mul_le_mul_of_nonneg_right (by omega) hWlt.1
    unfold pixelIndex at hindex₀ hbounds
    by_cases hwrap : x + (y + (0 : Nat)) * d.W < 2147483648
    · rw [int_eq (by omega) hwrap] at hindex₀
      omega
    · rw [int_wrapped (by omega) hlt] at hindex₀
      omega
  refine ⟨hx0, hy0, ?_⟩
  by_contra hover
  -- the last row starts in front of the frame buffer
  obtain ⟨j, hj⟩ : ∃ j : Nat, (j : Int) = min (y + h) d.H - 1 - y :=
    ⟨_, Int.toNat_of_nonneg (by omega)⟩
  have hrow : y + j = min (y + h) d.H - 1 := by omega
  rcases hstore j 0 (by omega) (by omega) hwpos (by omega) with ⟨a, b, ha, hb, _, hindex⟩
  have hbounds := pixelIndex_bounds ha hb
  rcases hlast j (by omega) with ⟨_, hlt⟩
  rw [← hrow] at hover
  rw [int_wrapped (by omega) hlt] at hindex
  omega

/-- A drawing is the clipped rectangle, for all pixels and frame buffers, exactly if nothing
is drawn or it starts on the screen and all its rows on the screen start within `int`. -/
theorem gpuFbdraw_clips_iff (hh : 0 ≤ h) :
    DrawsClipped d x y w h ↔
      w = 0 ∨ h = 0 ∨ d.W ≤ x ∨ d.H ≤ y ∨
        (0 ≤ x ∧ 0 ≤ y ∧ x + (min (y + h) d.H - 1) * d.W < 2147483648) := by
  constructor
  · intro draws
    by_cases hempty : w = 0 ∨ h = 0 ∨ d.W ≤ x ∨ d.H ≤ y
    · omega
    · have hcorner := draws.corner hx hy hw hw' hright hbottom (by omega) (by omega) (by omega)
        (by omega)
      exact .inr (.inr (.inr (.inr hcorner)))
  · rintro (hempty | hempty | hempty | hempty | ⟨hx0, hy0, hlast⟩)
    · exact drawsClipped_of_empty hx hy hw hw' hright hbottom (.inl hempty)
    · exact drawsClipped_of_empty hx hy hw hw' hright hbottom (.inr (.inl hempty))
    · exact drawsClipped_of_empty hx hy hw hw' hright hbottom (.inr (.inr (.inl hempty)))
    · exact drawsClipped_of_empty hx hy hw hw' hright hbottom (.inr (.inr (.inr hempty)))
    · exact drawsClipped_of_corner hx hy hw hw' hright hbottom hx0 hy0 hlast

end Int


/-- One column left of the screen: its pixel goes to the end of the row above. -/
theorem gpuFbdraw_left_of_screen :
    ¬ DrawsRect ⟨4, 3⟩ (-1) 1 2 1 [0xffffff, 0xffffff] fun _ => ⟨0, 0, 0⟩ := by
  intro hdraw
  have hstores : gpuFbdraw ⟨4, 3⟩
      { x := -1, y := 1, pixels := [0xffffff, 0xffffff], w := 2, h := 1 } =
        [(3, ⟨255, 255, 255⟩), (4, ⟨255, 255, 255⟩)] := by decide
  have hsame := hdraw.outside 3 0 (by decide) (by decide) (by decide)
  rw [hstores] at hsame
  exact absurd hsame (by decide)

theorem gpuFbdraw_clips_iff_corner :
    DrawsClipped ⟨4, 3⟩ 2 1 5 5 ↔
      (5 : Int) = 0 ∨ (5 : Int) = 0 ∨ Display.W ⟨4, 3⟩ ≤ 2 ∨ Display.H ⟨4, 3⟩ ≤ 1 ∨
        ((0 : Int) ≤ 2 ∧ (0 : Int) ≤ 1 ∧
          2 + (min (1 + 5) (Display.H ⟨4, 3⟩) - 1) * Display.W ⟨4, 3⟩ < 2147483648) :=
  gpuFbdraw_clips_iff (by decide) (by decide) (by decide) (by decide) (by decide) (by decide)
    (by decide)

end OSLabs.Gpu
