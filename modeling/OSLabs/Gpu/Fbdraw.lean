import OSLabs.Gpu.Model

/-! # What one drawing stores

`gpu_fbdraw` clips in two ways: the length of a row is computed once, and the bottom is
tested for each row. For a tile whose corner is not left of or above the screen both
together keep exactly the part of the tile that is on the screen.
-/

namespace OSLabs.Gpu

theorem Display.w_lt (d : Display) : d.w.toNat < 65536 :=
  UInt16.toNat_lt d.w

theorem Display.h_lt (d : Display) : d.h.toNat < 65536 :=
  UInt16.toNat_lt d.h

theorem Display.area_le (d : Display) : d.W * d.H ≤ 4294836225 := by
  have hw := d.w_lt
  have hh := d.h_lt
  have hle : d.w.toNat * d.h.toNat ≤ 65535 * 65535 := Nat.mul_le_mul (by omega) (by omega)
  unfold Display.W Display.H
  rw [← Int.natCast_mul]
  omega

/-! ## The stores of a drawing -/

theorem mem_gpuFbdraw {d : Display} {draw : FbDraw} {s : Int × Pixel} :
    s ∈ gpuFbdraw d draw ↔
      ∃ j < draw.h.toNat, int (draw.y + j) < d.H ∧
        ∃ i < (drawLen d draw).toNat,
          s = (rowStart d draw j + i, toPixel (pixelAt draw j i)) := by
  unfold gpuFbdraw
  simp only [List.mem_flatMap, List.mem_range]
  constructor
  · rintro ⟨j, hj, hs⟩
    unfold drawRow at hs
    by_cases hrow : int (draw.y + j) < d.H
    · rw [if_pos hrow] at hs
      rcases List.mem_map.1 hs with ⟨i, hi, rfl⟩
      exact ⟨j, hj, hrow, i, List.mem_range.1 hi, rfl⟩
    · rw [if_neg hrow] at hs
      cases hs
  · rintro ⟨j, hj, hrow, i, hi, rfl⟩
    refine ⟨j, hj, ?_⟩
    unfold drawRow
    rw [if_pos hrow]
    exact List.mem_map.2 ⟨i, List.mem_range.2 hi, rfl⟩

theorem lt_drawLen {d : Display} {draw : FbDraw} (hx : -2147483648 ≤ draw.x) (hw : 0 ≤ draw.w)
    (hwidth : draw.w < 2147483648) (hfit : draw.x + draw.w < 2147483648) (i : Nat) :
    i < (drawLen d draw).toNat ↔ (i : Int) < draw.w ∧ draw.x + i < d.W := by
  have hW : 0 ≤ d.W := by unfold Display.W; omega
  unfold drawLen
  rw [int_eq (by omega) hfit]
  split
  · rw [int_eq (by omega) (by omega)]
    omega
  · omega

/-! ## Tiles -/

/-- The index computed for the first column `x` of a tile in row `b` of the screen. -/
def tileStart (d : Display) (x b : Nat) : Int :=
  int (x + int (b * d.W))

theorem tileStart_eq {d : Display} {x b : Nat} (h : x + b * d.W < 2147483648) :
    tileStart d x b = x + b * d.W := by
  have hnonneg : 0 ≤ (b : Int) * d.W :=
    Int.mul_nonneg (by omega) (by unfold Display.W; omega)
  unfold tileStart
  rw [int_eq (n := b * d.W) (by omega) (by omega), int_eq (by omega) h]

theorem tile_pixelAt {x y : Int} {w h j i : Nat} {color : UInt32} (hi : i < w) (hj : j < h) :
    pixelAt { x, y, pixels := List.replicate (w * h : Int).toNat color, w, h } j i = color := by
  have hrow : j * w + i < w * h := by
    calc j * w + i < j * w + w := by omega
      _ = w * (j + 1) := by rw [Nat.mul_comm w, Nat.succ_mul]
      _ ≤ w * h := Nat.mul_le_mul_left w hj
  have hlen : (w * h : Int).toNat = w * h := by
    rw [← Int.natCast_mul, Int.toNat_natCast]
  have hindex : (j * w + i : Int).toNat = j * w + i := by
    rw [← Int.natCast_mul, ← Int.natCast_add, Int.toNat_natCast]
  unfold pixelAt
  simp [hlen, hindex, hrow]

/-- A drawing with its corner on the screen stores each of its pixels that is on the
screen, and nothing else. -/
theorem mem_gpuFbdraw_corner {d : Display} {draw : FbDraw} {x y w h : Nat} {s : Int × Pixel}
    (hx : draw.x = x) (hy : draw.y = y) (hw : draw.w = w) (hh : draw.h = h)
    (hright : x + w < 2147483648) (hbottom : y + h < 2147483648) :
    s ∈ gpuFbdraw d draw ↔
      ∃ a b : Nat, (x ≤ a ∧ a < x + w ∧ a < d.w.toNat) ∧
        (y ≤ b ∧ b < y + h ∧ b < d.h.toNat) ∧
        s = (tileStart d x b + (a - x : Nat), toPixel (pixelAt draw (b - y) (a - x))) := by
  have hstart (j : Nat) (hj : j < h) : rowStart d draw j = tileStart d x (y + j) := by
    unfold rowStart tileStart
    rw [int_eq (n := j + draw.y) (by omega) (by omega), hx, hy, Int.natCast_add,
      Int.add_comm (j : Int)]
  have hlen (i : Nat) : i < (drawLen d draw).toNat ↔ i < w ∧ x + i < d.w.toNat := by
    rw [lt_drawLen (by omega) (by omega) (by omega) (by omega)]
    unfold Display.W
    omega
  have hrow (j : Nat) (hj : j < h) : int (draw.y + j) < d.H ↔ y + j < d.h.toNat := by
    rw [int_eq (by omega) (by omega)]
    unfold Display.H
    omega
  rw [mem_gpuFbdraw]
  constructor
  · rintro ⟨j, hj, hjH, i, hi, rfl⟩
    have hj : j < h := by omega
    rw [hrow j hj] at hjH
    rw [hlen] at hi
    refine ⟨x + i, y + j, by omega, by omega, ?_⟩
    rw [hstart j hj, Nat.add_sub_cancel_left, Nat.add_sub_cancel_left]
  · rintro ⟨a, b, ha, hb, rfl⟩
    refine ⟨b - y, by omega, (hrow _ (by omega)).2 (by omega), a - x,
      (hlen _).2 (by omega), ?_⟩
    rw [hstart _ (by omega), Nat.add_sub_cancel' hb.1]

theorem mem_drawTile {d : Display} {x y w h : Nat} {color : UInt32} {s : Int × Pixel}
    (hright : x + w < 2147483648) (hbottom : y + h < 2147483648) :
    s ∈ drawTile d x y w h color ↔
      ∃ a b : Nat, (x ≤ a ∧ a < x + w ∧ a < d.w.toNat) ∧
        (y ≤ b ∧ b < y + h ∧ b < d.h.toNat) ∧
        s = (tileStart d x b + (a - x : Nat), toPixel color) := by
  unfold drawTile
  rw [mem_gpuFbdraw_corner rfl rfl rfl rfl hright hbottom]
  constructor
  · rintro ⟨a, b, ha, hb, rfl⟩
    refine ⟨a, b, ha, hb, ?_⟩
    rw [tile_pixelAt (by omega) (by omega)]
  · rintro ⟨a, b, ha, hb, rfl⟩
    refine ⟨a, b, ha, hb, ?_⟩
    rw [tile_pixelAt (by omega) (by omega)]

/-! ## Pixels in rows -/

def pixelIndex (d : Display) (a b : Nat) : Int :=
  a + b * d.W

theorem pixelIndex_inj {d : Display} {a b a' b' : Nat} (ha : a < d.w.toNat)
    (ha' : a' < d.w.toNat) (h : pixelIndex d a b = pixelIndex d a' b') :
    a = a' ∧ b = b' := by
  have hnat : a + b * d.w.toNat = a' + b' * d.w.toNat := by
    unfold pixelIndex Display.W at h
    exact_mod_cast h
  apply Lib.index_inj ha ha'
  rw [Nat.mul_comm _ b, Nat.mul_comm _ b', Nat.add_comm, hnat, Nat.add_comm]

theorem pixelIndex_bounds {d : Display} {a b : Nat} (ha : a < d.w.toNat) (hb : b < d.h.toNat) :
    0 ≤ pixelIndex d a b ∧ pixelIndex d a b < d.W * d.H := by
  have hnat : a + b * d.w.toNat < d.w.toNat * d.h.toNat := by
    calc a + b * d.w.toNat < d.w.toNat + b * d.w.toNat := by omega
      _ = d.w.toNat * (b + 1) := by rw [Nat.mul_comm d.w.toNat, Nat.succ_mul, Nat.add_comm]
      _ ≤ d.w.toNat * d.h.toNat := Nat.mul_le_mul_left _ hb
  unfold pixelIndex Display.W Display.H
  constructor
  · exact_mod_cast Nat.zero_le (a + b * d.w.toNat)
  · exact_mod_cast hnat

end OSLabs.Gpu
