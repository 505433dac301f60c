import OSLabs.Gpu.Rendering
import OSLabs.Lib.Copies

/-! # What a rendering paints

A tree of canvases denotes a picture: a texture is the pixels in `vmem` that it names, a
subtree is what its children paint over black, and each canvas is scaled into its place in
its parent, over what the siblings before it have left there. A rendering for which `vbuf`
suffices shows this picture in the frame buffer, over what was there, and changes nothing
but the frame buffer and `vbuf`.
-/

namespace OSLabs.Gpu

open Lib

variable {m : Device} {mem now : Memory} {W H w h : Nat} {p : UInt32} {cv : Canvas}
  {px pxLocal head : Int} {live : List Region} {ts : List Task} {s : Progress}

/-! ## Pictures -/

/-- The pixel in column `x` and row `y`. -/
abbrev Image := Nat → Nat → Pixel

def pixelOf (mem : Memory) (a : Int) : Pixel := { b := mem a, g := mem (a + 1), r := mem (a + 2) }

def shown (mem : Memory) (px : Int) (W : Nat) : Image :=
  fun x y => pixelOf mem (px + 3 * (W * y + x : Nat))

def black : Image := fun _ _ => { b := 0, g := 0, r := 0 }

def Canvas.Covers (cv : Canvas) (x y : Nat) : Prop :=
  (cv.x1.toNat ≤ x ∧ x < cv.x1.toNat + cv.w1.toNat) ∧
    cv.y1.toNat ≤ y ∧ y < cv.y1.toNat + cv.h1.toNat

instance (cv : Canvas) (x y : Nat) : Decidable (cv.Covers x y) :=
  inferInstanceAs (Decidable (_ ∧ _))

/-- A picture of `w * h` pixels scaled into the place of the canvas, over another picture. -/
def scaledInto (cv : Canvas) (w h : Nat) (content below : Image) : Image := fun x y =>
  if cv.Covers x y then
    content ((x - cv.x1.toNat) * w / cv.w1.toNat) ((y - cv.y1.toNat) * h / cv.h1.toNat)
  else below x y

def textureImage (m : Device) (mem : Memory) (t : TextureDesc) : Image :=
  shown mem (m.vmem + t.pixels.toNat) t.w.toNat

/-- A canvas painted over a picture, where `inner` is what its children paint. -/
def paintCanvas (m : Device) (mem : Memory) (cv : Canvas) (inner below : Image) : Image :=
  if cv.type = AM_GPU_TEXTURE then
    scaledInto cv cv.texture.w.toNat cv.texture.h.toNat (textureImage m mem cv.texture) below
  else scaledInto cv cv.w.toNat cv.h.toNat inner below

def paint (m : Device) (mem : Memory) : Forest Canvas → Image → Image
  | .nil, below => below
  | .cons cv sons siblings, below =>
    paint m mem siblings (paintCanvas m mem cv (paint m mem sons black) below)

def SamePixels (w h : Nat) (I J : Image) : Prop := ∀ x < w, ∀ y < h, I x y = J x y

variable {I J K inner inner' : Image}

theorem SamePixels.refl (w h : Nat) (I : Image) : SamePixels w h I I := fun _ _ _ _ => rfl

theorem SamePixels.trans (hIJ : SamePixels w h I J) (hJK : SamePixels w h J K) :
    SamePixels w h I K := fun x hx y hy => (hIJ x hx y hy).trans (hJK x hx y hy)

theorem SamePixels.below (hbelow : SamePixels W H I J) :
    SamePixels W H (scaledInto cv w h inner I) (scaledInto cv w h inner J) := by
  intro x hx y hy
  unfold scaledInto
  by_cases hin : cv.Covers x y
  · rw [if_pos hin, if_pos hin]
  · rw [if_neg hin, if_neg hin]
    exact hbelow x hx y hy

/-- Only the pixels of the canvas are scaled. -/
theorem SamePixels.content (hinner : SamePixels w h inner inner') (hw : 0 < w)
    (hh : 0 < h) : SamePixels W H (scaledInto cv w h inner I) (scaledInto cv w h inner' I) := by
  intro x hx y hy
  unfold scaledInto
  by_cases hin : cv.Covers x y
  · rw [if_pos hin, if_pos hin]
    obtain ⟨⟨hleft, hright⟩, htop, hbottom⟩ := hin
    exact hinner _ (scaled_lt (by omega) hw) _ (scaled_lt (by omega) hh)
  · rw [if_neg hin, if_neg hin]

theorem SamePixels.paintCanvas (hbelow : SamePixels W H I J) :
    SamePixels W H (paintCanvas m mem cv inner I) (paintCanvas m mem cv inner J) := by
  unfold Gpu.paintCanvas
  split
  · exact hbelow.below
  · exact hbelow.below

theorem SamePixels.paint {F : Forest Canvas} (hbelow : SamePixels W H I J) :
    SamePixels W H (paint m mem F I) (paint m mem F J) := by
  induction F generalizing I J with
  | nil => exact hbelow
  | cons cv sons siblings _ ih => exact ih hbelow.paintCanvas

/-! ## Pixels in memory -/

theorem shown_eq {mem' : Memory} {x y : Nat} (hx : x < W) (hy : y < H)
    (hsame : ∀ a, (Region.mk px (3 * (W * H : Nat))).Has a → mem' a = mem a) :
    shown mem' px W x y = shown mem px W x y := by
  have hindex := index_lt hx hy
  have hsame' : ∀ c : Int, 0 ≤ c → c < 3 →
      mem' (px + 3 * (W * y + x : Nat) + c) = mem (px + 3 * (W * y + x : Nat) + c) := by
    intro c hc hlt
    exact hsame _ (Region.mk_has.2 ⟨by omega, by omega⟩)
  have hfirst := hsame' 0 (by decide) (by decide)
  rw [Int.add_zero] at hfirst
  unfold shown pixelOf
  rw [hfirst, hsame' 1 (by decide) (by decide), hsame' 2 (by decide) (by decide)]

/-! ## Drawing from a local buffer -/

def pixelCopies (cv : Canvas) (W : Nat) (px : Int) (w h : Nat) (pxLocal : Int) :
    List (Int × Int) :=
  ((List.range cv.w1.toNat).product (List.range cv.h1.toNat)).map fun ij =>
    (px + 3 * (targetIndex W cv ij.1 ij.2 : Nat),
      pxLocal + 3 * (sourceIndex w h cv ij.1 ij.2 : Nat))

theorem mem_pixelCopies {c : Int × Int} : c ∈ pixelCopies cv W px w h pxLocal ↔
    ∃ i < cv.w1.toNat, ∃ j < cv.h1.toNat, c = (px + 3 * (targetIndex W cv i j : Nat),
      pxLocal + 3 * (sourceIndex w h cv i j : Nat)) := by
  unfold pixelCopies
  rw [List.mem_map]
  constructor
  · rintro ⟨⟨i, j⟩, hij, rfl⟩
    obtain ⟨hi, hj⟩ := List.pair_mem_product.1 hij
    exact ⟨i, List.mem_range.1 hi, j, List.mem_range.1 hj, rfl⟩
  · rintro ⟨i, hi, j, hj, rfl⟩
    exact ⟨(i, j), List.pair_mem_product.2 ⟨List.mem_range.2 hi, List.mem_range.2 hj⟩, rfl⟩

/-- Where a canvas of `w * h` pixels at `pxLocal` is drawn to `W * H` pixels at `px`. -/
structure Drawing (m : Device) (cv : Canvas) (W H : Nat) (px : Int) (w h : Nat) (pxLocal : Int) :
    Prop where
  wide : 0 < w
  high : 0 < h
  right : cv.x1.toNat + cv.w1.toNat ≤ W
  bottom : cv.y1.toNat + cv.h1.toNat ≤ H
  target_nonneg : 0 ≤ px
  target_lt : px + 3 * (W * H : Nat) < m.space
  source_nonneg : 0 ≤ pxLocal
  source_lt : pxLocal + 3 * (w * h : Nat) < m.space
  apart : (Region.mk px (3 * (W * H : Nat))).Apart ⟨pxLocal, 3 * (w * h : Nat)⟩

namespace Drawing

variable (drawing : Drawing m cv W H px w h pxLocal)
include drawing

theorem target_lt_area {i j : Nat} (hi : i < cv.w1.toNat) (hj : j < cv.h1.toNat) :
    targetIndex W cv i j < W * H := by
  have hright := drawing.right
  have hbottom := drawing.bottom
  exact index_lt (by omega) (by omega)

theorem source_lt_area {i j : Nat} (hi : i < cv.w1.toNat) (hj : j < cv.h1.toNat) :
    sourceIndex w h cv i j < w * h := sourceIndex_lt drawing.wide drawing.high hi hj

theorem drawn_eq : drawn m cv W px w h pxLocal =
    (pixelCopies cv W px w h pxLocal).map fun c => .copy c.1 c.2 := by
  rw [drawn, pixelCopies, List.map_map]
  apply List.map_congr_left
  rintro ⟨i, j⟩ hij
  obtain ⟨hi, hj⟩ := mem_pixels.1 hij
  have htarget := drawing.target_lt_area hi hj
  have hsource := drawing.source_lt_area hi hj
  have hspace := drawing.target_lt
  have hspace' := drawing.source_lt
  have hnonneg := drawing.target_nonneg
  have hnonneg' := drawing.source_nonneg
  rw [Function.comp, ptr_eq (by omega) (by omega), ptr_eq (by omega) (by omega)]

theorem undisturbed : Undisturbed 3 (pixelCopies cv W px w h pxLocal) := by
  intro c hc d hd
  obtain ⟨i, hi, j, hj, rfl⟩ := mem_pixelCopies.1 hc
  obtain ⟨i', hi', j', hj', rfl⟩ := mem_pixelCopies.1 hd
  have htarget := drawing.target_lt_area hi hj
  have hsource := drawing.source_lt_area hi' hj'
  have hapart := Region.mk_apart.1 drawing.apart
  exact Region.mk_apart.2 (by omega)

theorem copies_frame {a : Int} (ha : ¬(Region.mk px (3 * (W * H : Nat))).Has a) :
    copyAll 3 now (pixelCopies cv W px w h pxLocal) a = now a := by
  apply copyAll_unchanged
  intro c hc has
  obtain ⟨i, hi, j, hj, rfl⟩ := mem_pixelCopies.1 hc
  have htarget := drawing.target_lt_area hi hj
  have hbounds := Region.mk_has.1 has
  exact ha (Region.mk_has.2 ⟨by omega, by omega⟩)

theorem copies_inside {i j : Nat} {c : Int} (hi : i < cv.w1.toNat) (hj : j < cv.h1.toNat)
    (hc : 0 ≤ c) (hlt : c < 3) :
    copyAll 3 now (pixelCopies cv W px w h pxLocal) (px + 3 * (targetIndex W cv i j : Nat) + c) =
      now (pxLocal + 3 * (sourceIndex w h cv i j : Nat) + c) := by
  apply copyAll_eq drawing.undisturbed
  · exact ⟨_, mem_pixelCopies.2 ⟨i, hi, j, hj, rfl⟩, Region.mk_has.2 ⟨by omega, by omega⟩⟩
  · intro d hd has
    obtain ⟨i', hi', j', hj', rfl⟩ := mem_pixelCopies.1 hd
    have hbounds := Region.mk_has.1 has
    have hsame : targetIndex W cv i j = targetIndex W cv i' j' := by omega
    have hright := drawing.right
    have hindex := index_inj (by omega) (by omega) hsame
    obtain rfl : i = i' := by omega
    obtain rfl : j = j' := by omega
    have hoffset : px + 3 * (targetIndex W cv i j : Nat) + c -
        (px + 3 * (targetIndex W cv i j : Nat)) = c := by omega
    rw [hoffset]

theorem copies_outside {x y : Nat} {c : Int} (hx : x < W) (hout : ¬cv.Covers x y) (hc : 0 ≤ c)
    (hlt : c < 3) :
    copyAll 3 now (pixelCopies cv W px w h pxLocal) (px + 3 * (W * y + x : Nat) + c) =
      now (px + 3 * (W * y + x : Nat) + c) := by
  apply copyAll_unchanged
  intro d hd has
  obtain ⟨i, hi, j, hj, rfl⟩ := mem_pixelCopies.1 hd
  have hbounds := Region.mk_has.1 has
  have hsame : W * (cv.y1.toNat + j) + (cv.x1.toNat + i) = W * y + x := by
    unfold targetIndex at hbounds
    omega
  have hright := drawing.right
  obtain ⟨hcol, hrow⟩ := index_inj (by omega) hx hsame
  exact hout ⟨⟨by omega, by omega⟩, by omega, by omega⟩

/-- The copies scale what the source shows into the place of the canvas. -/
theorem copies_shown : SamePixels W H
    (shown (copyAll 3 now (pixelCopies cv W px w h pxLocal)) px W)
    (scaledInto cv w h (shown now pxLocal w) (shown now px W)) := by
  intro x hx y hy
  unfold scaledInto
  by_cases hin : cv.Covers x y
  · rw [if_pos hin]
    obtain ⟨⟨hleft, hright⟩, htop, hbottom⟩ := hin
    have htarget : targetIndex W cv (x - cv.x1.toNat) (y - cv.y1.toNat) = W * y + x := by
      unfold targetIndex
      rw [Nat.add_sub_cancel' hleft, Nat.add_sub_cancel' htop]
    have hcopied (c : Int) (hc : 0 ≤ c) (hlt : c < 3) :
        copyAll 3 now (pixelCopies cv W px w h pxLocal) (px + 3 * (W * y + x : Nat) + c) =
          now (pxLocal + 3 * (sourceIndex w h cv (x - cv.x1.toNat) (y - cv.y1.toNat) : Nat) +
            c) := by
      rw [← htarget]
      exact drawing.copies_inside (by omega) (by omega) hc hlt
    have hfirst := hcopied 0 (by decide) (by decide)
    rw [Int.add_zero, Int.add_zero] at hfirst
    unfold shown pixelOf
    rw [hfirst, hcopied 1 (by decide) (by decide), hcopied 2 (by decide) (by decide)]
    rfl
  · rw [if_neg hin]
    have hkept (c : Int) (hc : 0 ≤ c) (hlt : c < 3) :
        copyAll 3 now (pixelCopies cv W px w h pxLocal) (px + 3 * (W * y + x : Nat) + c) =
          now (px + 3 * (W * y + x : Nat) + c) := drawing.copies_outside hx hin hc hlt
    have hfirst := hkept 0 (by decide) (by decide)
    rw [Int.add_zero] at hfirst
    unfold shown pixelOf
    rw [hfirst, hkept 1 (by decide) (by decide), hkept 2 (by decide) (by decide)]

end Drawing

/-! ## Parts of a rendering -/

/-- The pixels at `px` may be drawn to, and are outside the rest of `vbuf`. -/
structure Target (m : Device) (px : Int) (area : Nat) (head : Int) : Prop where
  nonneg : 0 ≤ px
  lt : px + 3 * (area : Nat) < m.space
  vmem : m.vmemRegion.Apart ⟨px, 3 * (area : Nat)⟩
  vbuf : (Region.mk px (3 * (area : Nat))).Apart ⟨head, m.vbuf + VMEM_SIZE - head⟩
  drawable : Drawable m px area

theorem Target.mono {area : Nat} {head' : Int} (target : Target m px area head)
    (hle : head ≤ head') : Target m px area head' where
  nonneg := target.nonneg
  lt := target.lt
  vmem := target.vmem
  vbuf := by
    have hapart := Region.mk_apart.1 target.vbuf
    exact Region.mk_apart.2 (by omega)
  drawable := target.drawable

theorem Target.local (hstart : m.vbuf ≤ head)
    (hfinish : head + (3 * (w * h) : Nat) ≤ m.vbuf + VMEM_SIZE) :
    Target m head (w * h) (head + 3 * (w * h : Nat)) where
  nonneg := by omega
  lt := by
    have hspace := m.vbuf_lt
    omega
  vmem := by
    have hapart := m.vmem_vbuf
    exact Region.mk_apart.2 (by omega)
  vbuf := Region.mk_apart.2 (.inl (Int.le_refl _))
  drawable := drawable_local hstart hfinish

/-- What has been done shows a picture at `px`. Besides the pixels at `px` it has changed only
the `size` bytes of `vbuf` from `head` on. -/
structure Painted (now : Memory) (log : List Event) (W H : Nat) (px head : Int) (size : Nat)
    (I : Image) : Prop where
  picture : SamePixels W H (shown (performAll now log) px W) I
  frame : ∀ a, ¬(Region.mk px (3 * (W * H : Nat))).Has a → ¬(Region.mk head size).Has a →
    performAll now log a = now a

theorem Painted.sameVmem {log : List Event} {size : Nat}
    (painted : Painted now log W H px head size I) (same : SameVmem m mem now)
    (target : Target m px (W * H) head) (hstart : m.vbuf ≤ head)
    (hfinish : head + size ≤ m.vbuf + VMEM_SIZE) : SameVmem m mem (performAll now log) := by
  intro a ha
  have hvbuf : m.vmemRegion.Apart ⟨head, size⟩ := by
    have hapart := m.vmem_vbuf
    exact Region.mk_apart.2 (by omega)
  rw [painted.frame a (target.vmem.not_has ha) (hvbuf.not_has ha)]
  exact same a ha

/-- A part of the rendering that ends, if nothing overflows and its local buffers fit, and has
painted over what its target shows. -/
def Paints (m : Device) (mem : Memory) (W H : Nat) (px : Int) (ts : List Task)
    (f : Rendering Unit) (g : Image → Image) : Prop :=
  ∀ s : Progress, SameVmem m mem s.mem → m.vbuf ≤ s.head → (∀ t ∈ ts, t.Fits) →
    s.head + totalSize ts ≤ m.vbuf + VMEM_SIZE → Target m px (W * H) s.head →
    ∃ log, f s = .ok () (s.after log (s.head + totalSize ts)) ∧
      Painted s.mem log W H px s.head (totalSize ts) (g (shown s.mem px W))

variable {f f' : Rendering Unit} {g g' : Image → Image}

theorem Paints.nil : Paints m mem W H px [] (pure ()) id := by
  intro s _ _ _ _ _
  refine ⟨[], ?_, .refl _ _ _, fun _ _ _ => rfl⟩
  rw [totalSize_nil, Int.natCast_zero, Int.add_zero, s.after_nil]
  rfl

theorem Paints.append {ts₁ ts₂ : List Task} (first : Paints m mem W H px ts₁ f g)
    (second : Paints m mem W H px ts₂ f' g')
    (hcongr : ∀ {I J}, SamePixels W H I J → SamePixels W H (g' I) (g' J)) :
    Paints m mem W H px (ts₁ ++ ts₂) (f >>= fun _ => f') (fun I => g' (g I)) := by
  intro s same hstart hfits hfinish target
  obtain ⟨hfits₁, hfits₂⟩ := List.forall_mem_append.1 hfits
  rw [totalSize_append] at hfinish ⊢
  have hroom : s.head + totalSize ts₁ ≤ m.vbuf + VMEM_SIZE := by omega
  obtain ⟨log₁, hf, painted⟩ := first s same hstart hfits₁ hroom target
  obtain ⟨log₂, hf', painted'⟩ := second (s.after log₁ (s.head + totalSize ts₁))
    (painted.sameVmem same target hstart hroom) (by rw [s.after_head]; omega) hfits₂
    (by rw [s.after_head]; omega) (target.mono (by rw [s.after_head]; omega))
  rw [s.after_head] at hf' painted'
  refine ⟨log₁ ++ log₂, ?_, ?_, ?_⟩
  · rw [bind_of_ok hf, hf', s.after_after, Int.natCast_add, Int.add_assoc]
  · rw [performAll_append]
    exact painted'.picture.trans (hcongr painted.picture)
  · intro a hout hrest
    rw [performAll_append, ← s.after_mem log₁ (s.head + totalSize ts₁), painted'.frame a hout,
      s.after_mem, painted.frame a hout]
    · exact fun has => hrest (Region.mk_has.2 (by have h := Region.mk_has.1 has; omega))
    · exact fun has => hrest (Region.mk_has.2 (by have h := Region.mk_has.1 has; omega))

/-! ## Canvases -/

/-- What is drawn inside the target may be written. -/
theorem drawn_lands (placed : Placed m mem W H p cv) (target : Target m px (W * H) head) :
    ∀ c ∈ drawn m cv W px w h pxLocal, c.Lands m := by
  intro c hc
  obtain ⟨i, hi, j, hj, rfl⟩ := mem_drawn hc
  have hright := placed.right
  have hbottom := placed.bottom
  intro r hr
  rw [List.mem_singleton.1 hr]
  exact target.drawable _ (index_lt (by omega) (by omega))

theorem performAll_copies (now : Memory) (copies : List (Int × Int)) (own : Option Region) :
    performAll now ((copies.map fun c => Access.copy c.1 c.2).map fun c => ⟨c, own, live⟩) =
      copyAll 3 now copies := by
  unfold performAll copyAll
  rw [List.map_map, List.foldl_map]
  rfl

theorem paints_texture (placed : Placed m mem W H p cv) (type : cv.type = AM_GPU_TEXTURE)
    (width : cv.texture.w ≠ 0) (height : cv.texture.h ≠ 0)
    (pixels : cv.texture.pixels ≠ AM_GPU_NULL)
    (inside : cv.texture.pixels.toNat + 3 * (cv.texture.w.toNat * cv.texture.h.toNat) ≤ VMEM_SIZE)
    (fuel : Nat) (below : List Task) (inner : Image) :
    Paints m mem W H px (canvasTasks W cv below)
      (render m (fuel + 1) (toHost m p) W px live) (paintCanvas m mem cv inner) := by
  intro s same hstart hfits hfinish target
  have hsize : VMEM_SIZE = 524288 := rfl
  have hspace := m.vmem_lt
  have hvmem := Region.mk_apart.1 target.vmem
  have hsource := Gpu.toHost_eq (m := m) pixels (by omega)
  have drawing : Drawing m cv W H px cv.texture.w.toNat cv.texture.h.toNat
      (m.vmem + cv.texture.pixels.toNat) := {
    wide := toNat_pos width
    high := toNat_pos height
    right := placed.right
    bottom := placed.bottom
    target_nonneg := target.nonneg
    target_lt := target.lt
    source_nonneg := by omega
    source_lt := by omega
    apart := Region.mk_apart.2 (by omega) }
  rw [canvasTasks, if_pos type] at hfits ⊢
  refine ⟨[⟨.canvas (toHost m p), none, live⟩] ++
    (drawn m cv W px cv.texture.w.toNat cv.texture.h.toNat
      (m.vmem + cv.texture.pixels.toNat)).map fun c => ⟨c, none, live⟩, ?_, ?_⟩
  · rw [render_texture (placed.canvasAt_eq same) type, hsource,
      drawLocal_run drawing.wide drawing.high (by omega) (hfits _ List.mem_cons_self)
        (drawn_lands placed target), s.after_after]
    simp
  have hperform : performAll s.mem ([⟨.canvas (toHost m p), none, live⟩] ++
      (drawn m cv W px cv.texture.w.toNat cv.texture.h.toNat
        (m.vmem + cv.texture.pixels.toNat)).map fun c => ⟨c, none, live⟩) =
        copyAll 3 s.mem (pixelCopies cv W px cv.texture.w.toNat cv.texture.h.toNat
          (m.vmem + cv.texture.pixels.toNat)) := by
    rw [drawing.drawn_eq]
    exact performAll_copies s.mem _ none
  constructor
  · rw [hperform, paintCanvas, if_pos type]
    apply drawing.copies_shown.trans
    apply SamePixels.content _ drawing.wide drawing.high
    intro x hx y hy
    apply shown_eq hx hy
    intro a ha
    have hbounds := Region.mk_has.1 ha
    exact same a (Region.mk_has.2 ⟨by omega, by omega⟩)
  · intro a hout _
    rw [hperform]
    exact drawing.copies_frame hout

def cleared (now : Memory) (head : Int) (cv : Canvas) : Memory :=
  fun a => if (localBuffer head cv.w.toNat cv.h.toNat).Has a then 0 else now a

theorem cleared_shown : SamePixels cv.w.toNat cv.h.toNat
    (shown (cleared now head cv) head cv.w.toNat) black := by
  intro x hx y hy
  have hindex := index_lt hx hy
  have hzero : ∀ c : Int, 0 ≤ c → c < 3 →
      cleared now head cv (head + 3 * (cv.w.toNat * y + x : Nat) + c) = 0 := by
    intro c hc hlt
    exact if_pos (Region.mk_has.2 ⟨by omega, by omega⟩)
  have hfirst := hzero 0 (by decide) (by decide)
  rw [Int.add_zero] at hfirst
  unfold shown pixelOf
  rw [hfirst, hzero 1 (by decide) (by decide), hzero 2 (by decide) (by decide)]
  rfl

theorem SameVmem.cleared (same : SameVmem m mem now) (hstart : m.vbuf ≤ head)
    (hfinish : head + (3 * (cv.w.toNat * cv.h.toNat) : Nat) ≤ m.vbuf + VMEM_SIZE) :
    SameVmem m mem (cleared now head cv) := by
  intro a ha
  have hlocal : m.vmemRegion.Apart (localBuffer head cv.w.toNat cv.h.toNat) := by
    have hapart := m.vmem_vbuf
    exact Region.mk_apart.2 (by omega)
  exact (if_neg (hlocal.not_has ha)).trans (same a ha)

/-- What a subtree does before its children are rendered. -/
def allocLog (m : Device) (p : UInt32) (cv : Canvas) (head : Int) (live : List Region) :
    List Event :=
  [⟨.canvas (toHost m p), none, live⟩,
    ⟨.zero head (int ((cv.w.toNat * cv.h.toNat : Nat) * 3)),
      some (localBuffer head cv.w.toNat cv.h.toNat),
      localBuffer head cv.w.toNat cv.h.toNat :: live⟩]

/-- What it does afterwards. -/
def drawLog (m : Device) (cv : Canvas) (W : Nat) (px head : Int) (live : List Region) :
    List Event :=
  (drawn m cv W px cv.w.toNat cv.h.toNat head).map fun c =>
    ⟨c, some (localBuffer head cv.w.toNat cv.h.toNat),
      localBuffer head cv.w.toNat cv.h.toNat :: live⟩

theorem performAll_allocLog (hroom : 3 * (cv.w.toNat * cv.h.toNat) ≤ VMEM_SIZE)
    (live : List Region) : performAll now (allocLog m p cv head live) = cleared now head cv := by
  unfold allocLog
  rw [int_size hroom]
  rfl

theorem Target.drawing (target : Target m px (W * H) head) (placed : Placed m mem W H p cv)
    (hw : 0 < cv.w.toNat) (hh : 0 < cv.h.toNat) (hstart : m.vbuf ≤ head)
    (hroom : head + (3 * (cv.w.toNat * cv.h.toNat) : Nat) ≤ m.vbuf + VMEM_SIZE) :
    Drawing m cv W H px cv.w.toNat cv.h.toNat head where
  wide := hw
  high := hh
  right := placed.right
  bottom := placed.bottom
  target_nonneg := target.nonneg
  target_lt := target.lt
  source_nonneg := by omega
  source_lt := by
    have hspace := m.vbuf_lt
    omega
  apart := by
    have hvbuf := Region.mk_apart.1 target.vbuf
    exact Region.mk_apart.2 (by omega)

theorem subtree_painted (placed : Placed m mem W H p cv) (hw : 0 < cv.w.toNat)
    (hh : 0 < cv.h.toNat) (target : Target m px (W * H) head) (hstart : m.vbuf ≤ head)
    {size : Nat}
    (hfinish : head + (3 * (cv.w.toNat * cv.h.toNat) + size : Nat) ≤ m.vbuf + VMEM_SIZE)
    {log : List Event} {g : Image → Image}
    (hcongr : ∀ {I J}, SamePixels cv.w.toNat cv.h.toNat I J →
      SamePixels cv.w.toNat cv.h.toNat (g I) (g J))
    (children : Painted (cleared now head cv) log cv.w.toNat cv.h.toNat head
      (head + 3 * (cv.w.toNat * cv.h.toNat : Nat)) size
      (g (shown (cleared now head cv) head cv.w.toNat)))
    (live : List Region) :
    Painted now (allocLog m p cv head live ++ (log ++ drawLog m cv W px head live))
      W H px head (3 * (cv.w.toNat * cv.h.toNat) + size)
      (scaledInto cv cv.w.toNat cv.h.toNat (g black) (shown now px W)) := by
  have hvbuf := Region.mk_apart.1 target.vbuf
  have drawing := target.drawing placed hw hh hstart (by omega)
  have hperform : performAll now (allocLog m p cv head live ++
      (log ++ drawLog m cv W px head live)) =
        copyAll 3 (performAll (cleared now head cv) log)
          (pixelCopies cv W px cv.w.toNat cv.h.toNat head) := by
    rw [performAll_append, performAll_allocLog (by omega), performAll_append, drawLog,
      drawing.drawn_eq, performAll_copies]
  -- Neither the clearing nor the children change the target.
  have hkept : ∀ a, ¬(Region.mk head (3 * (cv.w.toNat * cv.h.toNat) + size : Nat)).Has a →
      performAll (cleared now head cv) log a = now a := by
    intro a hout
    rw [children.frame a]
    · exact if_neg fun has => hout (Region.mk_has.2 (by have h := Region.mk_has.1 has; omega))
    · exact fun has => hout (Region.mk_has.2 (by have h := Region.mk_has.1 has; omega))
    · exact fun has => hout (Region.mk_has.2 (by have h := Region.mk_has.1 has; omega))
  constructor
  · rw [hperform]
    apply drawing.copies_shown.trans
    apply SamePixels.trans (J := scaledInto cv cv.w.toNat cv.h.toNat (g black)
      (shown (performAll (cleared now head cv) log) px W))
    · apply SamePixels.content _ hw hh
      exact children.picture.trans (hcongr cleared_shown)
    · apply SamePixels.below
      intro x hx y hy
      apply shown_eq hx hy
      intro a ha
      apply hkept
      intro has
      have htarget := Region.mk_has.1 ha
      have hlocal := Region.mk_has.1 has
      omega
  · intro a hout hlocal
    rw [hperform, drawing.copies_frame hout]
    exact hkept a hlocal

theorem paints_subtree (placed : Placed m mem W H p cv) (type : cv.type = AM_GPU_SUBTREE)
    (width : cv.w ≠ 0) (height : cv.h ≠ 0) {fuel : Nat} {below : List Task} {g : Image → Image}
    (hcongr : ∀ {I J}, SamePixels cv.w.toNat cv.h.toNat I J →
      SamePixels cv.w.toNat cv.h.toNat (g I) (g J))
    (children : ∀ px live, Paints m mem cv.w.toNat cv.h.toNat px below
      (forChildren m (fun ch => render m fuel ch cv.w.toNat px live) fuel (toHost m cv.child)) g) :
    Paints m mem W H px (canvasTasks W cv below) (render m (fuel + 1) (toHost m p) W px live)
      (paintCanvas m mem cv (g black)) := by
  intro s same hstart hfits hfinish target
  have hw := toNat_pos width
  have hh := toNat_pos height
  have hsize : VMEM_SIZE = 524288 := rfl
  have htasks : totalSize (canvasTasks W cv below) =
      3 * (cv.w.toNat * cv.h.toNat) + totalSize below := by
    rw [canvasTasks, if_neg (subtree_ne_texture type)]
    simp
  rw [htasks] at hfinish ⊢
  rw [canvasTasks, if_neg (subtree_ne_texture type), List.forall_mem_cons,
    List.forall_mem_append] at hfits
  rw [paintCanvas, if_neg (subtree_ne_texture type)]
  have hroom : s.head + (3 * (cv.w.toNat * cv.h.toNat) : Nat) ≤ m.vbuf + VMEM_SIZE := by omega
  -- The progress when the local buffer has been cleared.
  obtain ⟨s₁, hs₁⟩ : ∃ s₁, s₁ = s.after (allocLog m p cv s.head live)
      (s.head + (3 * (cv.w.toNat * cv.h.toNat) : Nat)) := ⟨_, rfl⟩
  have hhead : s₁.head = s.head + (3 * (cv.w.toNat * cv.h.toNat) : Nat) := by rw [hs₁, s.after_head]
  have hmem : s₁.mem = cleared s.mem s.head cv := by
    rw [hs₁, s.after_mem, performAll_allocLog (by omega)]
  have hstart₁ : m.vbuf ≤ s₁.head := by omega
  have hfinish₁ : s₁.head + totalSize below ≤ m.vbuf + VMEM_SIZE := by omega
  have same₁ : SameVmem m mem s₁.mem := hmem ▸ same.cleared hstart hroom
  have target₁ : Target m s.head (cv.w.toNat * cv.h.toNat) s₁.head := by
    rw [hhead, Int.natCast_mul]
    exact Target.local hstart hroom
  obtain ⟨log, hbelow, painted⟩ := children s.head
    (localBuffer s.head cv.w.toNat cv.h.toNat :: live) s₁ same₁ hstart₁ hfits.2.1 hfinish₁ target₁
  have same₂ : SameVmem m mem (s₁.after log (s₁.head + totalSize below)).mem :=
    painted.sameVmem same₁ target₁ hstart₁ hfinish₁
  have hrun : render m (fuel + 1) (toHost m p) W px live s =
      belowSubtree m fuel (toHost m p) cv W px live s.head s₁ := by
    have halloc : allocLog m p cv s.head live = [⟨.canvas (toHost m p), none, live⟩] ++ [_] := rfl
    rw [render_subtree (placed.canvasAt_eq same) type, hs₁, halloc, ← s.after_after _ _ s.head]
    exact alloc_run hstart hroom
  have hdraw : (Task.draw W cv cv.w.toNat cv.h.toNat).Fits := hfits.2.2 _ List.mem_cons_self
  rw [hmem, hhead] at painted
  refine ⟨_, ?_, subtree_painted placed hw hh target hstart hfinish hcongr painted live⟩
  rw [hrun, belowSubtree, bind_of_ok get_run, placed.canvasAt_eq same₁, bind_of_ok hbelow,
    bind_of_ok get_run, placed.canvasAt_eq same₂,
    drawLocal_run hw hh (by omega) hdraw (drawn_lands placed target), s₁.after_after, hs₁,
    s.after_after, s.after_head, Int.natCast_add, ← Int.add_assoc]
  rfl

theorem paints_tree {sons : Forest Canvas} {fuel : Nat} (stored : StoredTree m mem W H p cv sons)
    (children : ∀ W H p px live, StoredForest m mem W H p sons →
      Paints m mem W H px (tasks W sons)
        (forChildren m (fun ch => render m fuel ch W px live) fuel (toHost m p))
        (paint m mem sons)) :
    Paints m mem W H px (canvasTasks W cv (tasks cv.w.toNat sons))
      (render m (fuel + 1) (toHost m p) W px live)
      (paintCanvas m mem cv (paint m mem sons black)) := by
  cases stored with
  | texture placed type width height pixels inside =>
      exact paints_texture placed type width height pixels inside fuel _ _
  | subtree placed type width height below =>
      exact paints_subtree placed type width height .paint
        fun px live => children _ _ _ px live below

theorem paints_forest {F : Forest Canvas} {fuel rounds : Nat}
    (stored : StoredForest m mem W H p F) (hfuel : F.toList.length < fuel)
    (hrounds : F.toList.length < rounds) :
    Paints m mem W H px (tasks W F)
      (forChildren m (fun ch => render m fuel ch W px live) rounds (toHost m p))
      (paint m mem F) := by
  induction F generalizing W H p px live fuel rounds with
  | nil =>
      cases stored
      obtain ⟨rounds, rfl⟩ : ∃ n, rounds = n + 1 := ⟨rounds - 1, by omega⟩
      rw [forChildren, if_pos toHost_null]
      exact .nil
  | cons cv sons siblings ihs ih =>
      obtain ⟨fuel, rfl⟩ : ∃ n, fuel = n + 1 := ⟨fuel - 1, by omega⟩
      obtain ⟨rounds, rfl⟩ : ∃ n, rounds = n + 1 := ⟨rounds - 1, by omega⟩
      simp only [Forest.toList_cons, List.length_cons, List.length_append] at hfuel hrounds
      cases stored with
      | canvas tree rest =>
          rw [forChildren, if_neg tree.placed.toHost_ne]
          have htree : Paints m mem W H px _ (render m (fuel + 1) (toHost m p) W px live) _ :=
            paints_tree tree fun W H p px live stored => ihs stored (by omega) (by omega)
          refine htree.append ?_ .paint
          intro s same hstart hfits hfinish target
          rw [bind_of_ok get_run, tree.placed.canvasAt_eq same]
          exact ih rest (by omega) (by omega) s same hstart hfits hfinish target

/-! ## The whole rendering -/

/-- If nothing overflows and all local buffers fit into `vbuf`, `gpu_render` returns, and the
display shows the picture of the tree over what it showed before. Outside the frame buffer and
`vbuf` nothing has changed. -/
theorem gpuRender_paints {root : UInt32} {sons : Forest Canvas}
    (stored : StoredTree m mem m.display.w.toNat m.display.h.toNat root cv sons)
    (fit : Fit (canvasTasks m.display.w.toNat cv (tasks cv.w.toNat sons)))
    (hapart : m.vbufRegion.Apart m.fbRegion) :
    ∃ bound, ∀ fuel > bound, ∃ s, gpuRender m mem fuel root = .ok () s ∧
      SamePixels m.display.w.toNat m.display.h.toNat (shown s.mem m.fb m.display.w.toNat)
        (paintCanvas m mem cv (paint m mem sons black) (shown mem m.fb m.display.w.toNat)) ∧
      ∀ a, ¬m.fbRegion.Has a → ¬m.vbufRegion.Has a → s.mem a = mem a := by
  refine ⟨sons.toList.length + 1, fun fuel hfuel => ?_⟩
  obtain ⟨fuel, rfl⟩ : ∃ n, fuel = n + 1 := ⟨fuel - 1, by omega⟩
  have paints : Paints m mem m.display.w.toNat m.display.h.toNat m.fb _
      (render m (fuel + 1) (toHost m root) m.display.w.toNat m.fb []) _ :=
    paints_tree stored fun W H p px live below => paints_forest below (by omega) (by omega)
  have hsize := fit.size
  have hvbuf := Region.mk_apart.1 hapart
  have target : Target m m.fb (m.display.w.toNat * m.display.h.toNat) m.vbuf := {
    nonneg := by omega
    lt := by
      have hspace := m.fb_lt
      omega
    vmem := by
      have hvmem := m.vmem_fb
      exact Region.mk_apart.2 (by omega)
    vbuf := Region.mk_apart.2 (by omega)
    drawable := drawable_fb m }
  obtain ⟨log, hrun, painted⟩ := paints ⟨mem, m.vbuf, []⟩ (fun _ _ => rfl)
    (Int.le_refl _) fit.fits (by dsimp only; omega) target
  refine ⟨_, hrun, painted.picture, ?_⟩
  intro a hfb hout
  apply painted.frame a hfb
  intro has
  exact hout (Region.mk_has.2 (by have h := Region.mk_has.1 has; dsimp only at h; omega))

theorem gpuRender_paints_small : ∃ bound, ∀ fuel > bound, ∃ s,
    gpuRender qemu smallTree fuel 0 = .ok () s ∧
      SamePixels 640 480 (shown s.mem qemu.fb 640)
        (paintCanvas qemu smallTree (canvasAt smallTree 1179648)
          (paint qemu smallTree (.cons (canvasAt smallTree 1179674) .nil .nil) black)
          (shown smallTree qemu.fb 640)) ∧
      ∀ a, ¬qemu.fbRegion.Has a → ¬qemu.vbufRegion.Has a → s.mem a = smallTree a := by
  have child : StoredTree qemu smallTree 2 2 26 (canvasAt smallTree 1179674) .nil :=
    .texture ⟨by decide, by decide, rfl, by decide, by decide⟩ (by decide) (by decide) (by decide)
      (by decide) (by decide)
  have root : StoredTree qemu smallTree 640 480 0 (canvasAt smallTree 1179648)
      (.cons (canvasAt smallTree 1179674) .nil .nil) :=
    .subtree ⟨by decide, by decide, rfl, by decide, by decide⟩ (by decide) (by decide) (by decide)
      (.canvas child .null)
  exact gpuRender_paints root ⟨by decide, by decide⟩ (by decide)

end OSLabs.Gpu
