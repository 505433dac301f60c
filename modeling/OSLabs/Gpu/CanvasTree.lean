import OSLabs.Gpu.Canvas
import OSLabs.Lib.Fallible
import OSLabs.Lib.Forest

/-! # What a rendering asks for

The tasks of a tree of canvases are the local buffers that its rendering takes and the
canvases that it draws, in this order. They decide whether the rendering stops early and
where it leaves the head of `vbuf`.
-/

namespace OSLabs.Gpu

open Lib

variable {m : Device} {mem now : Memory} {W H w h : Nat} {p : UInt32} {cv : Canvas}
  {px pxLocal head : Int}

/-! ## Trees in memory -/

/-- A canvas in `vmem` with its destination in a parent of `W * H` pixels. -/
structure Placed (m : Device) (mem : Memory) (W H : Nat) (p : UInt32) (cv : Canvas) : Prop where
  notNull : p ≠ AM_GPU_NULL
  inside : p.toNat + canvasSize ≤ VMEM_SIZE
  read : canvasAt mem (m.vmem + p.toNat) = cv
  right : cv.x1.toNat + cv.w1.toNat ≤ W
  bottom : cv.y1.toNat + cv.h1.toNat ≤ H

mutual

/-- The canvas at `p` and the forest of its children. -/
inductive StoredTree (m : Device) (mem : Memory) :
    Nat → Nat → UInt32 → Canvas → Forest Canvas → Prop where
  | texture {W H : Nat} {p : UInt32} {cv : Canvas} (placed : Placed m mem W H p cv)
      (type : cv.type = AM_GPU_TEXTURE) (width : cv.texture.w ≠ 0) (height : cv.texture.h ≠ 0)
      (pixels : cv.texture.pixels ≠ AM_GPU_NULL)
      (inside : cv.texture.pixels.toNat + 3 * (cv.texture.w.toNat * cv.texture.h.toNat) ≤
        VMEM_SIZE) : StoredTree m mem W H p cv .nil
  | subtree {W H : Nat} {p : UInt32} {cv : Canvas} {sons : Forest Canvas}
      (placed : Placed m mem W H p cv) (type : cv.type = AM_GPU_SUBTREE) (width : cv.w ≠ 0)
      (height : cv.h ≠ 0) (children : StoredForest m mem cv.w.toNat cv.h.toNat cv.child sons) :
      StoredTree m mem W H p cv sons

/-- The canvases from `p` on, linked by `sibling`. -/
inductive StoredForest (m : Device) (mem : Memory) :
    Nat → Nat → UInt32 → Forest Canvas → Prop where
  | null {W H : Nat} : StoredForest m mem W H AM_GPU_NULL .nil
  | canvas {W H : Nat} {p : UInt32} {cv : Canvas} {sons siblings : Forest Canvas}
      (tree : StoredTree m mem W H p cv sons)
      (rest : StoredForest m mem W H cv.sibling siblings) :
      StoredForest m mem W H p (.cons cv sons siblings)

end

/-! ## Pointers -/

theorem ptr_eq {a : Int} (hnonneg : 0 ≤ a) (hlt : a < m.space) : m.ptr a = a :=
  Int.emod_eq_of_lt hnonneg hlt

theorem toHost_eq (hp : p ≠ AM_GPU_NULL) (hlt : p.toNat ≤ VMEM_SIZE) :
    toHost m p = m.vmem + p.toNat := by
  have hspace := m.vmem_lt
  rw [toHost, if_neg hp, ptr_eq (by omega) (by omega)]

theorem Placed.toHost_eq (placed : Placed m mem W H p cv) : toHost m p = m.vmem + p.toNat := by
  have hinside := placed.inside
  exact Gpu.toHost_eq placed.notNull (by omega)

theorem Placed.toHost_ne (placed : Placed m mem W H p cv) : toHost m p ≠ 0 := by
  have hpos := m.vmem_pos
  rw [placed.toHost_eq]
  omega

/-- The memory holds the canvases and textures that it held at the start. -/
def SameVmem (m : Device) (mem now : Memory) : Prop := ∀ a, m.vmemRegion.Has a → now a = mem a

theorem canvasAt_congr {mem' : Memory} {a : Int}
    (h : ∀ i : Int, 0 ≤ i → i < canvasSize → mem (a + i) = mem' (a + i)) :
    canvasAt mem a = canvasAt mem' a := by
  have hsize : (canvasSize : Int) = 26 := rfl
  have h16 : ∀ i : Int, 0 ≤ i → i + 2 ≤ 26 → u16At mem (a + i) = u16At mem' (a + i) := by
    intro i hi hle
    unfold u16At
    rw [Int.add_assoc, h i hi (by omega), h (i + 1) (by omega) (by omega)]
  have h32 : ∀ i : Int, 0 ≤ i → i + 4 ≤ 26 → u32At mem (a + i) = u32At mem' (a + i) := by
    intro i hi hle
    unfold u32At
    rw [Int.add_assoc, h16 i hi (by omega), h16 (i + 2) (by omega) (by omega)]
  have htype := h16 0 (by decide) (by decide)
  rw [Int.add_zero] at htype
  simp (disch := decide) only [canvasAt, htype, h16, h32]

theorem Placed.canvasAt_eq (placed : Placed m mem W H p cv) (same : SameVmem m mem now) :
    canvasAt now (toHost m p) = cv := by
  have hinside := placed.inside
  rw [placed.toHost_eq, ← placed.read]
  exact canvasAt_congr fun i hi hlt => same _ (Region.mk_has.2 ⟨by omega, by omega⟩)

theorem toHost_null : toHost m AM_GPU_NULL = 0 := if_pos rfl

/-! ## Pixels -/

theorem arith_of_lt {n : Nat} (h : n < 2147483648) : arith n = some n :=
  if_pos h

theorem arith_of_not_lt {n : Nat} (h : ¬n < 2147483648) : arith n = none :=
  if_neg h

theorem arith_eq_some {n k : Nat} : arith n = some k ↔ n < 2147483648 ∧ n = k := by
  by_cases h : n < 2147483648
  · rw [arith_of_lt h, Option.some_inj]
    exact ⟨fun hk => ⟨h, hk⟩, And.right⟩
  · rw [arith_of_not_lt h]
    exact ⟨(fun hk => nomatch hk), fun hk => absurd hk.1 h⟩

def targetIndex (W : Nat) (cv : Canvas) (i j : Nat) : Nat :=
  W * (cv.y1.toNat + j) + (cv.x1.toNat + i)

def sourceIndex (w h : Nat) (cv : Canvas) (i j : Nat) : Nat :=
  w * (j * h / cv.h1.toNat) + i * w / cv.w1.toNat

theorem scaled_lt {i n k : Nat} (hi : i < n) (hk : 0 < k) : i * k / n < k :=
  Nat.div_lt_of_lt_mul (Nat.mul_lt_mul_of_pos_right hi hk)

theorem index_lt {a b : Nat} (ha : a < W) (hb : b < H) : W * b + a < W * H := by
  have hrow : W * (b + 1) ≤ W * H := Nat.mul_le_mul_left W hb
  rw [Nat.mul_succ] at hrow
  omega

theorem sourceIndex_lt {i j : Nat} (hw : 0 < w) (hh : 0 < h) (hi : i < cv.w1.toNat)
    (hj : j < cv.h1.toNat) : sourceIndex w h cv i j < w * h :=
  index_lt (scaled_lt hi hw) (scaled_lt hj hh)

/-- One round is defined if three of its results are, since the canvas has fewer than `2^31`
pixels. -/
theorem copyPixel_eq_some {i j : Nat} {c : Access} (hw : 0 < w) (hh : 0 < h)
    (harea : w * h < 2147483648) (hi : i < cv.w1.toNat) (hj : j < cv.h1.toNat) :
    copyPixel m cv W px w h pxLocal (i, j) = some c ↔
      (i * w < 2147483648 ∧ j * h < 2147483648 ∧ targetIndex W cv i j < 2147483648) ∧
        c = .copy (m.ptr (px + 3 * (targetIndex W cv i j : Nat)))
          (m.ptr (pxLocal + 3 * (sourceIndex w h cv i j : Nat))) := by
  have hsource := sourceIndex_lt hw hh hi hj
  have hx := cv.x1.toNat_lt
  have hy := cv.y1.toNat_lt
  have hw1 := cv.w1.toNat_lt
  have hh1 := cv.h1.toNat_lt
  unfold targetIndex
  unfold sourceIndex at hsource ⊢
  have hsum := Nat.lt_trans hsource harea
  have hrow : w * (j * h / cv.h1.toNat) < 2147483648 :=
    Nat.lt_of_le_of_lt (Nat.le_add_right _ _) hsum
  simp only [copyPixel, Option.bind_eq_bind, Option.bind_eq_some_iff, arith_eq_some,
    Option.pure_def, Option.some.injEq]
  constructor
  · rintro ⟨_, ⟨_, rfl⟩, _, ⟨_, rfl⟩, _, ⟨_, rfl⟩, _, ⟨htarget, rfl⟩, _, ⟨hdown, rfl⟩, _, ⟨_, rfl⟩,
      _, ⟨hacross, rfl⟩, _, ⟨_, rfl⟩, rfl⟩
    exact ⟨⟨hacross, hdown, htarget⟩, rfl⟩
  · rintro ⟨⟨hacross, hdown, htarget⟩, rfl⟩
    exact ⟨_, ⟨by omega, rfl⟩, _, ⟨by omega, rfl⟩, _, ⟨by omega, rfl⟩, _, ⟨htarget, rfl⟩, _,
      ⟨hdown, rfl⟩, _, ⟨hrow, rfl⟩, _, ⟨hacross, rfl⟩, _, ⟨hsum, rfl⟩, rfl⟩

/-! ## Tasks -/

inductive Task where
  | alloc (w h : Nat)
  | draw (W : Nat) (cv : Canvas) (w h : Nat)
  deriving DecidableEq, Repr

/-- Why a list of tasks does not come to its end: `vbuf_alloc` panics, or something overflows
or is outside the buffers. -/
inductive Early where
  | noMemory
  | leaves
  deriving DecidableEq, Repr

namespace Task

def Fits : Task → Prop
  | alloc w h => w * h < 2147483648
  | draw W cv w h => cv.w1.toNat = 0 ∨ cv.h1.toNat = 0 ∨
    ((cv.w1.toNat - 1) * w < 2147483648 ∧ (cv.h1.toNat - 1) * h < 2147483648 ∧
      targetIndex W cv (cv.w1.toNat - 1) (cv.h1.toNat - 1) < 2147483648)

instance : DecidablePred Fits
  | alloc _ _ => inferInstanceAs (Decidable (_ < _))
  | draw _ _ _ _ => inferInstanceAs (Decidable (_ ∨ _))

def size : Task → Nat
  | alloc w h => 3 * (w * h)
  | draw _ _ _ _ => 0

@[simp] theorem size_alloc (w h : Nat) : (alloc w h).size = 3 * (w * h) := rfl

@[simp] theorem size_draw (W : Nat) (cv : Canvas) (w h : Nat) : (draw W cv w h).size = 0 := rfl

def move (m : Device) (head : Int) : Task → Int
  | alloc w h => m.ptr (head + int ((w * h : Nat) * 3))
  | draw _ _ _ _ => head

theorem move_alloc (m : Device) (head : Int) (w h : Nat) :
    (alloc w h).move m head = m.ptr (head + int ((w * h : Nat) * 3)) := rfl

/-- The head after the task, if the task neither overflows nor needs more than is left. -/
def run (m : Device) (head : Int) (t : Task) : Except Early Int :=
  if ¬ t.Fits then .error .leaves
  else if (m.vbuf : Int) + VMEM_SIZE < t.move m head then .error .noMemory
  else if head + t.size ≤ m.vbuf + VMEM_SIZE then .ok (head + t.size)
  else .error .leaves

end Task

/-- A subtree is allocated before its children are rendered, and drawn afterwards. -/
def canvasTasks (W : Nat) (cv : Canvas) (below : List Task) : List Task :=
  if cv.type = AM_GPU_TEXTURE then [.draw W cv cv.texture.w.toNat cv.texture.h.toNat]
  else .alloc cv.w.toNat cv.h.toNat :: (below ++ [.draw W cv cv.w.toNat cv.h.toNat])

def tasks : Nat → Forest Canvas → List Task
  | _, .nil => []
  | W, .cons cv sons siblings =>
    canvasTasks W cv (tasks cv.w.toNat sons) ++ tasks W siblings

def totalSize : List Task → Nat
  | [] => 0
  | t :: ts => t.size + totalSize ts

@[simp] theorem totalSize_nil : totalSize [] = 0 := rfl

@[simp] theorem totalSize_cons (t : Task) (ts : List Task) :
    totalSize (t :: ts) = t.size + totalSize ts := rfl

@[simp] theorem totalSize_append (ts₁ ts₂ : List Task) :
    totalSize (ts₁ ++ ts₂) = totalSize ts₁ + totalSize ts₂ := by
  induction ts₁ with
  | nil => simp
  | cons t ts ih => simp [ih, Nat.add_assoc]

def drawn (m : Device) (cv : Canvas) (W : Nat) (px : Int) (w h : Nat) (pxLocal : Int) :
    List Access :=
  ((List.range cv.w1.toNat).product (List.range cv.h1.toNat)).map fun ij =>
    .copy (m.ptr (px + 3 * (targetIndex W cv ij.1 ij.2 : Nat)))
      (m.ptr (pxLocal + 3 * (sourceIndex w h cv ij.1 ij.2 : Nat)))

theorem mem_pixels {ij : Nat × Nat} :
    ij ∈ (List.range cv.w1.toNat).product (List.range cv.h1.toNat) ↔
      ij.1 < cv.w1.toNat ∧ ij.2 < cv.h1.toNat := by
  obtain ⟨i, j⟩ := ij
  rw [List.pair_mem_product, List.mem_range, List.mem_range]

theorem mem_drawn {c : Access} (hc : c ∈ drawn m cv W px w h pxLocal) :
    ∃ i < cv.w1.toNat, ∃ j < cv.h1.toNat,
      c = .copy (m.ptr (px + 3 * (targetIndex W cv i j : Nat)))
        (m.ptr (pxLocal + 3 * (sourceIndex w h cv i j : Nat))) := by
  obtain ⟨⟨i, j⟩, hij, rfl⟩ := List.mem_map.1 hc
  obtain ⟨hi, hj⟩ := mem_pixels.1 hij
  exact ⟨i, hi, j, hj, rfl⟩

/-- The products that a drawing computes fit into `int` if those of its last pixel do. -/
theorem draw_fits_iff (m : Device) (px pxLocal : Int) (hw : 0 < w) (hh : 0 < h)
    (harea : w * h < 2147483648) :
    (Task.draw W cv w h).Fits ↔
      ∀ ij ∈ (List.range cv.w1.toNat).product (List.range cv.h1.toNat),
        copyPixel m cv W px w h pxLocal ij =
          some (.copy (m.ptr (px + 3 * (targetIndex W cv ij.1 ij.2 : Nat)))
            (m.ptr (pxLocal + 3 * (sourceIndex w h cv ij.1 ij.2 : Nat)))) := by
  constructor
  · rintro hfits ⟨i, j⟩ hij
    obtain ⟨hi, hj⟩ := mem_pixels.1 hij
    dsimp only at hi hj
    have hfits' : (cv.w1.toNat - 1) * w < 2147483648 ∧ (cv.h1.toNat - 1) * h < 2147483648 ∧
        targetIndex W cv (cv.w1.toNat - 1) (cv.h1.toNat - 1) < 2147483648 :=
      (hfits.resolve_left (by omega)).resolve_left (by omega)
    obtain ⟨hacross, hdown, htarget⟩ := hfits'
    have hacross' : i * w ≤ (cv.w1.toNat - 1) * w := Nat.mul_le_mul_right w (by omega)
    have hdown' : j * h ≤ (cv.h1.toNat - 1) * h := Nat.mul_le_mul_right h (by omega)
    have hrow : W * (cv.y1.toNat + j) ≤ W * (cv.y1.toNat + (cv.h1.toNat - 1)) :=
      Nat.mul_le_mul_left W (by omega)
    have htarget' : targetIndex W cv i j < 2147483648 := by
      unfold targetIndex at htarget ⊢
      omega
    exact (copyPixel_eq_some hw hh harea hi hj).2 ⟨⟨by omega, by omega, htarget'⟩, rfl⟩
  · intro hall
    by_cases hempty : cv.w1.toNat = 0 ∨ cv.h1.toNat = 0
    · cases hempty with
      | inl hempty => exact .inl hempty
      | inr hempty => exact .inr (.inl hempty)
    · have hi : cv.w1.toNat - 1 < cv.w1.toNat := by omega
      have hj : cv.h1.toNat - 1 < cv.h1.toNat := by omega
      have hlast := hall (cv.w1.toNat - 1, cv.h1.toNat - 1) (mem_pixels.2 ⟨hi, hj⟩)
      exact .inr (.inr ((copyPixel_eq_some hw hh harea hi hj).1 hlast).1)

/-! ## Allocations -/

theorem localSize_eq_some {n : Int} :
    localSize w h = some n ↔ w * h < 2147483648 ∧ int ((w * h : Nat) * 3) = n := by
  unfold localSize
  by_cases harea : w * h < 2147483648
  · rw [arith_of_lt harea]
    exact ⟨fun hn => ⟨harea, Option.some_inj.1 hn⟩, fun hn => congrArg some hn.2⟩
  · rw [arith_of_not_lt harea]
    exact ⟨(fun hn => nomatch hn), fun hn => absurd hn.1 harea⟩

theorem int_size {n : Nat} (hn : 3 * n ≤ VMEM_SIZE) : int ((n : Nat) * 3) = (3 * n : Nat) := by
  have hsize : VMEM_SIZE = 524288 := rfl
  unfold int
  rw [Int.bmod_eq_of_le (by omega) (by omega)]
  omega

/-- As long as the local buffers fit into `vbuf`, the head moves by their sizes. -/
theorem move_eq {t : Task} (hstart : m.vbuf ≤ head) (hfinish : head + t.size ≤ m.vbuf + VMEM_SIZE) :
    t.move m head = head + t.size := by
  have hspace := m.vbuf_lt
  cases t with
  | alloc w h =>
      rw [Task.size_alloc] at hfinish ⊢
      rw [Task.move_alloc, int_size (by omega), ptr_eq (by omega) (by omega)]
  | draw W cv w h => exact (Int.add_zero head).symm

theorem run_eq_ok {t : Task} {next : Int} (hstart : m.vbuf ≤ head) :
    t.run m head = .ok next ↔
      t.Fits ∧ head + t.size ≤ m.vbuf + VMEM_SIZE ∧ next = head + t.size := by
  unfold Task.run
  constructor
  · intro hrun
    split at hrun
    · cases hrun
    next hfits =>
      split at hrun
      · cases hrun
      · split at hrun
        next hroom =>
          cases hrun
          exact ⟨Decidable.not_not.1 hfits, hroom, rfl⟩
        · cases hrun
  · rintro ⟨hfits, hroom, rfl⟩
    have hmove := move_eq hstart hroom
    rw [if_neg (not_not_intro hfits), if_neg (by omega), if_pos hroom]

theorem run_eq_noMemory {t : Task} :
    t.run m head = .error .noMemory ↔ t.Fits ∧ (m.vbuf : Int) + VMEM_SIZE < t.move m head := by
  unfold Task.run
  constructor
  · intro hrun
    split at hrun
    · cases hrun
    next hfits =>
      split at hrun
      next hmove => exact ⟨Decidable.not_not.1 hfits, hmove⟩
      · split at hrun
        · cases hrun
        · cases hrun
  · rintro ⟨hfits, hmove⟩
    rw [if_neg (not_not_intro hfits), if_pos hmove]

theorem run_eq_leaves {t : Task} (hfits : t.Fits)
    (hmove : ¬ (m.vbuf : Int) + VMEM_SIZE < t.move m head)
    (hroom : ¬ head + t.size ≤ m.vbuf + VMEM_SIZE) : t.run m head = .error .leaves := by
  rw [Task.run, if_neg (not_not_intro hfits), if_neg hmove, if_neg hroom]

theorem tasks_eq_ok {ts : List Task} {next : Int} (hstart : m.vbuf ≤ head)
    (hfinish : head ≤ m.vbuf + VMEM_SIZE) :
    ts.foldlM (Task.run m) head = .ok next ↔
      (∀ t ∈ ts, t.Fits) ∧ head + totalSize ts ≤ m.vbuf + VMEM_SIZE ∧
        next = head + totalSize ts := by
  induction ts generalizing head with
  | nil =>
      rw [totalSize_nil, Int.natCast_zero, Int.add_zero]
      constructor
      · intro hrun
        cases hrun
        exact ⟨by simp, hfinish, rfl⟩
      · rintro ⟨-, -, rfl⟩
        rfl
  | cons t ts ih =>
      rw [List.foldlM_cons, bind_eq_ok, totalSize_cons, List.forall_mem_cons, Int.natCast_add,
        ← Int.add_assoc]
      constructor
      · rintro ⟨top, ht, hrest⟩
        obtain ⟨hfits, hroom, rfl⟩ := (run_eq_ok hstart).1 ht
        obtain ⟨hall, hrest⟩ := (ih (by omega) hroom).1 hrest
        exact ⟨⟨hfits, hall⟩, hrest⟩
      · rintro ⟨⟨hfits, hall⟩, hrest⟩
        have hroom : head + t.size ≤ m.vbuf + VMEM_SIZE := by omega
        exact ⟨_, (run_eq_ok hstart).2 ⟨hfits, hroom, rfl⟩,
          (ih (by omega) hroom).2 ⟨hall, hrest⟩⟩

/-- Some tasks fit, one after the other, and the next one, which does not overflow either,
moves the head behind the end of `vbuf`. -/
def NoMemory (m : Device) (head : Int) (ts : List Task) : Prop :=
  ∃ before t, before ++ [t] <+: ts ∧ (∀ u ∈ before, u.Fits) ∧
    head + totalSize before ≤ m.vbuf + VMEM_SIZE ∧ t.Fits ∧
      (m.vbuf : Int) + VMEM_SIZE < t.move m (head + totalSize before)

theorem noMemory_cons {t : Task} {ts : List Task} (hfinish : head ≤ m.vbuf + VMEM_SIZE) :
    NoMemory m head (t :: ts) ↔ t.Fits ∧ ((m.vbuf : Int) + VMEM_SIZE < t.move m head ∨
      head + t.size ≤ m.vbuf + VMEM_SIZE ∧ NoMemory m (head + t.size) ts) := by
  constructor
  · rintro ⟨before, u, hprefix, hfits, hroom, hu, hmove⟩
    cases before with
    | nil =>
        obtain rfl : u = t := (List.cons_prefix_cons.1 hprefix).1
        rw [totalSize_nil, Int.natCast_zero, Int.add_zero] at hmove
        exact ⟨hu, .inl hmove⟩
    | cons b before =>
        obtain ⟨rfl, hrest⟩ := List.cons_prefix_cons.1 hprefix
        obtain ⟨hb, hbefore⟩ := List.forall_mem_cons.1 hfits
        rw [totalSize_cons, Int.natCast_add, ← Int.add_assoc] at hroom hmove
        exact ⟨hb, .inr ⟨by omega, before, u, hrest, hbefore, hroom, hu, hmove⟩⟩
  · rintro ⟨ht, hmove | ⟨hroom, before, u, hprefix, hfits, hbefore, hu, hmove⟩⟩
    · refine ⟨[], t, List.cons_prefix_cons.2 ⟨rfl, List.nil_prefix⟩, by simp, ?_, ht, ?_⟩
      · simpa using hfinish
      · simpa using hmove
    · refine ⟨t :: before, u, List.cons_prefix_cons.2 ⟨rfl, hprefix⟩,
        List.forall_mem_cons.2 ⟨ht, hfits⟩, ?_, hu, ?_⟩
      · rwa [totalSize_cons, Int.natCast_add, ← Int.add_assoc]
      · rwa [totalSize_cons, Int.natCast_add, ← Int.add_assoc]

theorem tasks_eq_noMemory {ts : List Task} (hstart : m.vbuf ≤ head)
    (hfinish : head ≤ m.vbuf + VMEM_SIZE) :
    ts.foldlM (Task.run m) head = .error .noMemory ↔ NoMemory m head ts := by
  induction ts generalizing head with
  | nil =>
      constructor
      · intro hrun
        cases hrun
      · rintro ⟨before, t, hprefix, -⟩
        simp at hprefix
  | cons t ts ih =>
      rw [List.foldlM_cons, bind_eq_error, noMemory_cons hfinish, run_eq_noMemory]
      constructor
      · rintro (⟨hfits, hmove⟩ | ⟨top, ht, hrest⟩)
        · exact ⟨hfits, .inl hmove⟩
        · obtain ⟨hfits, hroom, rfl⟩ := (run_eq_ok hstart).1 ht
          exact ⟨hfits, .inr ⟨hroom, (ih (by omega) hroom).1 hrest⟩⟩
      · rintro ⟨hfits, hmove | ⟨hroom, hrest⟩⟩
        · exact .inl ⟨hfits, hmove⟩
        · exact .inr ⟨_, (run_eq_ok hstart).2 ⟨hfits, hroom, rfl⟩,
            (ih (by omega) hroom).2 hrest⟩

end OSLabs.Gpu
