import OSLabs.Gpu.CanvasTree

/-! # Where a rendering reads and writes

A rendering that stays in its buffers reads `vmem` and the local buffer of the canvas that
is drawn, writes `vbuf` and the frame buffer, and never has two local buffers in use that
overlap. The size of a local buffer is computed in `int`, and so are the indices into the
pixels of a canvas. A rendering stays in its buffers exactly if all local buffers together
fit into `vbuf` and nothing overflows, or if this is so up to an allocation that panics.
-/

namespace OSLabs.Gpu

open Lib

variable {m : Device} {mem now : Memory} {W H w h : Nat} {p : UInt32} {cv : Canvas}
  {px pxLocal head : Int} {live : List Region} {ts : List Task} {s : Progress}

/-- What is read lies in `vmem` or in the own local buffer, what is written in `vbuf` or in
the frame buffer. The local buffers in use are parts of `vbuf` and do not overlap. -/
structure Event.Ok (m : Device) (e : Event) : Prop where
  reads : ∀ r ∈ e.access.reads, m.vmemRegion.Holds r ∨ ∃ b, e.own = some b ∧ b.Holds r
  writes : e.access.Lands m
  buffers : ∀ b ∈ e.live, m.vbufRegion.Holds b
  apart : e.live.Pairwise Region.Apart

/-- `gpu_render` returns or panics with "no memory", and every access until then is inside the
buffers. -/
def StaysInBuffers (m : Device) (mem : Memory) (root : UInt32) : Prop :=
  ∃ bound, ∀ fuel > bound, ∃ s, (gpuRender m mem fuel root = .ok () s ∨
    gpuRender m mem fuel root = .error .noMemory s) ∧ ∀ e ∈ s.log, e.Ok m

/-! ## Single accesses -/

def Drawable (m : Device) (px : Int) (area : Nat) : Prop :=
  ∀ k < area, m.vbufRegion.Holds ⟨m.ptr (px + 3 * (k : Nat)), 3⟩ ∨
    m.fbRegion.Holds ⟨m.ptr (px + 3 * (k : Nat)), 3⟩

theorem drawable_fb (m : Device) : Drawable m m.fb (m.display.w.toNat * m.display.h.toNat) := by
  intro k hk
  have hspace := m.fb_lt
  rw [ptr_eq (by omega) (by omega)]
  exact .inr (Region.mk_holds.2 ⟨by omega, by omega⟩)

theorem local_pixel (hstart : m.vbuf ≤ head)
    (hfinish : head + (3 * (w * h) : Nat) ≤ m.vbuf + VMEM_SIZE) {k : Nat} (hk : k < w * h) :
    (Region.mk head (3 * (w * h : Nat))).Holds ⟨m.ptr (head + 3 * (k : Nat)), 3⟩ := by
  have hspace := m.vbuf_lt
  rw [ptr_eq (by omega) (by omega)]
  exact Region.mk_holds.2 ⟨by omega, by omega⟩

theorem local_held (hstart : m.vbuf ≤ head) :
    m.vbufRegion.Holds ⟨head, 3 * (w * h : Nat)⟩ ↔
      head + (3 * (w * h) : Nat) ≤ m.vbuf + VMEM_SIZE := by
  constructor
  · intro hheld
    have hbounds := Region.mk_holds.1 hheld
    omega
  · intro hfinish
    exact Region.mk_holds.2 ⟨hstart, by omega⟩

theorem push_local (stacked : Stacked m.vbufRegion live head) (hstart : m.vbuf ≤ head)
    (hfinish : head + (3 * (w * h) : Nat) ≤ m.vbuf + VMEM_SIZE) :
    Stacked m.vbufRegion (⟨head, 3 * (w * h : Nat)⟩ :: live) (head + 3 * (w * h : Nat)) :=
  stacked.push (by omega) hstart ((local_held hstart).2 hfinish).2

theorem drawable_local (hstart : m.vbuf ≤ head)
    (hfinish : head + (3 * (w * h) : Nat) ≤ m.vbuf + VMEM_SIZE) : Drawable m head (w * h) :=
  fun _ hk => .inl (((local_held hstart).2 hfinish).trans (local_pixel hstart hfinish hk))

theorem Placed.read_ok (placed : Placed m mem W H p cv) (stacked : Stacked m.vbufRegion live head) :
    Event.Ok m ⟨.canvas (toHost m p), none, live⟩ where
  reads := by
    intro r hr
    rw [List.mem_singleton.1 hr, placed.toHost_eq]
    have hinside := placed.inside
    exact .inl (Region.mk_holds.2 ⟨by omega, by omega⟩)
  writes := by simp [Access.Lands, Access.writes]
  buffers := stacked.inside
  apart := stacked.apart

theorem Placed.read_all_ok (placed : Placed m mem W H p cv)
    (stacked : Stacked m.vbufRegion live head) :
    ∀ e ∈ [Event.mk (.canvas (toHost m p)) none live], e.Ok m := by
  simpa using placed.read_ok stacked

/-- A canvas is drawn inside its parent, from pixels that may be read. -/
theorem Placed.drawn_ok (placed : Placed m mem W H p cv) (stacked : Stacked m.vbufRegion live head)
    (hw : 0 < w) (hh : 0 < h) (drawable : Drawable m px (W * H)) {own : Option Region}
    (source : ∀ k < w * h, m.vmemRegion.Holds ⟨m.ptr (pxLocal + 3 * (k : Nat)), 3⟩ ∨
      ∃ b, own = some b ∧ b.Holds ⟨m.ptr (pxLocal + 3 * (k : Nat)), 3⟩) :
    ∀ c ∈ drawn m cv W px w h pxLocal, Event.Ok m ⟨c, own, live⟩ := by
  intro c hc
  obtain ⟨i, hi, j, hj, rfl⟩ := mem_drawn hc
  have hright := placed.right
  have hbottom := placed.bottom
  have htarget : targetIndex W cv i j < W * H := index_lt (by omega) (by omega)
  refine ⟨?_, ?_, stacked.inside, stacked.apart⟩
  · intro r hr
    rw [List.mem_singleton.1 hr]
    exact source _ (sourceIndex_lt hw hh hi hj)
  · intro r hr
    rw [List.mem_singleton.1 hr]
    exact drawable _ htarget

theorem zero_lands (hstart : m.vbuf ≤ head)
    (hroom : head + (3 * (w * h) : Nat) ≤ m.vbuf + VMEM_SIZE) :
    (Access.zero head (int ((w * h : Nat) * 3))).Lands m := by
  intro r hr
  rw [int_size (by omega), Access.writes] at hr
  split at hr
  · rw [List.mem_singleton.1 hr]
    exact .inl (Region.mk_holds.2 ⟨hstart, by omega⟩)
  · cases hr

theorem zero_ok_iff (stacked : Stacked m.vbufRegion live head) (hstart : m.vbuf ≤ head) :
    Event.Ok m ⟨.zero head (int ((w * h : Nat) * 3)), some (localBuffer head w h),
        localBuffer head w h :: live⟩ ↔
      head + (3 * (w * h) : Nat) ≤ m.vbuf + VMEM_SIZE := by
  constructor
  · intro hok
    exact (local_held hstart).1 (hok.buffers _ List.mem_cons_self)
  · intro hroom
    have pushed := push_local stacked hstart hroom
    exact ⟨by simp [Access.reads], zero_lands hstart hroom, pushed.inside, pushed.apart⟩

/-! ## The memory -/

theorem Event.Ok.perform_eq {e : Event} (ok : e.Ok m) {a : Int} (ha : m.vmemRegion.Has a) :
    e.access.perform mem a = mem a := by
  have hvbuf : m.vmemRegion.Apart m.vbufRegion := by
    have hapart := m.vmem_vbuf
    exact Region.mk_apart.2 (by omega)
  have hfb : m.vmemRegion.Apart m.fbRegion := by
    have hapart := m.vmem_fb
    exact Region.mk_apart.2 (by omega)
  have hnot : ∀ r ∈ e.access.writes, ¬ r.Has a := by
    intro r hr has
    rcases ok.writes r hr with hheld | hheld
    · exact hvbuf.not_has ha (hheld.has has)
    · exact hfb.not_has ha (hheld.has has)
  cases haccess : e.access with
  | canvas b => rfl
  | zero start size =>
      refine if_neg fun has => ?_
      have hbounds := Region.mk_has.1 has
      have hsize : 0 < size := by omega
      exact hnot ⟨start, size⟩ (by simp [haccess, Access.writes, hsize]) has
  | copy dst src =>
      exact if_neg (hnot ⟨dst, 3⟩ (by simp [haccess, Access.writes]))

/-- Accesses inside the buffers leave the canvases and textures as they are. -/
theorem SameVmem.after {log : List Event} (same : SameVmem m mem now) (hok : ∀ e ∈ log, e.Ok m) :
    SameVmem m mem (performAll now log) := by
  induction log generalizing now with
  | nil => exact same
  | cons e log ih =>
      obtain ⟨he, hlog⟩ := List.forall_mem_cons.1 hok
      exact ih (fun a ha => (he.perform_eq ha).trans (same a ha)) hlog

/-! ## Progress -/

@[simp] theorem Progress.after_head (s : Progress) (log : List Event) (next : Int) :
    (s.after log next).head = next := rfl

@[simp] theorem Progress.after_mem (s : Progress) (log : List Event) (next : Int) :
    (s.after log next).mem = performAll s.mem log := rfl

theorem Progress.after_nil (s : Progress) : s.after [] s.head = s := by
  unfold after
  rw [List.append_nil]
  rfl

theorem performAll_append (now : Memory) (log rest : List Event) :
    performAll now (log ++ rest) = performAll (performAll now log) rest := List.foldl_append

theorem Progress.after_after (s : Progress) (log rest : List Event) (next last : Int) :
    (s.after log next).after rest last = s.after (log ++ rest) last := by
  unfold after
  rw [performAll_append, List.append_assoc]

abbrev Grows {α : Type} (f : Rendering α) : Prop := Keeps (fun s s' => s.log <+: s'.log) f

theorem Grows.bind {α β : Type} {f : Rendering α} {g : α → Rendering β} (hf : Grows f)
    (hg : ∀ a, Grows (g a)) : Grows (f >>= g) := Keeps.bind List.IsPrefix.trans hf hg

theorem grows_pure {α : Type} (a : α) : Grows (pure a) :=
  Keeps.pure (fun s => List.prefix_refl s.log) a

theorem grows_throw {α : Type} (stop : Stop) : Grows (throw stop : Rendering α) :=
  Keeps.throw (fun s => List.prefix_refl s.log) stop

theorem grows_get : Grows get := fun s => List.prefix_refl s.log

theorem grows_modify_head (next : Int) :
    Grows (modify fun s => { s with head := next }) := fun s => List.prefix_refl s.log

theorem grows_access (own : Option Region) (live : List Region) (c : Access) :
    Grows (access m own live c) := by
  intro s
  unfold access
  by_cases hlands : c.Lands m
  · simp only [if_pos hlands]
    exact List.prefix_append _ _
  · simp only [if_neg hlands]
    exact List.prefix_append _ _

theorem grows_defined {α : Type} (result : Option α) : Grows (defined result) := by
  cases result with
  | none => exact grows_throw .overflow
  | some a => exact grows_pure a

theorem grows_vbufAlloc (size : Int) : Grows (vbufAlloc m w h live size) := by
  unfold vbufAlloc
  apply grows_get.bind
  intro s
  apply (grows_modify_head _).bind
  intro _
  split
  · exact grows_throw .noMemory
  · exact (grows_access _ _ _).bind fun _ => grows_pure _

theorem grows_drawLocal (own : Option Region) :
    Grows (drawLocal m cv W px w h pxLocal own live) :=
  Keeps.forM (R := fun s s' : Progress => s.log <+: s'.log) (fun s => List.prefix_refl s.log)
    List.IsPrefix.trans
    (fun _ => (grows_defined _).bind fun _ => grows_access _ _ _) _

theorem grows_forChildren {call : Int → Rendering Unit} (hcall : ∀ ch, Grows (call ch))
    (fuel : Nat) (ch : Int) : Grows (forChildren m call fuel ch) := by
  induction fuel generalizing ch with
  | zero => exact grows_throw .fuel
  | succ fuel ih =>
      unfold forChildren
      split
      · exact grows_pure ()
      · exact (hcall ch).bind fun _ => grows_get.bind fun _ => ih _

theorem grows_render (fuel : Nat) (a : Int) (W : Nat) (px : Int) (live : List Region) :
    Grows (render m fuel a W px live) := by
  induction fuel generalizing a W px live with
  | zero => exact grows_throw .fuel
  | succ fuel ih =>
      unfold render
      apply (grows_access _ _ _).bind
      intro _
      apply grows_get.bind
      intro s
      dsimp only
      split
      · exact grows_drawLocal none
      · split
        · apply (grows_defined _).bind
          intro size
          apply (grows_vbufAlloc size).bind
          intro pxLocal
          apply grows_get.bind
          intro s
          apply (grows_forChildren (fun ch => ih ch _ _ _) _ _).bind
          intro _
          exact grows_get.bind fun s => grows_drawLocal _
        · exact grows_throw .invalidNode

/-! ## Results -/

/-- Something overflows, or an access is outside the buffers. -/
def Leaves {α : Type} (m : Device) (r : EStateM.Result Stop Progress α) : Prop :=
  (∃ s, r = .error .overflow s) ∨ ∃ e ∈ (finalState r).log, ¬ e.Ok m

theorem Leaves.bind {α β : Type} {f : Rendering α} {g : α → Rendering β} (hleaves : Leaves m (f s))
    (hg : ∀ a, Grows (g a)) : Leaves m ((f >>= g) s) := by
  cases hf : f s with
  | error stop s' =>
      rw [bind_of_error hf]
      rw [hf] at hleaves
      cases hleaves with
      | inl hstop =>
          obtain ⟨_, hstop⟩ := hstop
          cases hstop
          exact .inl ⟨_, rfl⟩
      | inr hbad => exact .inr hbad
  | ok a s' =>
      rw [bind_of_ok hf]
      rw [hf] at hleaves
      cases hleaves with
      | inl hstop => exact nomatch hstop
      | inr hbad =>
          obtain ⟨e, he, hbad⟩ := hbad
          exact .inr ⟨e, (hg a s').subset he, hbad⟩

/-- A part of the rendering, from `s` on, does what its tasks come to. -/
def Does (m : Device) (s : Progress) (r : EStateM.Result Stop Progress Unit) :
    Except Early Int → Prop
  | .ok next => ∃ log, (∀ e ∈ log, e.Ok m) ∧ r = .ok () (s.after log next)
  | .error .noMemory => ∃ log next, (∀ e ∈ log, e.Ok m) ∧ r = .error .noMemory (s.after log next)
  | .error .leaves => Leaves m r

theorem Does.after {log : List Event} {next : Int} (hlog : ∀ e ∈ log, e.Ok m)
    {r : EStateM.Result Stop Progress Unit} {x : Except Early Int}
    (does : Does m (s.after log next) r x) : Does m s r x := by
  cases x with
  | ok last =>
      obtain ⟨rest, hrest, hr⟩ := does
      exact ⟨log ++ rest, List.forall_mem_append.2 ⟨hlog, hrest⟩, by rw [hr, s.after_after]⟩
  | error early =>
      cases early with
      | noMemory =>
          obtain ⟨rest, last, hrest, hr⟩ := does
          exact ⟨log ++ rest, last, List.forall_mem_append.2 ⟨hlog, hrest⟩,
            by rw [hr, s.after_after]⟩
      | leaves => exact does

theorem Does.bind {f g : Rendering Unit} {x : Except Early Int} {y : Int → Except Early Int}
    (hf : Does m s (f s) x)
    (hg : ∀ log next, x = .ok next → (∀ e ∈ log, e.Ok m) →
      Does m (s.after log next) (g (s.after log next)) (y next))
    (grows : Grows g) : Does m s ((f >>= fun _ => g) s) (x >>= y) := by
  cases x with
  | ok next =>
      obtain ⟨log, hlog, hr⟩ := hf
      rw [bind_of_ok hr]
      exact (hg log next rfl hlog).after hlog
  | error early =>
      cases early with
      | noMemory =>
          obtain ⟨log, next, hlog, hr⟩ := hf
          exact ⟨log, next, hlog, bind_of_error hr⟩
      | leaves => exact Leaves.bind hf fun _ => grows

/-! ## Tasks -/

theorem toNat_pos {n : UInt16} (hn : n ≠ 0) : 0 < n.toNat :=
  Nat.pos_of_ne_zero fun hzero => hn (UInt16.toNat_inj.1 hzero)

theorem access_of_lands {own : Option Region} {c : Access} (hlands : c.Lands m) :
    access m own live c s = .ok () (s.after [⟨c, own, live⟩] s.head) := if_pos hlands

theorem canvas_lands (a : Int) : (Access.canvas a).Lands m := by
  simp [Access.Lands, Access.writes]

theorem Progress.foldl_after (s : Progress) (log : List Event) :
    log.foldl (fun s e => s.after [e] s.head) s = s.after log s.head := by
  induction log generalizing s with
  | nil => exact s.after_nil.symm
  | cons e log ih =>
      rw [List.foldl_cons, ih, s.after_head, s.after_after]
      rfl

/-- A canvas is drawn if nothing overflows and all its pixels may be written. -/
theorem drawLocal_run {own : Option Region} (hw : 0 < w) (hh : 0 < h) (harea : w * h < 2147483648)
    (hfits : (Task.draw W cv w h).Fits) (hlands : ∀ c ∈ drawn m cv W px w h pxLocal, c.Lands m) :
    drawLocal m cv W px w h pxLocal own live s = .ok () (s.after
      ((drawn m cv W px w h pxLocal).map fun c => ⟨c, own, live⟩) s.head) := by
  have hcopies := (draw_fits_iff m px pxLocal hw hh harea).1 hfits
  refine (forM_of_ok (g := fun s ij => s.after [⟨.copy
    (m.ptr (px + 3 * (targetIndex W cv ij.1 ij.2 : Nat)))
    (m.ptr (pxLocal + 3 * (sourceIndex w h cv ij.1 ij.2 : Nat))), own, live⟩] s.head) ?_).trans ?_
  · intro ij hij s
    rw [hcopies ij hij]
    exact access_of_lands (hlands _ (List.mem_map.2 ⟨ij, hij, rfl⟩))
  · rw [← Progress.foldl_after, drawn, List.foldl_map, List.foldl_map]

theorem does_draw {own : Option Region} (hw : 0 < w) (hh : 0 < h) (harea : w * h < 2147483648)
    (hstart : m.vbuf ≤ s.head) (hfinish : s.head ≤ m.vbuf + VMEM_SIZE)
    (hok : ∀ c ∈ drawn m cv W px w h pxLocal, Event.Ok m ⟨c, own, live⟩) :
    Does m s (drawLocal m cv W px w h pxLocal own live s)
      ((Task.draw W cv w h).run m s.head) := by
  by_cases hfits : (Task.draw W cv w h).Fits
  · have hrun : (Task.draw W cv w h).run m s.head = .ok s.head :=
      (run_eq_ok hstart).2 ⟨hfits, by simpa using hfinish, by simp⟩
    rw [hrun]
    refine ⟨(drawn m cv W px w h pxLocal).map fun c => ⟨c, own, live⟩, ?_,
      drawLocal_run hw hh harea hfits fun c hc => (hok c hc).writes⟩
    intro e he
    obtain ⟨c, hc, rfl⟩ := List.mem_map.1 he
    exact hok c hc
  · have hrun : (Task.draw W cv w h).run m s.head = .error .leaves := if_pos hfits
    rw [hrun]
    cases hdraw : drawLocal m cv W px w h pxLocal own live s with
    | ok u s' =>
        -- All rounds have ended, so that nothing has overflowed.
        refine absurd ((draw_fits_iff m px pxLocal hw hh harea).2 ?_) hfits
        intro ij hij
        obtain ⟨s₁, s₂, hround⟩ := forM_ok_mem hdraw hij
        obtain ⟨hi, hj⟩ := mem_pixels.1 hij
        cases hcopy : copyPixel m cv W px w h pxLocal ij with
        | none =>
            rw [hcopy] at hround
            exact nomatch hround
        | some c => rw [((copyPixel_eq_some hw hh harea hi hj).1 hcopy).2]
    | error stop s' =>
        obtain ⟨ij, hij, s₁, hround⟩ := forM_error_mem hdraw
        cases hcopy : copyPixel m cv W px w h pxLocal ij with
        | none =>
            rw [hcopy] at hround
            cases hround
            exact .inl ⟨_, rfl⟩
        | some c =>
            rw [hcopy] at hround
            change access m own live c s₁ = _ at hround
            unfold access at hround
            by_cases hlands : c.Lands m
            · simp only [if_pos hlands] at hround
              exact nomatch hround
            · simp only [if_neg hlands] at hround
              cases hround
              refine .inr ⟨⟨c, own, live⟩, List.mem_append_right _ List.mem_cons_self, ?_⟩
              exact fun ok => hlands ok.writes

theorem get_run : (get : Rendering Progress) s = .ok s s := rfl

theorem modify_head_run (next : Int) :
    (modify fun s => { s with head := next } : Rendering Unit) s = .ok () (s.after [] next) := by
  rw [Progress.after, List.append_nil]
  rfl

theorem vbufAlloc_of_lt {size : Int}
    (hmove : (m.vbuf : Int) + VMEM_SIZE < m.ptr (s.head + size)) :
    vbufAlloc m w h live size s = .error .noMemory (s.after [] (m.ptr (s.head + size))) := by
  unfold vbufAlloc
  rw [bind_of_ok get_run, bind_of_ok (modify_head_run _), if_pos hmove]
  rfl

theorem vbufAlloc_of_not_lt {w h : Nat} {live : List Region} {size : Int}
    (hmove : ¬ (m.vbuf : Int) + VMEM_SIZE < m.ptr (s.head + size)) :
    vbufAlloc m w h live size s = ((access m (some (localBuffer s.head w h))
      (localBuffer s.head w h :: live) (.zero s.head size) >>= fun _ => pure s.head) :
        Rendering Int) (s.after [] (m.ptr (s.head + size))) := by
  unfold vbufAlloc
  rw [bind_of_ok get_run, bind_of_ok (modify_head_run _), if_neg hmove]

/-- A local buffer that fits into the rest of `vbuf` is taken and cleared. -/
theorem alloc_run {rest : Int → Rendering Unit} (hstart : m.vbuf ≤ s.head)
    (hroom : s.head + (3 * (w * h) : Nat) ≤ m.vbuf + VMEM_SIZE) :
    (defined (localSize w h) >>= fun size => vbufAlloc m w h live size >>= rest) s =
      rest s.head (s.after [⟨.zero s.head (int ((w * h : Nat) * 3)), some (localBuffer s.head w h),
        localBuffer s.head w h :: live⟩] (s.head + (3 * (w * h) : Nat))) := by
  have hsize : VMEM_SIZE = 524288 := rfl
  have hmove : (Task.alloc w h).move m s.head = s.head + (3 * (w * h) : Nat) :=
    move_eq (t := .alloc w h) hstart hroom
  rw [Task.move_alloc] at hmove
  rw [localSize_eq_some.2 ⟨by omega, rfl⟩]
  have hroomy : ¬ (m.vbuf : Int) + VMEM_SIZE < m.ptr (s.head + int ((w * h : Nat) * 3)) := by
    omega
  have halloc := @vbufAlloc_of_not_lt _ _ w h live _ hroomy
  rw [bind_of_ok (access_of_lands (zero_lands hstart hroom)), s.after_head, s.after_after,
    List.nil_append, hmove] at halloc
  exact bind_of_ok halloc

/-- A local buffer is taken, if `vbuf_alloc` does not panic and the buffer is part of `vbuf`. -/
theorem does_alloc {rest : Int → Rendering Unit} {x : Int → Except Early Int}
    (stacked : Stacked m.vbufRegion live s.head) (hstart : m.vbuf ≤ s.head)
    (grows : ∀ pxLocal, Grows (rest pxLocal))
    (hrest : s.head + (3 * (w * h) : Nat) ≤ m.vbuf + VMEM_SIZE → ∀ log, (∀ e ∈ log, e.Ok m) →
      Does m (s.after log (s.head + (3 * (w * h) : Nat)))
        (rest s.head (s.after log (s.head + (3 * (w * h) : Nat))))
          (x (s.head + (3 * (w * h) : Nat)))) :
    Does m s ((defined (localSize w h) >>= fun size => vbufAlloc m w h live size >>= rest) s)
      ((Task.alloc w h).run m s.head >>= x) := by
  by_cases hfits : (Task.alloc w h).Fits
  · have hdefined : defined (localSize w h) s = .ok (int ((w * h : Nat) * 3)) s := by
      rw [localSize_eq_some.2 ⟨hfits, rfl⟩]
      rfl
    by_cases hmove : (m.vbuf : Int) + VMEM_SIZE < (Task.alloc w h).move m s.head
    · rw [run_eq_noMemory.2 ⟨hfits, hmove⟩, bind_of_ok hdefined]
      exact ⟨[], _, by simp, bind_of_error (vbufAlloc_of_lt hmove)⟩
    · by_cases hroom : s.head + (3 * (w * h) : Nat) ≤ m.vbuf + VMEM_SIZE
      · have hok := (zero_ok_iff (w := w) (h := h) stacked hstart).2 hroom
        rw [(run_eq_ok hstart).2 ⟨hfits, hroom, rfl⟩]
        rw [alloc_run hstart hroom]
        exact (hrest hroom _ (by simpa using hok)).after (by simpa using hok)
      · rw [run_eq_leaves hfits hmove hroom, bind_of_ok hdefined]
        refine Leaves.bind ?_ grows
        rw [vbufAlloc_of_not_lt hmove]
        apply Leaves.bind _ fun _ => grows_pure _
        refine .inr ⟨_, ?_, fun ok => hroom ((zero_ok_iff stacked hstart).1 ok)⟩
        unfold access
        split
        · exact List.mem_append_right _ List.mem_cons_self
        · exact List.mem_append_right _ List.mem_cons_self
  · have hrun : (Task.alloc w h).run m s.head = .error .leaves := if_pos hfits
    have hnone : localSize w h = none := by
      rw [localSize, arith_of_not_lt hfits]
      rfl
    rw [hrun, hnone]
    exact .inl ⟨s, rfl⟩

/-! ## Renderings -/

/-- The canvases are still in `vmem`, and the local buffers in use are below the head. -/
structure Ready (m : Device) (mem : Memory) (live : List Region) (s : Progress) : Prop where
  same : SameVmem m mem s.mem
  start : m.vbuf ≤ s.head
  finish : s.head ≤ m.vbuf + VMEM_SIZE
  stacked : Stacked m.vbufRegion live s.head

theorem Ready.after (ready : Ready m mem live s) {log : List Event} {next : Int}
    (hlog : ∀ e ∈ log, e.Ok m) (hle : s.head ≤ next) (hfinish : next ≤ m.vbuf + VMEM_SIZE) :
    Ready m mem live (s.after log next) where
  same := ready.same.after hlog
  start := Int.le_trans ready.start hle
  finish := hfinish
  stacked := ready.stacked.mono hle

structure Renders (m : Device) (mem : Memory) (W H : Nat) (px : Int) (live : List Region)
    (ts : List Task) (f : Rendering Unit) : Prop where
  grows : Grows f
  does : ∀ {s : Progress}, Ready m mem live s → Drawable m px (W * H) →
    Does m s (f s) (ts.foldlM (Task.run m) s.head)

variable {f g : Rendering Unit}

theorem Renders.nil : Renders m mem W H px live [] (pure ()) where
  grows := grows_pure ()
  does := fun {s} _ _ => ⟨[], by simp, by rw [s.after_nil]; rfl⟩

/-- The second part may look at the memory that the first one leaves. -/
theorem Renders.append {ts₁ ts₂ : List Task} (first : Renders m mem W H px live ts₁ f)
    (grows : Grows g)
    (second : ∀ {s : Progress}, Ready m mem live s → Drawable m px (W * H) →
      Does m s (g s) (ts₂.foldlM (Task.run m) s.head)) :
    Renders m mem W H px live (ts₁ ++ ts₂) (f >>= fun _ => g) where
  grows := first.grows.bind fun _ => grows
  does := by
    intro s ready drawable
    rw [List.foldlM_append]
    refine (first.does ready drawable).bind ?_ grows
    intro log next hrun hlog
    obtain ⟨-, hroom, rfl⟩ := (tasks_eq_ok ready.start ready.finish).1 hrun
    exact second (ready.after hlog (by omega) hroom) drawable

/-! ## Canvases -/

theorem render_texture {a : Int} (hread : canvasAt s.mem a = cv) (type : cv.type = AM_GPU_TEXTURE)
    (fuel : Nat) : render m (fuel + 1) a W px live s =
      drawLocal m cv W px cv.texture.w.toNat cv.texture.h.toNat (toHost m cv.texture.pixels) none
        live (s.after [⟨.canvas a, none, live⟩] s.head) := by
  have hread' : canvasAt (s.after [⟨.canvas a, none, live⟩] s.head).mem a = cv := hread
  rw [render, bind_of_ok (access_of_lands (canvas_lands a)), bind_of_ok get_run, hread']
  dsimp only
  rw [if_pos type]

theorem subtree_ne_texture (type : cv.type = AM_GPU_SUBTREE) : ¬ cv.type = AM_GPU_TEXTURE := by
  rw [type]
  decide

/-- What a subtree does once its local buffer is at `pxLocal`. -/
def belowSubtree (m : Device) (fuel : Nat) (a : Int) (cv : Canvas) (W : Nat) (px : Int)
    (live : List Region) (pxLocal : Int) : Rendering Unit := do
  forChildren m (fun ch => render m fuel ch cv.w.toNat pxLocal
    (localBuffer pxLocal cv.w.toNat cv.h.toNat :: live)) fuel
    (toHost m (canvasAt (← get).mem a).child)
  drawLocal m (canvasAt (← get).mem a) W px cv.w.toNat cv.h.toNat pxLocal
    (some (localBuffer pxLocal cv.w.toNat cv.h.toNat))
    (localBuffer pxLocal cv.w.toNat cv.h.toNat :: live)

theorem render_subtree {a : Int} (hread : canvasAt s.mem a = cv) (type : cv.type = AM_GPU_SUBTREE)
    (fuel : Nat) : render m (fuel + 1) a W px live s =
      (defined (localSize cv.w.toNat cv.h.toNat) >>= fun size =>
        vbufAlloc m cv.w.toNat cv.h.toNat live size >>= belowSubtree m fuel a cv W px live)
          (s.after [⟨.canvas a, none, live⟩] s.head) := by
  have hread' : canvasAt (s.after [⟨.canvas a, none, live⟩] s.head).mem a = cv := hread
  rw [render, bind_of_ok (access_of_lands (canvas_lands a)), bind_of_ok get_run, hread']
  dsimp only
  rw [if_neg (subtree_ne_texture type), if_pos type]
  rfl

theorem grows_belowSubtree (fuel : Nat) (a : Int) (pxLocal : Int) :
    Grows (belowSubtree m fuel a cv W px live pxLocal) := by
  unfold belowSubtree
  apply grows_get.bind
  intro s
  apply (grows_forChildren (fun ch => grows_render _ _ _ _ _) _ _).bind
  intro _
  exact grows_get.bind fun s => grows_drawLocal _

theorem renders_texture (placed : Placed m mem W H p cv) (type : cv.type = AM_GPU_TEXTURE)
    (width : cv.texture.w ≠ 0) (height : cv.texture.h ≠ 0)
    (pixels : cv.texture.pixels ≠ AM_GPU_NULL)
    (inside : cv.texture.pixels.toNat + 3 * (cv.texture.w.toNat * cv.texture.h.toNat) ≤ VMEM_SIZE)
    (fuel : Nat) (below : List Task) :
    Renders m mem W H px live (canvasTasks W cv below)
      (render m (fuel + 1) (toHost m p) W px live) where
  grows := grows_render _ _ _ _ _
  does := by
    intro s ready drawable
    have hsize : VMEM_SIZE = 524288 := rfl
    have hspace := m.vmem_lt
    have hsource := toHost_eq (m := m) pixels (by omega)
    rw [canvasTasks, if_pos type, render_texture (placed.canvasAt_eq ready.same) type,
      List.foldlM_cons]
    refine Does.after (placed.read_all_ok ready.stacked) (?_ : Does m (s.after _ s.head) _ _)
    have hok : ∀ c ∈ drawn m cv W px cv.texture.w.toNat cv.texture.h.toNat
        (toHost m cv.texture.pixels), Event.Ok m ⟨c, none, live⟩ := by
      apply placed.drawn_ok ready.stacked (toNat_pos width) (toNat_pos height) drawable
      intro k hk
      rw [hsource, ptr_eq (by omega) (by omega)]
      exact .inl (Region.mk_holds.2 ⟨by omega, by omega⟩)
    have hdraw := does_draw (s := s.after [⟨.canvas (toHost m p), none, live⟩] s.head)
      (toNat_pos width) (toNat_pos height) (by omega) ready.start ready.finish hok
    simpa using hdraw

theorem Ready.push (ready : Ready m mem live s) {log : List Event}
    (hlog : ∀ e ∈ log, e.Ok m) (hroom : s.head + (3 * (w * h) : Nat) ≤ m.vbuf + VMEM_SIZE) :
    Ready m mem (localBuffer s.head w h :: live)
      (s.after log (s.head + (3 * (w * h) : Nat))) where
  same := ready.same.after hlog
  start := by
    have hstart := ready.start
    rw [s.after_head]
    omega
  finish := hroom
  stacked := by
    have pushed := push_local ready.stacked ready.start hroom
    rw [Int.natCast_mul]
    exact pushed

/-- A subtree takes its local buffer, renders its children into it, and is drawn. -/
theorem does_subtree (placed : Placed m mem W H p cv) (width : cv.w ≠ 0) (height : cv.h ≠ 0)
    {fuel : Nat} {below : List Task} (ready : Ready m mem live s) (drawable : Drawable m px (W * H))
    (children : ∀ px live, Renders m mem cv.w.toNat cv.h.toNat px live below
      (forChildren m (fun ch => render m fuel ch cv.w.toNat px live) fuel (toHost m cv.child))) :
    Does m s ((defined (localSize cv.w.toNat cv.h.toNat) >>= fun size =>
        vbufAlloc m cv.w.toNat cv.h.toNat live size >>=
          belowSubtree m fuel (toHost m p) cv W px live) s)
      ((.alloc cv.w.toNat cv.h.toNat :: (below ++ [.draw W cv cv.w.toNat cv.h.toNat])).foldlM
        (Task.run m) s.head) := by
  have hsize : VMEM_SIZE = 524288 := rfl
  have hw := toNat_pos width
  have hh := toNat_pos height
  have hstart := ready.start
  rw [List.foldlM_cons]
  refine does_alloc ready.stacked hstart (grows_belowSubtree fuel _) ?_
  intro hroom log hlog
  have ready₁ := ready.push hlog hroom
  have hread := placed.canvasAt_eq ready₁.same
  unfold belowSubtree
  rw [bind_of_ok get_run, hread]
  refine ((children s.head (localBuffer s.head cv.w.toNat cv.h.toNat :: live)).append ?_ ?_).does
    ready₁ (drawable_local hstart hroom)
  · exact grows_get.bind fun s => grows_drawLocal _
  · intro s₂ ready₂ _
    rw [bind_of_ok get_run, placed.canvasAt_eq ready₂.same]
    have hok : ∀ c ∈ drawn m cv W px cv.w.toNat cv.h.toNat s.head,
        Event.Ok m ⟨c, some (localBuffer s.head cv.w.toNat cv.h.toNat),
          localBuffer s.head cv.w.toNat cv.h.toNat :: live⟩ :=
      placed.drawn_ok ready₂.stacked hw hh drawable fun k hk =>
        .inr ⟨_, rfl, local_pixel hstart hroom hk⟩
    have hdraw := does_draw (s := s₂) hw hh (by omega) ready₂.start ready₂.finish hok
    simpa using hdraw

theorem renders_subtree (placed : Placed m mem W H p cv) (type : cv.type = AM_GPU_SUBTREE)
    (width : cv.w ≠ 0) (height : cv.h ≠ 0) {fuel : Nat} {below : List Task}
    (children : ∀ px live, Renders m mem cv.w.toNat cv.h.toNat px live below
      (forChildren m (fun ch => render m fuel ch cv.w.toNat px live) fuel (toHost m cv.child))) :
    Renders m mem W H px live (canvasTasks W cv below)
      (render m (fuel + 1) (toHost m p) W px live) where
  grows := grows_render _ _ _ _ _
  does := by
    intro s ready drawable
    rw [canvasTasks, if_neg (subtree_ne_texture type),
      render_subtree (placed.canvasAt_eq ready.same) type]
    have hread := placed.read_all_ok ready.stacked
    have ready₁ := ready.after hread (Int.le_refl s.head) ready.finish
    exact (does_subtree placed width height ready₁ drawable children).after hread

/-- What can be rendered below a canvas can be rendered as that canvas. -/
theorem renders_tree {sons : Forest Canvas} {fuel : Nat} (stored : StoredTree m mem W H p cv sons)
    (children : ∀ W H p px live, StoredForest m mem W H p sons →
      Renders m mem W H px live (tasks W sons)
        (forChildren m (fun ch => render m fuel ch W px live) fuel (toHost m p))) :
    Renders m mem W H px live (canvasTasks W cv (tasks cv.w.toNat sons))
      (render m (fuel + 1) (toHost m p) W px live) := by
  cases stored with
  | texture placed type width height pixels inside =>
      exact renders_texture placed type width height pixels inside fuel _
  | subtree placed type width height below =>
      exact renders_subtree placed type width height fun px live => children _ _ _ px live below

theorem StoredTree.placed {sons : Forest Canvas} (stored : StoredTree m mem W H p cv sons) :
    Placed m mem W H p cv := by
  cases stored with
  | texture placed => exact placed
  | subtree placed => exact placed

/-- The canvases of a forest are rendered one after the other, if the fuel is more than their
number. -/
theorem renders_forest {F : Forest Canvas} {fuel rounds : Nat}
    (stored : StoredForest m mem W H p F) (hfuel : F.toList.length < fuel)
    (hrounds : F.toList.length < rounds) :
    Renders m mem W H px live (tasks W F)
      (forChildren m (fun ch => render m fuel ch W px live) rounds (toHost m p)) := by
  induction F generalizing W H p px live fuel rounds with
  | nil =>
      cases stored
      obtain ⟨rounds, rfl⟩ : ∃ n, rounds = n + 1 := ⟨rounds - 1, by omega⟩
      rw [forChildren, if_pos toHost_null]
      exact .nil
  | cons cv sons siblings ihs ih =>
      obtain ⟨fuel, rfl⟩ : ∃ n, fuel = n + 1 := ⟨fuel - 1, by omega⟩
      obtain ⟨rounds, rfl⟩ : ∃ n, rounds = n + 1 := ⟨rounds - 1, by omega⟩
      simp only [Forest.toList_cons, List.length_cons, List.length_append] at hfuel hrounds
      cases stored with
      | canvas tree rest =>
          rw [forChildren, if_neg tree.placed.toHost_ne]
          have htree : Renders m mem W H px live _
              (render m (fuel + 1) (toHost m p) W px live) :=
            renders_tree tree fun W H p px live stored => ihs stored (by omega) (by omega)
          apply htree.append
          · apply grows_get.bind
            intro s
            exact grows_forChildren (fun ch => grows_render _ _ _ _ _) _ _
          · intro s ready drawable
            rw [bind_of_ok get_run, tree.placed.canvasAt_eq ready.same]
            exact (ih rest (by omega) (by omega)).does ready drawable

/-! ## The whole rendering -/

/-- All local buffers together fit into `vbuf`, and nothing overflows. -/
structure Fit (ts : List Task) : Prop where
  fits : ∀ t ∈ ts, t.Fits
  size : totalSize ts ≤ VMEM_SIZE

/-- If something is wrong with a rendering that returns or panics with "no memory", it is an
access. -/
theorem Leaves.exists_bad {r : EStateM.Result Stop Progress Unit} (leaves : Leaves m r)
    (hend : r = .ok () s ∨ r = .error .noMemory s) : ∃ e ∈ s.log, ¬ e.Ok m := by
  rcases hend with rfl | rfl
  · exact leaves.resolve_left nofun
  · exact leaves.resolve_left nofun

theorem ready_start (m : Device) (mem : Memory) : Ready m mem [] ⟨mem, m.vbuf, []⟩ where
  same := fun _ _ => rfl
  start := Int.le_refl _
  finish := by
    dsimp only
    omega
  stacked := .nil _ _

/-- The rendering of a tree does what its tasks come to. -/
theorem gpuRender_does {root : UInt32} {sons : Forest Canvas} {fuel : Nat}
    (stored : StoredTree m mem m.display.w.toNat m.display.h.toNat root cv sons)
    (hfuel : sons.toList.length + 1 < fuel) :
    Does m ⟨mem, m.vbuf, []⟩ (gpuRender m mem fuel root)
      ((canvasTasks m.display.w.toNat cv (tasks cv.w.toNat sons)).foldlM (Task.run m) m.vbuf) := by
  obtain ⟨fuel, rfl⟩ : ∃ n, fuel = n + 1 := ⟨fuel - 1, by omega⟩
  have renders : Renders m mem m.display.w.toNat m.display.h.toNat m.fb [] _
      (render m (fuel + 1) (toHost m root) m.display.w.toNat m.fb []) :=
    renders_tree stored fun W H p px live below => renders_forest below (by omega) (by omega)
  exact renders.does (ready_start m mem) (drawable_fb m)

/-- A rendering stays in its buffers exactly if all local buffers fit into `vbuf` and nothing
overflows, or this is so up to an allocation that `vbuf_alloc` refuses. -/
theorem gpuRender_stays_iff {root : UInt32} {sons : Forest Canvas}
    (stored : StoredTree m mem m.display.w.toNat m.display.h.toNat root cv sons) :
    StaysInBuffers m mem root ↔
      NoMemory m m.vbuf (canvasTasks m.display.w.toNat cv (tasks cv.w.toNat sons)) ∨
        Fit (canvasTasks m.display.w.toNat cv (tasks cv.w.toNat sons)) := by
  have hdoes {fuel : Nat} (hfuel : sons.toList.length + 1 < fuel) := gpuRender_does stored hfuel
  have hlow : (m.vbuf : Int) ≤ m.vbuf := Int.le_refl _
  have hhigh : (m.vbuf : Int) ≤ m.vbuf + VMEM_SIZE := by omega
  constructor
  · rintro ⟨bound, hstays⟩
    obtain ⟨fuel, hfuel⟩ : ∃ fuel, fuel = max bound (sons.toList.length + 1) + 1 := ⟨_, rfl⟩
    obtain ⟨s, hend, hok⟩ := hstays fuel (by omega)
    have hdone := hdoes (show sons.toList.length + 1 < fuel by omega)
    cases hrun : (canvasTasks m.display.w.toNat cv (tasks cv.w.toNat sons)).foldlM (Task.run m)
        m.vbuf with
    | ok next =>
        obtain ⟨hfits, hroom, -⟩ := (tasks_eq_ok hlow hhigh).1 hrun
        exact .inr ⟨hfits, by omega⟩
    | error early =>
        cases early with
        | noMemory => exact .inl ((tasks_eq_noMemory hlow hhigh).1 hrun)
        | leaves =>
            rw [hrun] at hdone
            obtain ⟨e, he, hbad⟩ := Leaves.exists_bad hdone hend
            exact absurd (hok e he) hbad
  · rintro (hstop | fit)
    · refine ⟨sons.toList.length + 1, fun fuel hfuel => ?_⟩
      have hdone := hdoes hfuel
      rw [(tasks_eq_noMemory hlow hhigh).2 hstop] at hdone
      obtain ⟨log, next, hok, hend⟩ := hdone
      exact ⟨_, .inr hend, hok⟩
    · refine ⟨sons.toList.length + 1, fun fuel hfuel => ?_⟩
      have hdone := hdoes hfuel
      have hsize := fit.size
      rw [(tasks_eq_ok hlow hhigh).2 ⟨fit.fits, by omega, rfl⟩] at hdone
      obtain ⟨log, hok, hend⟩ := hdone
      exact ⟨_, .inl hend, hok⟩

/-! ## Two renderings -/

def qemu : Device where
  display := ⟨640, 480⟩
  space := 4294967296
  vmem := 1179648
  vbuf := 1703936
  fb := 4244635648
  vmem_pos := by decide
  vmem_lt := by decide
  vbuf_lt := by decide
  fb_lt := by decide
  vmem_vbuf := by decide
  vmem_fb := by decide

def memoryOf (bytes : List UInt8) : Memory := fun a => bytes.getD (a - qemu.vmem).toNat 0

/-- A canvas of `2 * 2` pixels on the display, with a texture of one pixel in it. -/
def smallTree : Memory := memoryOf
  [2, 0, 2, 0, 2, 0, 0, 0, 0, 0, 4, 0, 4, 0, 255, 255, 255, 255, 26, 0, 0, 0, 0, 0, 0, 0,
    1, 0, 0, 0, 0, 0, 1, 0, 1, 0, 1, 0, 1, 0, 255, 255, 255, 255, 1, 0, 1, 0, 52, 0, 0, 0]

/-- A canvas of `32768 * 43691` pixels drawn as one pixel, with a texture of one pixel in its
last row. -/
def wrappedTree : Memory := memoryOf
  [2, 0, 0, 128, 171, 170, 0, 0, 0, 0, 1, 0, 1, 0, 255, 255, 255, 255, 26, 0, 0, 0, 0, 0, 0, 0,
    1, 0, 0, 0, 0, 0, 0, 0, 170, 170, 1, 0, 1, 0, 255, 255, 255, 255, 1, 0, 1, 0, 52, 0, 0, 0]

theorem gpuRender_stays_iff_small : StaysInBuffers qemu smallTree 0 := by
  have child : StoredTree qemu smallTree 2 2 26 (canvasAt smallTree 1179674) .nil :=
    .texture ⟨by decide, by decide, rfl, by decide, by decide⟩ (by decide) (by decide) (by decide)
      (by decide) (by decide)
  have root : StoredTree qemu smallTree 640 480 0 (canvasAt smallTree 1179648)
      (.cons (canvasAt smallTree 1179674) .nil .nil) :=
    .subtree ⟨by decide, by decide, rfl, by decide, by decide⟩ (by decide) (by decide) (by decide)
      (.canvas child .null)
  exact (gpuRender_stays_iff root).2 (.inr ⟨by decide, by decide⟩)

/-- The size of the local buffer wraps to 32768, so `vbuf_alloc` does not panic, and the
texture is drawn outside `vbuf`. -/
theorem gpuRender_wrapped_size :
    StoredTree qemu wrappedTree 640 480 0 (canvasAt wrappedTree 1179648)
      (.cons (canvasAt wrappedTree 1179674) .nil .nil) ∧
    ¬ StaysInBuffers qemu wrappedTree 0 ∧
    ∃ s, gpuRender qemu wrappedTree 4 0 = .error .outside s ∧ ∃ e ∈ s.log,
      ∃ r ∈ e.access.writes, ¬ qemu.vbufRegion.Holds r ∧ ¬ qemu.fbRegion.Holds r := by
  have child : StoredTree qemu wrappedTree 32768 43691 26 (canvasAt wrappedTree 1179674) .nil :=
    .texture ⟨by decide, by decide, rfl, by decide, by decide⟩ (by decide) (by decide) (by decide)
      (by decide) (by decide)
  have root : StoredTree qemu wrappedTree 640 480 0 (canvasAt wrappedTree 1179648)
      (.cons (canvasAt wrappedTree 1179674) .nil .nil) :=
    .subtree ⟨by decide, by decide, rfl, by decide, by decide⟩ (by decide) (by decide) (by decide)
      (.canvas child .null)
  refine ⟨root, ?_, ?_⟩
  · rintro ⟨bound, hstays⟩
    obtain ⟨s, hend, hok⟩ := hstays (bound + 3) (by omega)
    have hdone := gpuRender_does root (show _ < bound + 3 by simp)
    have hrun : [Task.alloc 32768 43691, .draw 32768 (canvasAt wrappedTree 1179674) 1 1,
        .draw 640 (canvasAt wrappedTree 1179648) 32768 43691].foldlM (Task.run qemu) 1703936 =
          .error .leaves := by decide
    obtain ⟨e, he, hbad⟩ := Leaves.exists_bad (hrun ▸ hdone) hend
    exact hbad (hok e he)
  · refine ⟨_, rfl, ⟨.copy 1638400 1179700, none, [⟨1703936, 4295000064⟩]⟩, ?_, ⟨1638400, 3⟩,
      List.mem_cons_self, by decide, by decide⟩
    decide

end OSLabs.Gpu
