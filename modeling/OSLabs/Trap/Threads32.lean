import OSLabs.Trap.Resuming32
import OSLabs.Trap.Threads

/-! # Threads of the 32-bit machine

The code of `trap32.S` with `__am_irq_handle`, `kcontext` and `ucontext` saves and loads
contexts as threads need it.
-/

namespace OSLabs.Trap

open Lib (ByteMemory Run anyStep)
open Lib.ByteMemory

variable {image : Image Reg32 32} {vector : Nat} {errcode : BitVec 32} {s : Machine32}
  {mem mem' : ByteMemory 32} {b : BitVec 32}

/-! ## Up to the handler -/

def frame32 (s : Machine32) : BitVec 32 :=
  top32 s - BitVec.ofNat 32 (32 / 8 * (20 + (userWords s).length))

def atHandler32 (image : Image Reg32 32) (vector : Nat) (errcode : BitVec 32) (s : Machine32) :
    Machine32 :=
  let s := enter32 vector errcode s
  saveContext32 ((s.run [.pushSp]).pushWord image.afterCall) s.sp

/-- The machine at the call of `__am_irq_handle` for a trap of `s`. -/
structure Called32 (s : Machine32) (vector : Nat) (errcode : BitVec 32) (t : Machine32) : Prop where
  frame : FrameOf32 s vector errcode t.mem (frame32 s)
  mem : ∀ b, ¬Below (top32 s) 96 b → t.mem b = s.mem b
  ss : t.ss = KSEL SEG_KDATA
  cr2 : t.cr2 = s.cr2
  cr3 : t.cr3 = s.cr3
  sp0 : t.sp0 = s.sp0

theorem called32_of_enter (hv : Agreed vector) (image : Image Reg32 32) (errcode : BitVec 32)
    (s : Machine32) : (enter32 vector errcode s).sp = frame32 s ∧
      Called32 s vector errcode
        (((enter32 vector errcode s).run [.pushSp]).pushWord image.afterCall) := by
  obtain ⟨mem₁, regs₁, sp₁, flags₁, gap, henter, hgap, pushed⟩ := enter32_pushed hv errcode s
  have huser := length_userWords s
  have hlength : (frameWords32 s vector errcode gap).length = 20 + (userWords s).length := by
    simp only [frameWords32, List.length_append, List.length_cons, List.length_nil, hgap]
    omega
  have hsp : sp₁ = frame32 s := by
    have htop := pushed.top_eq
    rw [hlength] at htop
    rw [frame32, ← htop]
    exact (BitVec.add_sub_cancel _ _).symm
  subst hsp
  have hframe := pushed.push (by rw [hlength]; omega) (by decide) (frame32 s)
  have hcall := hframe.push (by rw [List.length_cons, hlength]; omega) (by decide) image.afterCall
  have hwords := hcall.words_eq
  have hmem := hcall.frame
  rw [List.length_cons, List.length_cons, hlength] at hwords hmem
  have hslot : slot (frame32 s - BitVec.ofNat 32 (32 / 8) - BitVec.ofNat 32 (32 / 8)) 2 =
      frame32 s := by
    rw [BitVec.sub_sub, ← BitVec.ofNat_add]
    exact slot_sub (frame32 s) 2
  rw [henter]
  refine ⟨rfl, ⟨⟨gap, hgap, ?_⟩, ?_⟩, ?_, rfl, rfl, rfl, rfl⟩
  · rw [Nat.add_comm _ 1, Nat.add_comm _ 1, ← Nat.add_assoc, words_add, hslot] at hwords
    have hsplit : image.afterCall :: frame32 s :: frameWords32 s vector errcode gap =
        [image.afterCall, frame32 s] ++ frameWords32 s vector errcode gap := rfl
    rw [hsplit] at hwords
    exact (List.append_inj hwords (length_words _ _ _)).2
  · exact slot_sub (top32 s) _
  · intro b hb
    refine hmem b fun hin => hb ?_
    have hbase : frame32 s - BitVec.ofNat 32 (32 / 8) - BitVec.ofNat 32 (32 / 8) =
        top32 s - BitVec.ofNat 32 (32 / 8 * (20 + (userWords s).length) + 8) := by
      rw [frame32, BitVec.sub_sub, BitVec.sub_sub, ← BitVec.ofNat_add, ← BitVec.ofNat_add]
    rw [hbase] at hin
    exact hin.of_sub (by omega) (by omega)

theorem saveContext32_frame {tf : BitVec 32} (hb : ¬Within tf 60 b) :
    (saveContext32 s tf).mem b = s.mem b := by
  have hframe (mem : ByteMemory 32) (v : BitVec 32) (i : Nat) (hi : i < 15) :
      store mem (slot tf i) v b = mem b := store_frame hi hb
  unfold saveContext32
  simp (disch := decide) only [hframe]

theorem below_of_frame32 (hb : Within (frame32 s) 60 b) : Below s.thread.top 96 b := by
  have huser := length_userWords s
  exact hb.of_sub (by omega) (by omega)

theorem atHandler32_mem (hv : Agreed vector) (hb : ¬Below s.thread.top 96 b) :
    (atHandler32 image vector errcode s).mem b = s.mem b := by
  obtain ⟨hsp, called⟩ := called32_of_enter hv image errcode s
  rw [atHandler32, hsp, saveContext32_frame fun hin => hb (below_of_frame32 hin)]
  exact called.mem b hb

/-! ## Contexts as threads -/

/-- The thread that a context resumes. In the kernel `ss` is not loaded from it. -/
def Context32.thread (c : Context32) : Thread Reg32 32 where
  regs := c.regs
  sp := c.esp
  ip := c.eip
  flags := c.eflags
  cs := c.cs.setWidth 16
  ds := c.ds.setWidth 16
  ss := if User (c.cs.setWidth 16) then c.ss3.setWidth 16 else KSEL SEG_KDATA
  cr3 := c.cr3
  sp0 := c.esp0

/-- The segments that the code gives to threads. -/
def Segments32 (x : Thread Reg32 32) : Prop :=
  if User x.cs then x.ss = USEL SEG_UDATA else x.ss = KSEL SEG_KDATA ∧ x.cs = KSEL SEG_KCODE

theorem savedContext32_thread (hsegments : Segments32 s.thread) :
    (savedContext32 s).thread = s.thread := by
  have hcs : (s.cs.setWidth 32).setWidth 16 = s.cs := by simp
  have hss3 : ((USEL SEG_UDATA).setWidth 32).setWidth 16 = USEL SEG_UDATA := by decide
  have hss : (if User s.cs then USEL SEG_UDATA else KSEL SEG_KDATA) = s.ss := by
    unfold Segments32 at hsegments
    by_cases huser : User s.cs
    · rw [if_pos huser]
      exact ((if_pos huser).mp hsegments).symm
    · rw [if_neg huser]
      exact ((if_neg huser).mp hsegments).1.symm
  simp only [Context32.thread, savedContext32, Machine.thread, hcs, hss3, hss, setLow_setWidth]

theorem atHandler32_saved (hv : Agreed vector) (hsegments : Segments32 s.thread) :
    (contextAt32 (atHandler32 image vector errcode s).mem (frame32 s)).thread = s.thread := by
  obtain ⟨hsp, called⟩ := called32_of_enter hv image errcode s
  rw [atHandler32, hsp, called.frame.saved called.cr3 called.sp0]
  exact savedContext32_thread hsegments

theorem atHandler32_space (hv : Agreed vector) :
    (atHandler32 image vector errcode s).cr3 = s.cr3 ∧
      (atHandler32 image vector errcode s).sp0 = s.sp0 := by
  obtain ⟨-, called⟩ := called32_of_enter hv image errcode s
  exact ⟨called.cr3, called.sp0⟩

theorem onTrap32_eq (hv : Agreed vector) (image : Image Reg32 32) (errcode : BitVec 32)
    (s : Machine32) {m : Machine32} {ret : BitVec 32}
    (hhandler : image.userHandler (eventOf (irqOf 32 vector) (codeOf vector errcode) s.cr2)
      (frame32 s) (atHandler32 image vector errcode s) = (m, ret)) :
    onTrap32 image vector errcode s = if ret = 0 then none else
      some (resume32 image (if (contextAt32 m.mem ret).cr3 ≠ 0 then
        { m with
          cr3 := (contextAt32 m.mem ret).cr3, ss0 := KSEL SEG_KDATA
          sp0 := (contextAt32 m.mem ret).esp0 }
        else m) ret) := by
  obtain ⟨hsp, called⟩ := called32_of_enter hv image errcode s
  obtain ⟨hirq, hcode, -⟩ := called.frame.frame
  rw [atHandler32, hsp] at hhandler
  have hcr2 : (saveContext32 (((enter32 vector errcode s).run [.pushSp]).pushWord
      image.afterCall) (frame32 s)).cr2 = s.cr2 := called.cr2
  simp only [onTrap32, amIrqHandle32, hsp, hirq, hcode, hcr2, hhandler]
  by_cases hret : ret = 0
  · rw [if_pos hret, if_pos hret]
    rfl
  · rw [if_neg hret, if_neg hret]
    rfl

/-- A context may be loaded if its stack pointer is not in the way of the copy. -/
def Loadable32 (cs : BitVec 16) (sp a : BitVec 32) : Prop :=
  User cs ∨ cs = KSEL SEG_KCODE ∧ CopyApart a sp

theorem frame32_loadable (hsegments : Segments32 s.thread) :
    Loadable32 s.cs s.sp (frame32 s) := by
  by_cases huser : User s.cs
  · exact .inl huser
  · refine .inr ⟨((if_neg huser).mp hsegments).2, .inr ?_⟩
    have hwords : userWords s = [] := if_neg huser
    have htop : top32 s = s.sp := if_neg huser
    have hdistance : frame32 s + 52 - s.sp = 52 - 80 := by
      rw [frame32, htop, hwords]
      have heighty : BitVec.ofNat 32 (32 / 8 * (20 + ([] : List (BitVec 32)).length)) = 80 := rfl
      rw [heighty]
      abel
    rw [hdistance]
    decide

theorem user_not_kernel {cs : BitVec 16} (huser : User cs) : (cs == KSEL SEG_KCODE) = false := by
  apply beq_false_of_ne
  intro heq
  rw [heq] at huser
  exact absurd huser (by decide)

theorem resume32_loads (image : Image Reg32 32) (s : Machine32) {ctx : BitVec 32}
    (hss : s.ss = KSEL SEG_KDATA) (hclear : ∀ b, Below s.sp 8 b → ¬Within ctx 60 b)
    (hloadable : Loadable32 (contextAt32 s.mem ctx).thread.cs (contextAt32 s.mem ctx).thread.sp
      ctx) :
    (resume32 image s ctx).thread =
        { (contextAt32 s.mem ctx).thread with cr3 := s.cr3, sp0 := s.sp0 } ∧
      (resume32 image s ctx).es = (resume32 image s ctx).ds ∧
        ∀ b, ¬Below s.sp 8 b → (User (contextAt32 s.mem ctx).thread.cs ∨
          ¬Below (contextAt32 s.mem ctx).thread.sp 24 b) →
            (resume32 image s ctx).mem b = s.mem b := by
  have hbelow : s.sp - BitVec.ofNat 32 (32 / 8) - BitVec.ofNat 32 (32 / 8) =
      s.sp - BitVec.ofNat 32 8 := by
    rw [BitVec.sub_sub, ← BitVec.ofNat_add]
  have hmem : ∀ b, ¬Below s.sp 8 b → (called32 image s ctx).mem b = s.mem b := by
    intro b hb
    have houter : ¬Within (s.sp - BitVec.ofNat 32 (32 / 8)) (32 / 8) b := fun hin =>
      hb (hin.of_sub (by decide) (by decide))
    have hinner : ¬Within (s.sp - BitVec.ofNat 32 (32 / 8) - BitVec.ofNat 32 (32 / 8))
        (32 / 8) b := by
      rw [hbelow]
      exact fun hin => hb (hin.of_sub (by decide) (by decide))
    exact (if_neg hinner).trans (if_neg houter)
  have hctx : contextAt32 (called32 image s ctx).mem ctx = contextAt32 s.mem ctx :=
    contextAt32_congr fun b hb => hmem b fun hbelow => hclear b hbelow hb
  obtain ⟨regs, flags, hrun, hflag⟩ := amIret32_eq image s ctx
  rw [hctx] at hrun hflag
  have hresume : resume32 image s ctx = iret32 (if ((called32 image s ctx).run
      amIret32).flags.getLsbD FL_ZF then ((called32 image s ctx).run amIret32).run kernelIret32
    else ((called32 image s ctx).run amIret32).run userIret32) := rfl
  rw [hresume]
  generalize (called32 image s ctx).run amIret32 = u at hrun ⊢
  have hsp : u.sp = slot ctx 2 := by rw [hrun]
  have hds : u.ds = (contextAt32 s.mem ctx).ds.setWidth 16 := by rw [hrun]
  have hes : u.es = (contextAt32 s.mem ctx).ds.setWidth 16 := by rw [hrun]
  have hzf : u.flags.getLsbD FL_ZF =
      ((contextAt32 s.mem ctx).cs.setWidth 16 == KSEL SEG_KCODE) := by rw [hrun, hflag]
  have humem : u.mem = (called32 image s ctx).mem := by rw [hrun]
  have hspace : u.ss = s.ss ∧ u.cr3 = s.cr3 ∧ u.sp0 = s.sp0 := by
    rw [hrun]
    exact ⟨rfl, rfl, rfl⟩
  have huctx : contextAt32 u.mem ctx = contextAt32 s.mem ctx := by rw [humem, hctx]
  rw [hzf]
  rcases hloadable with huser | ⟨hkernel, hcopy⟩
  · have hsegment : ((contextAt32 s.mem ctx).cs.setWidth 16 == KSEL SEG_KCODE) = false :=
      user_not_kernel huser
    have huser' : User ((contextAt32 s.mem ctx).cs.setWidth 16) := huser
    rw [hsegment, if_neg (by decide), userIret32_eq huctx hsp hds hes huser]
    refine ⟨?_, rfl, ?_⟩
    · simp only [Machine.thread, resumedUser32, Context32.thread, if_pos huser', hspace]
    · intro b hb _
      have hmem' : (resumedUser32 u (contextAt32 s.mem ctx)).mem = u.mem := rfl
      rw [hmem', humem]
      exact hmem b hb
  · have hcs : (contextAt32 s.mem ctx).cs.setWidth 16 = KSEL SEG_KCODE := hkernel
    have hnot : ¬User ((contextAt32 s.mem ctx).cs.setWidth 16) := by
      rw [hcs]
      decide
    have hequal : ((contextAt32 s.mem ctx).cs.setWidth 16 == KSEL SEG_KCODE) = true := by
      rw [hcs]
      exact beq_self_eq_true _
    rw [hequal, if_pos rfl, kernelIret32_eq huctx hsp hds hes hnot hcopy]
    refine ⟨?_, rfl, ?_⟩
    · simp only [Machine.thread, resumedKernel32, Context32.thread, if_neg hnot, hspace, hss]
    · intro b hb hspill
      have hout : ¬Within ((contextAt32 s.mem ctx).esp - 24) (32 / 8 * 6) b :=
        hspill.resolve_left hnot
      have hcopied : (resumedKernel32 u (contextAt32 s.mem ctx) (copyDown
          ((contextAt32 s.mem ctx).esp - 24) (slot ctx 7) 6 u.mem)).mem b = u.mem b :=
        copyDown_frame (Nat.le_refl 6) hout
      rw [hcopied, humem]
      exact hmem b hb

theorem onTrap32_loads (hv : Agreed vector) {m s' : Machine32} {ret : BitVec 32}
    (hhandler : image.userHandler (eventOf (irqOf 32 vector) (codeOf vector errcode) s.cr2)
      (frame32 s) (atHandler32 image vector errcode s) = (m, ret))
    (hss : m.ss = (atHandler32 image vector errcode s).ss)
    (hclear : ∀ b, Below m.sp 8 b → ¬Within ret 60 b)
    (hloadable : Loadable32 (contextAt32 m.mem ret).thread.cs (contextAt32 m.mem ret).thread.sp ret)
    (htrap : onTrap32 image vector errcode s = some s') :
    s'.thread = (contextAt32 m.mem ret).thread.on m.cr3 m.sp0 ∧ s'.es = s'.ds ∧
      ∀ b, ¬Below m.sp 8 b → (User (contextAt32 m.mem ret).thread.cs ∨
        ¬Below (contextAt32 m.mem ret).thread.sp 24 b) → s'.mem b = m.mem b := by
  obtain ⟨-, called⟩ := called32_of_enter hv image errcode s
  have hkernel : m.ss = KSEL SEG_KDATA := hss.trans called.ss
  rw [onTrap32_eq hv image errcode s hhandler] at htrap
  by_cases hret : ret = 0
  · rw [if_pos hret] at htrap
    cases htrap
  · rw [if_neg hret] at htrap
    obtain rfl := Option.some.inj htrap
    by_cases hcr3 : (contextAt32 m.mem ret).cr3 = 0
    · rw [if_neg (not_not.2 hcr3)]
      obtain ⟨hthread, hes, hmem⟩ := resume32_loads image m hkernel hclear hloadable
      exact ⟨hthread.trans (if_pos hcr3).symm, hes, hmem⟩
    · rw [if_pos hcr3]
      obtain ⟨hthread, hes, hmem⟩ := resume32_loads image { m with
        cr3 := (contextAt32 m.mem ret).cr3, ss0 := KSEL SEG_KDATA
        sp0 := (contextAt32 m.mem ret).esp0 } hkernel hclear hloadable
      exact ⟨hthread.trans (if_neg hcr3).symm, hes, hmem⟩

/-! ## New threads -/

def create32 (image : Image Reg32 32) (mem : ByteMemory 32) (kstack : Area 32) :
    Fresh 32 → ByteMemory 32 × BitVec 32
  | .kernel entry arg => kcontext32 image mem kstack entry arg
  | .user ptr uvm entry => ucontext32 mem ptr uvm kstack entry

def fresh32 (image : Image Reg32 32) (kstack : Area 32) : Fresh 32 → Thread Reg32 32
  | .kernel entry arg =>
    { regs := Function.update (Function.update (fun _ => 0) .eax arg) .ebx entry
      sp := kstack.stop
      ip := image.kcontextStart
      flags := BitVec.twoPow 32 FL_IF
      cs := KSEL SEG_KCODE
      ds := KSEL SEG_KDATA
      ss := KSEL SEG_KDATA
      cr3 := 0
      sp0 := 0 }
  | .user ptr uvm entry =>
    { regs := fun _ => 0
      sp := uvm.stop
      ip := entry
      flags := BitVec.twoPow 32 FL_IF
      cs := USEL SEG_UCODE
      ds := USEL SEG_UDATA
      ss := USEL SEG_UDATA
      cr3 := ptr
      sp0 := kstack.stop }

theorem words_zeroed32 (mem : ByteMemory 32) (a : BitVec 32) :
    words (zeroed mem a 60) a 15 = List.replicate 15 0 :=
  words_zero (fun _ hb => if_pos hb) (by decide)

theorem create32_context (image : Image Reg32 32) (mem : ByteMemory 32) (kstack : Area 32)
    (f : Fresh 32) : (create32 image mem kstack f).2 = kstack.stop - 60 := by
  cases f with
  | kernel entry arg => rfl
  | user ptr uvm entry => rfl

theorem create32_thread (image : Image Reg32 32) (mem : ByteMemory 32) (kstack : Area 32)
    (f : Fresh 32) : (contextAt32 (create32 image mem kstack f).1
      (create32 image mem kstack f).2).thread = fresh32 image kstack f := by
  cases f with
  | kernel entry arg =>
      have hctx : contextAt32 (create32 image mem kstack (.kernel entry arg)).1
          (kstack.stop - 60) = ⟨0, (KSEL SEG_KDATA).setWidth 32, Function.update
            (Function.update (fun _ => 0) .eax arg) .ebx entry, 0, image.kcontextStart,
            (KSEL SEG_KCODE).setWidth 32, BitVec.twoPow 32 FL_IF, kstack.stop, 0⟩ := by
        apply contextAt32_of_words (n := 15)
        simp (disch := decide) only [create32, kcontext32, words_store, words_zeroed32]
        rfl
      have hcs : ((KSEL SEG_KCODE).setWidth 32).setWidth 16 = KSEL SEG_KCODE := by decide
      have hds : ((KSEL SEG_KDATA).setWidth 32).setWidth 16 = KSEL SEG_KDATA := by decide
      have hkernel : ¬User (KSEL SEG_KCODE) := by decide
      rw [create32_context, hctx]
      simp only [Context32.thread, fresh32, hcs, hds, if_neg hkernel]
  | user ptr uvm entry =>
      have hctx : contextAt32 (create32 image mem kstack (.user ptr uvm entry)).1
          (kstack.stop - 60) = ⟨ptr, (USEL SEG_UDATA).setWidth 32, fun _ => 0, kstack.stop, entry,
            (USEL SEG_UCODE).setWidth 32, BitVec.twoPow 32 FL_IF, uvm.stop,
            (USEL SEG_UDATA).setWidth 32⟩ := by
        apply contextAt32_of_words (n := 15)
        simp (disch := decide) only [create32, ucontext32, words_store, words_zeroed32]
        rfl
      have hcs : ((USEL SEG_UCODE).setWidth 32).setWidth 16 = USEL SEG_UCODE := by decide
      have hds : ((USEL SEG_UDATA).setWidth 32).setWidth 16 = USEL SEG_UDATA := by decide
      have huser : User (USEL SEG_UCODE) := by decide
      rw [create32_context, hctx]
      simp only [Context32.thread, fresh32, hcs, hds, if_pos huser]

theorem create32_frame {image : Image Reg32 32} {kstack : Area 32} {f : Fresh 32}
    (hb : ¬Below kstack.stop 60 b) : (create32 image mem kstack f).1 b = mem b := by
  have hframe (mem : ByteMemory 32) (v : BitVec 32) (i : Nat) (hi : i < 15) :
      store mem (slot (kstack.stop - 60) i) v b = mem b := store_frame hi hb
  have hzeroed : zeroed mem (kstack.stop - 60) 60 b = mem b := if_neg hb
  cases f with
  | kernel entry arg =>
      simp (disch := decide) only [create32, kcontext32, hframe, hzeroed]
  | user ptr uvm entry =>
      simp (disch := decide) only [create32, ucontext32, hframe, hzeroed]

/-- A new context ends where its stack pointer starts, so the copy is two words above it. -/
theorem fresh32_loadable (image : Image Reg32 32) (kstack : Area 32) (f : Fresh 32) :
    Loadable32 (fresh32 image kstack f).cs (fresh32 image kstack f).sp (kstack.stop - 60) ∧
      Segments32 (fresh32 image kstack f) := by
  cases f with
  | kernel entry arg =>
      have hdistance : kstack.stop - 60 + 52 - kstack.stop = 52 - 60 := by abel
      have hkernel : ¬User (KSEL SEG_KCODE) := by decide
      refine ⟨.inr ⟨rfl, .inr ?_⟩, (if_neg hkernel).mpr ⟨rfl, rfl⟩⟩
      have hcopy : (kstack.stop - 60 + 52 - (fresh32 image kstack (.kernel entry arg)).sp) =
        52 - 60 := hdistance
      rw [hcopy]
      decide
  | user ptr uvm entry =>
      have huser : User (USEL SEG_UCODE) := by decide
      exact ⟨.inl huser, (if_pos huser).mpr rfl⟩

/-! ## The code of the 32-bit machine -/

def cte32 : Cte Reg32 32 where
  room := 96
  size := 60
  spill := 24
  frame := frame32
  atHandler := atHandler32
  onTrap := onTrap32
  create := create32
  Agreed := Agreed
  event := fun vector errcode s => eventOf (irqOf 32 vector) (codeOf vector errcode) s.cr2
  threadAt := fun mem a => (contextAt32 mem a).thread
  fresh := fresh32
  Segments := Segments32
  Loadable := Loadable32
  spill_le := by decide
  room_lt := by decide
  segments_eq := by
    intro x y hcs _ hss hx
    unfold Segments32 at hx ⊢
    rwa [← hcs, ← hss]
  threadAt_congr := fun h => congrArg Context32.thread (contextAt32_congr h)
  frame_below := below_of_frame32
  frame_loadable := frame32_loadable
  atHandler_mem := atHandler32_mem
  atHandler_saved := atHandler32_saved
  atHandler_space := fun _ _ _ _ => atHandler32_space
  onTrap_loads := by
    intro image v errcode s m s' ret hv hhandler hss hclear hloadable htrap
    exact onTrap32_loads hv hhandler hss hclear hloadable htrap
  create_saved := by
    intro image mem kstack f hroom
    refine ⟨create32_thread image mem kstack f, ?_, ?_⟩
    · intro b hb
      rw [create32_context] at hb
      exact Cte.below_area (Nat.le_trans (by decide) hroom) hb
    · intro b hb
      exact create32_frame fun hbelow => hb (Cte.below_area (Nat.le_trans (by decide) hroom) hbelow)
  create_loadable := by
    intro image mem kstack f
    rw [create32_context]
    exact fresh32_loadable image kstack f
  fresh_top := by
    intro image kstack f
    cases f with
    | kernel entry arg =>
        have hkernel : ¬User (KSEL SEG_KCODE) := by decide
        exact ⟨if_neg hkernel, fun huser => absurd huser hkernel⟩
    | user ptr uvm entry =>
        have huser : User (USEL SEG_UCODE) := by decide
        exact ⟨if_pos huser, fun _ => ⟨ptr, uvm, entry, rfl, rfl⟩⟩

/-- A new thread of the kernel goes on in `entry`, with its argument on its stack and below it
the address of `__am_panic_on_return`. -/
structure Enters32 (image : Image Reg32 32) (kstack : Area 32) (entry arg : BitVec 32)
    (s : Machine32) : Prop where
  ip : s.ip = entry
  argument : load s.mem (slot s.sp 1) = arg
  sp : s.sp = kstack.stop - 8
  return_address : load s.mem s.sp = image.panicOnReturn
  enabled : s.flags.getLsbD FL_IF = true
  kernel : ¬User s.cs

theorem kcontextStart32_enters {kstack : Area 32} {entry arg cr3 sp0 : BitVec 32}
    (hs : s.thread = (fresh32 image kstack (.kernel entry arg)).on cr3 sp0) :
    Enters32 image kstack entry arg (kcontextStart32 image s) := by
  have hregs : s.regs = Function.update (Function.update (fun _ => 0) .eax arg) .ebx entry :=
    congrArg Thread.regs hs
  have hsp : s.sp = kstack.stop := congrArg Thread.sp hs
  have hflags : s.flags = BitVec.twoPow 32 FL_IF := congrArg Thread.flags hs
  have hcs : s.cs = KSEL SEG_KCODE := congrArg Thread.cs hs
  have hdown : s.sp - 4 - 4 = s.sp - 8 := by
    rw [BitVec.sub_sub]
    rfl
  constructor
  · exact (congrFun hregs .ebx).trans (Function.update_self _ _ _)
  · have harg : s.regs .eax = arg := congrFun hregs .eax
    have hslot : slot (s.sp - 4 - 4) 1 = s.sp - 4 := slot_sub (s.sp - 4) 1
    have hpushed : load (store (store s.mem (s.sp - 4) (s.regs .eax)) (s.sp - 4 - 4)
        image.panicOnReturn) (slot (s.sp - 4 - 4) 1) = s.regs .eax := by
      have happart : Apart (s.sp - 4 - 4) (s.sp - 4) := by
        have hslots := slot_apart (a := s.sp - 4 - 4) (by decide : 0 < 1) (by decide : 1 < 2)
          (by decide)
        rwa [slot_zero, hslot] at hslots
      rw [hslot, load_store_apart happart (by decide), load_store (by decide)]
    exact hpushed.trans harg
  · rw [← hsp]
    exact hdown
  · exact load_store (by decide)
  · have hflag : s.flags.getLsbD FL_IF = true := by
      rw [hflags]
      decide
    exact hflag
  · have hkernel : ¬User s.cs := by
      rw [hcs]
      decide
    exact hkernel

variable {T : Type} [DecidableEq T] {stack : T → Area 32} {v : Virtual Reg32 T 32}
  {σ₀ σ : System Reg32 T 32} {log : List (Label Reg32 T 32)}

/-- In every run of the 32-bit machine, each thread that runs on after a trap has the registers
that it had when it was interrupted, and a new thread of the kernel enters its function. -/
theorem threads32_run (hstacks : Cte.Disjoint stack) (agrees : cte32.Agrees stack v σ₀)
    (run : Run anyStep (cte32.Step image stack) σ₀ log σ) :
    cte32.Agrees stack (v.applyAll log) σ ∧ ∀ entry arg cr3 sp0,
      (v.applyAll log).threads σ.cur =
        some ((fresh32 image (stack σ.cur) (.kernel entry arg)).on cr3 sp0) →
      Enters32 image (stack σ.cur) entry arg (kcontextStart32 image σ.machine) := by
  have after := Cte.Run.agrees hstacks agrees run
  refine ⟨after, ?_⟩
  intro entry arg cr3 sp0 hfresh
  have hrunning := after.running
  rw [after.cur, hfresh] at hrunning
  exact kcontextStart32_enters (Option.some.inj hrunning).symm

/-! ## A switch to a new thread -/

def stacks32 : Bool → Area 32
  | false => ⟨4096, 8192⟩
  | true => ⟨8192, 12288⟩

/-- A handler that always switches to the second thread. -/
def image32 : Image Reg32 32 where
  kcontextStart := 256
  panicOnReturn := 512
  afterCall := 768
  userHandler := fun _ tf s => ({ s with sp := tf - 64 }, 12288 - 60)

def start32 : System Reg32 Bool 32 where
  machine :=
    { regs := fun _ => 0, sp := 8192, ip := 1024, flags := 512, cs := KSEL SEG_KCODE
      ds := KSEL SEG_KDATA, es := KSEL SEG_KDATA, ss := KSEL SEG_KDATA, cr2 := 0, cr3 := 16384
      sp0 := 0, ss0 := 0, mem := fun _ => 0 }
  saved := fun _ => none
  cur := false

theorem start32_agrees : cte32.Agrees stacks32 ⟨fun t => if t then none else
    some start32.machine.thread, false⟩ start32 where
  cur := rfl
  running := rfl
  es := rfl
  sound := by
    intro t x hx
    cases t with
    | true => cases hx
    | false =>
        obtain rfl : start32.machine.thread = x := Option.some.inj hx
        have hkernel : ¬User start32.machine.thread.cs := by decide
        have hsegments : Segments32 start32.machine.thread := (if_neg hkernel).mpr ⟨rfl, rfl⟩
        refine ⟨?_, fun huser => absurd huser hkernel, hsegments⟩
        intro b hb
        have htop : start32.machine.thread.top = (stacks32 false).stop := rfl
        rw [htop] at hb
        exact Cte.below_area (by decide) hb
  suspended := by
    intro t _ a ha
    cases ha

theorem disjoint32 : Cte.Disjoint stacks32 := by
  have hpages (b : BitVec 32) (hb : (stacks32 false).Has b) : ¬(stacks32 true).Has b :=
    Cte.above_area (by decide) (by decide) (by decide) hb
  intro t t' hne b hb hb'
  cases t with
  | false =>
      cases t' with
      | false => exact hne rfl
      | true => exact hpages b hb hb'
  | true =>
      cases t' with
      | false => exact hpages b hb' hb
      | true => exact hne rfl

def created32 : System Reg32 Bool 32 where
  machine := { start32.machine with
    mem := (create32 image32 start32.machine.mem (stacks32 true) (.kernel 1280 7)).1 }
  saved := Function.update start32.saved true
    (some (create32 image32 start32.machine.mem (stacks32 true) (.kernel 1280 7)).2)
  cur := false

/-- What the first thread does: it makes the second one, and it yields. -/
def switch32 : List (Label Reg32 Bool 32) :=
  [.create true (fresh32 image32 (stacks32 true) (.kernel 1280 7)), .trap id true]

theorem handles32 (h : Machine32) : cte32.Handles stacks32 created32 h id true
    { h with sp := frame32 created32.machine - 64 } (12288 - 60) where
  returns := rfl
  own := rfl
  contexts := fun _ _ => rfl
  ss := rfl
  cr3 := rfl
  sp0 := rfl
  stack := by
    intro b hb
    have hframe : cte32.frame created32.machine = 8112 := by decide
    have hb' : Within 8040 8 b := by
      have hbase : frame32 created32.machine - 64 - BitVec.ofNat 32 8 = 8040 := by decide
      rw [← hbase]
      exact hb
    obtain ⟨hlow, hhigh⟩ := (within_iff (by decide)).1 hb'
    rw [hframe]
    refine ⟨(within_iff (by decide)).2 ⟨?_, ?_⟩, fun hin => ?_⟩
    · exact Nat.le_trans (by decide) hlow
    · exact Nat.lt_of_lt_of_le hhigh (by decide)
    · have hstart := ((within_iff (by decide)).1 hin).1
      exact absurd (Nat.lt_of_le_of_lt hstart hhigh) (by decide)

theorem threads32_run_switch : ∃ σ, Run anyStep (cte32.Step image32 stacks32) start32 switch32 σ ∧
    (cte32.Agrees stacks32 (Virtual.applyAll ⟨fun t => if t then none else
      some start32.machine.thread, false⟩ switch32) σ ∧
      ∀ entry arg cr3 sp0, (Virtual.applyAll ⟨fun t => if t then none else
        some start32.machine.thread, false⟩ switch32).threads σ.cur =
          some ((fresh32 image32 (stacks32 σ.cur) (.kernel entry arg)).on cr3 sp0) →
        Enters32 image32 (stacks32 σ.cur) entry arg (kcontextStart32 image32 σ.machine)) := by
  have hcreate : cte32.Step image32 stacks32 start32
      [.create true (fresh32 image32 (stacks32 true) (.kernel 1280 7))] created32 :=
    Cte.Step.create (t := true) (f := .kernel 1280 7) (by decide) (by decide)
      fun _ _ _ hf => by cases hf
  have htrap := onTrap32_eq (by decide : Agreed 129) image32 0 created32.machine rfl
  have hret : (12288 : BitVec 32) - 60 ≠ 0 := by decide
  have hyield := Cte.Step.trap (c := cte32) (by decide : Agreed 129) rfl
    (handles32 (atHandler32 image32 129 0 created32.machine)) (htrap.trans (if_neg hret))
  have run : Run anyStep (cte32.Step image32 stacks32) start32 switch32 _ :=
    .snoc (.snoc .start trivial hcreate) trivial hyield
  exact ⟨_, run, threads32_run disjoint32 start32_agrees run⟩

end OSLabs.Trap
