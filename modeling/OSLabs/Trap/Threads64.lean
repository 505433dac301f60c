import OSLabs.Trap.Resuming64
import OSLabs.Trap.Threads

/-! # Threads of the 64-bit machine

The code of `trap64.S` with `__am_irq_handle`, `kcontext` and `ucontext` saves and loads
contexts as threads need it.
-/

namespace OSLabs.Trap

open Lib (ByteMemory Run anyStep)
open Lib.ByteMemory

variable {image : Image Reg64 64} {vector : Nat} {errcode : BitVec 64} {s : Machine64}
  {mem mem' : ByteMemory 64} {b : BitVec 64}

/-! ## Up to the handler -/

def frame64 (s : Machine64) : BitVec 64 := top64 s - BitVec.ofNat 64 232

def atHandler64 (image : Image Reg64 64) (vector : Nat) (errcode : BitVec 64) (s : Machine64) :
    Machine64 :=
  let s := enter64 vector errcode s
  saveContext64 ((s.run [.movFromSp .rdi]).pushWord image.afterCall) s.sp

theorem and_not_add_and {w : Nat} (x m : BitVec w) : (x &&& ~~~m) + (x &&& m) = x := by
  rw [BitVec.add_eq_or_of_and_eq_zero]
  · ext i hi
    simp only [BitVec.getElem_or, BitVec.getElem_and, BitVec.getElem_not]
    cases x[i] <;> cases m[i] <;> rfl
  · ext i hi
    simp only [BitVec.getElem_and, BitVec.getElem_not, BitVec.getElem_zero]
    cases x[i] <;> cases m[i] <;> rfl

theorem and_not_fifteen (x : BitVec 64) : x &&& ~~~15 = x - BitVec.ofNat 64 (x.toNat % 16) := by
  have hlow : x &&& 15 = BitVec.ofNat 64 (x.toNat % 16) := by
    apply BitVec.eq_of_toNat_eq
    have hmask : x.toNat &&& (15 : BitVec 64).toNat = x.toNat % 16 :=
      Nat.and_two_pow_sub_one_eq_mod x.toNat 4
    rw [BitVec.toNat_and, BitVec.toNat_ofNat, hmask]
    omega
  rw [← hlow]
  exact BitVec.eq_sub_iff_add_eq.2 (and_not_add_and x 15)

/-- The frame and the word below it are in the room that a trap needs. -/
theorem below_of_frame64 (hb : Within (frame64 s - BitVec.ofNat 64 8) 240 b) :
    Below s.thread.top 256 b := by
  have hframe : frame64 s - BitVec.ofNat 64 8 =
      s.thread.top - BitVec.ofNat 64 (s.thread.top.toNat % 16 + 240) := by
    have htop : top64 s = s.thread.top &&& ~~~15 := rfl
    rw [frame64, htop, and_not_fifteen, BitVec.sub_sub, BitVec.sub_sub, ← BitVec.ofNat_add,
      ← BitVec.ofNat_add]
  rw [hframe] at hb
  exact hb.of_sub (by omega) (by omega)

theorem saveContext64_frame {tf : BitVec 64} (hb : ¬Within tf 232 b) :
    (saveContext64 s tf).mem b = s.mem b := by
  have hframe (mem : ByteMemory 64) (v : BitVec 64) (i : Nat) (hi : i < 29) :
      store mem (slot tf i) v b = mem b := store_frame hi hb
  unfold saveContext64
  simp (disch := decide) only [hframe]

/-- The stack when the handler is called, below it the return address. -/
theorem called64_pushed (hv : Agreed vector) (image : Image Reg64 64) (errcode : BitVec 64)
    (s : Machine64) : ∃ mem' regs' flags' gap,
      ((enter64 vector errcode s).run [.movFromSp .rdi]).pushWord image.afterCall = { s with
        mem := mem', sp := frame64 s - BitVec.ofNat 64 8, regs := regs', flags := flags'
        cs := KSEL SEG_KCODE, ss := if User s.cs then 0 else s.ss } ∧
      (enter64 vector errcode s).sp = frame64 s ∧ gap.length = 6 ∧
      Pushed s.mem (top64 s) mem' (frame64 s - BitVec.ofNat 64 8) (image.afterCall :: 0 ::
        (savedRegs64.map s.regs ++ (gap ++ [irqOf 64 vector, codeOf vector errcode, s.ip,
          s.cs.setWidth 64, s.flags, s.sp, s.ss.setWidth 64]))) := by
  obtain ⟨mem₁, sp₁, flags₁, gap, henter, hgap, pushed⟩ := enter64_pushed hv errcode s
  have hsp : sp₁ = frame64 s := by
    have htop := pushed.top_eq
    simp only [List.length_cons, List.length_append, List.length_map, hgap, savedRegs64,
      List.length_nil] at htop
    rw [frame64, ← htop]
    exact (BitVec.add_sub_cancel _ _).symm
  subst hsp
  rw [henter]
  refine ⟨_, _, _, gap, rfl, rfl, hgap, ?_⟩
  exact pushed.push (by simp [savedRegs64, hgap]) (by decide) image.afterCall

/-- The machine at the call of `__am_irq_handle` for a trap of `s`. -/
structure Called64 (s : Machine64) (vector : Nat) (errcode : BitVec 64) (t : Machine64) : Prop where
  frame : FrameOf64 s vector errcode t.mem (frame64 s)
  mem : ∀ b, ¬Within (frame64 s - BitVec.ofNat 64 8) 240 b → t.mem b = s.mem b
  cr2 : t.cr2 = s.cr2
  cr3 : t.cr3 = s.cr3
  sp0 : t.sp0 = s.sp0

theorem called64 (hv : Agreed vector) (image : Image Reg64 64) (errcode : BitVec 64)
    (s : Machine64) : (enter64 vector errcode s).sp = frame64 s ∧
      Called64 s vector errcode
        (((enter64 vector errcode s).run [.movFromSp .rdi]).pushWord image.afterCall) := by
  obtain ⟨mem', regs', flags', gap, hcall, hsp, hgap, pushed⟩ := called64_pushed hv image errcode s
  have hlength : (image.afterCall :: 0 :: (savedRegs64.map s.regs ++ (gap ++
      [irqOf 64 vector, codeOf vector errcode, s.ip, s.cs.setWidth 64, s.flags, s.sp,
        s.ss.setWidth 64]))).length = 30 := by simp [savedRegs64, hgap]
  have hwords := pushed.words_eq
  have hframe := pushed.frame
  have hslot : slot (frame64 s - BitVec.ofNat 64 8) 1 = frame64 s := slot_sub (frame64 s) 1
  rw [hlength] at hwords hframe
  rw [words_succ, hslot] at hwords
  rw [hcall]
  exact ⟨hsp, ⟨gap, hgap, (List.cons.inj hwords).2⟩, hframe, rfl, rfl, rfl⟩

/-! ## Contexts as threads -/

def Context64.thread (c : Context64) : Thread Reg64 64 where
  regs := c.regs
  sp := c.rsp
  ip := c.rip
  flags := c.rflags
  cs := c.cs.setWidth 16
  ds := c.ss.setWidth 16
  ss := c.ss.setWidth 16
  cr3 := c.cr3
  sp0 := c.rsp0

theorem atHandler64_saved (hv : Agreed vector) (hsegments : s.ds = s.ss) :
    (contextAt64 (atHandler64 image vector errcode s).mem (frame64 s)).thread = s.thread := by
  obtain ⟨hsp, called⟩ := called64 hv image errcode s
  have hcs : (s.cs.setWidth 64).setWidth 16 = s.cs := by simp
  have hss : (s.ss.setWidth 64).setWidth 16 = s.ss := by simp
  rw [atHandler64, hsp, called.frame.saved called.cr3 called.sp0]
  simp only [Context64.thread, savedContext64, Machine.thread, hcs, hss, hsegments]

theorem atHandler64_mem (hv : Agreed vector) (hb : ¬Below s.thread.top 256 b) :
    (atHandler64 image vector errcode s).mem b = s.mem b := by
  obtain ⟨hsp, called⟩ := called64 hv image errcode s
  have hout : ¬Within (frame64 s - BitVec.ofNat 64 8) 240 b := fun hin => hb (below_of_frame64 hin)
  have hslot : slot (frame64 s - BitVec.ofNat 64 8) 1 = frame64 s := slot_sub (frame64 s) 1
  have hframe : ¬Within (frame64 s) 232 b := by
    intro hin
    rw [← hslot] at hin
    exact hout (hin.of_slot (n := 29))
  rw [atHandler64, hsp, saveContext64_frame hframe]
  exact called.mem b hout

theorem atHandler64_space (hv : Agreed vector) :
    (atHandler64 image vector errcode s).cr3 = s.cr3 ∧
      (atHandler64 image vector errcode s).sp0 = s.sp0 := by
  obtain ⟨-, called⟩ := called64 hv image errcode s
  exact ⟨called.cr3, called.sp0⟩

/-- The handler is called with the event of the vector and the frame, and what it returns is
resumed. -/
theorem onTrap64_eq (hv : Agreed vector) (image : Image Reg64 64) (errcode : BitVec 64)
    (s : Machine64) {m : Machine64} {ret : BitVec 64}
    (hhandler : image.userHandler (eventOf (irqOf 64 vector) (codeOf vector errcode) s.cr2)
      (frame64 s) (atHandler64 image vector errcode s) = (m, ret)) :
    onTrap64 image vector errcode s = if ret = 0 then none else
      some (resume64 image (if (contextAt64 m.mem ret).cr3 ≠ 0 then
        { m with cr3 := (contextAt64 m.mem ret).cr3, sp0 := (contextAt64 m.mem ret).rsp0 }
        else m) ret) := by
  obtain ⟨hsp, called⟩ := called64 hv image errcode s
  rw [atHandler64, hsp] at hhandler
  have hcr2 : (saveContext64 (((enter64 vector errcode s).run [.movFromSp .rdi]).pushWord
      image.afterCall) (frame64 s)).cr2 = s.cr2 := called.cr2
  simp only [onTrap64, amIrqHandle64, hsp, called.frame.frame, hcr2, hhandler]
  by_cases hret : ret = 0
  · rw [if_pos hret, if_pos hret]
    rfl
  · rw [if_neg hret, if_neg hret]
    rfl

theorem resume64_loads (image : Image Reg64 64) (s : Machine64) {ctx : BitVec 64}
    (hclear : ∀ b, Below s.sp 16 b → ¬Within ctx 176 b) :
    (resume64 image s ctx).thread =
        { (contextAt64 s.mem ctx).thread with cr3 := s.cr3, sp0 := s.sp0 } ∧
      (resume64 image s ctx).es = (resume64 image s ctx).ds ∧
        ∀ b, ¬Below s.sp 16 b → (resume64 image s ctx).mem b = s.mem b := by
  have hmem : ∀ b, ¬Below s.sp 16 b → (s.pushWord image.afterCall).mem b = s.mem b := by
    intro b hb
    refine if_neg fun hin => hb ?_
    exact hin.of_sub (by decide) (by decide)
  have hctx : contextAt64 (s.pushWord image.afterCall).mem ctx = contextAt64 s.mem ctx :=
    contextAt64_congr fun b hb => hmem b fun hbelow => hclear b hbelow hb
  rw [resume64_eq, hctx]
  exact ⟨rfl, rfl, hmem⟩

theorem onTrap64_loads (hv : Agreed vector) {m s' : Machine64} {ret : BitVec 64}
    (hhandler : image.userHandler (eventOf (irqOf 64 vector) (codeOf vector errcode) s.cr2)
      (frame64 s) (atHandler64 image vector errcode s) = (m, ret))
    (hclear : ∀ b, Below m.sp 16 b → ¬Within ret 176 b)
    (htrap : onTrap64 image vector errcode s = some s') :
    s'.thread = (contextAt64 m.mem ret).thread.on m.cr3 m.sp0 ∧ s'.es = s'.ds ∧
      ∀ b, ¬Below m.sp 16 b → s'.mem b = m.mem b := by
  rw [onTrap64_eq hv image errcode s hhandler] at htrap
  by_cases hret : ret = 0
  · rw [if_pos hret] at htrap
    cases htrap
  · rw [if_neg hret] at htrap
    obtain rfl := Option.some.inj htrap
    by_cases hcr3 : (contextAt64 m.mem ret).cr3 = 0
    · rw [if_neg (not_not.2 hcr3)]
      obtain ⟨hthread, hes, hmem⟩ := resume64_loads image m hclear
      exact ⟨hthread.trans (if_pos hcr3).symm, hes, hmem⟩
    · rw [if_pos hcr3]
      obtain ⟨hthread, hes, hmem⟩ := resume64_loads image { m with
        cr3 := (contextAt64 m.mem ret).cr3, sp0 := (contextAt64 m.mem ret).rsp0 } hclear
      exact ⟨hthread.trans (if_neg hcr3).symm, hes, hmem⟩

/-! ## New threads -/

def create64 (image : Image Reg64 64) (mem : ByteMemory 64) (kstack : Area 64) :
    Fresh 64 → ByteMemory 64 × BitVec 64
  | .kernel entry arg => kcontext64 image mem kstack entry arg
  | .user ptr uvm entry => ucontext64 mem ptr uvm kstack entry

def fresh64 (image : Image Reg64 64) (kstack : Area 64) : Fresh 64 → Thread Reg64 64
  | .kernel entry arg =>
    { regs := Function.update (Function.update (fun _ => 0) .rdi arg) .rsi entry
      sp := kstack.stop
      ip := image.kcontextStart
      flags := BitVec.twoPow 64 FL_IF
      cs := KSEL SEG_KCODE
      ds := 0
      ss := 0
      cr3 := 0
      sp0 := 0 }
  | .user ptr uvm entry =>
    { regs := fun _ => 0
      sp := uvm.stop
      ip := entry
      flags := BitVec.twoPow 64 FL_IF
      cs := USEL SEG_UCODE
      ds := USEL SEG_UDATA
      ss := USEL SEG_UDATA
      cr3 := ptr
      sp0 := kstack.stop }

theorem words_zeroed (mem : ByteMemory 64) (a : BitVec 64) :
    words (zeroed mem a 176) a 22 = List.replicate 22 0 :=
  words_zero (fun _ hb => if_pos hb) (by decide)

theorem create64_context (image : Image Reg64 64) (mem : ByteMemory 64) (kstack : Area 64)
    (f : Fresh 64) : (create64 image mem kstack f).2 = kstack.stop - 176 := by
  cases f with
  | kernel entry arg => rfl
  | user ptr uvm entry => rfl

theorem create64_thread (image : Image Reg64 64) (mem : ByteMemory 64) (kstack : Area 64)
    (f : Fresh 64) : (contextAt64 (create64 image mem kstack f).1
      (create64 image mem kstack f).2).thread = fresh64 image kstack f := by
  cases f with
  | kernel entry arg =>
      have hctx : contextAt64 (create64 image mem kstack (.kernel entry arg)).1
          (kstack.stop - 176) = ⟨0, Function.update (Function.update (fun _ => 0) .rdi arg)
            .rsi entry, image.kcontextStart, (KSEL SEG_KCODE).setWidth 64, BitVec.twoPow 64 FL_IF,
            kstack.stop, 0, 0⟩ := by
        apply contextAt64_of_words (n := 22)
        simp (disch := decide) only [create64, kcontext64, words_store, words_zeroed]
        rfl
      have hcs : ((KSEL SEG_KCODE).setWidth 64).setWidth 16 = KSEL SEG_KCODE := by decide
      have hss : (0 : BitVec 64).setWidth 16 = (0 : BitVec 16) := by decide
      rw [create64_context, hctx]
      simp only [Context64.thread, fresh64, hcs, hss]
  | user ptr uvm entry =>
      have hctx : contextAt64 (create64 image mem kstack (.user ptr uvm entry)).1
          (kstack.stop - 176) = ⟨ptr, fun _ => 0, entry, (USEL SEG_UCODE).setWidth 64,
            BitVec.twoPow 64 FL_IF, uvm.stop, (USEL SEG_UDATA).setWidth 64, kstack.stop⟩ := by
        apply contextAt64_of_words (n := 22)
        simp (disch := decide) only [create64, ucontext64, words_store, words_zeroed]
        rfl
      have hcs : ((USEL SEG_UCODE).setWidth 64).setWidth 16 = USEL SEG_UCODE := by decide
      have hss : ((USEL SEG_UDATA).setWidth 64).setWidth 16 = USEL SEG_UDATA := by decide
      rw [create64_context, hctx]
      simp only [Context64.thread, fresh64, hcs, hss]

theorem create64_frame {image : Image Reg64 64} {kstack : Area 64} {f : Fresh 64}
    (hb : ¬Below kstack.stop 176 b) : (create64 image mem kstack f).1 b = mem b := by
  have hframe (mem : ByteMemory 64) (v : BitVec 64) (i : Nat) (hi : i < 22) :
      store mem (slot (kstack.stop - 176) i) v b = mem b := store_frame hi hb
  have hzeroed : zeroed mem (kstack.stop - 176) 176 b = mem b := if_neg hb
  cases f with
  | kernel entry arg =>
      simp (disch := decide) only [create64, kcontext64, hframe, hzeroed]
  | user ptr uvm entry =>
      simp (disch := decide) only [create64, ucontext64, hframe, hzeroed]

/-! ## The code of the 64-bit machine -/

def cte64 : Cte Reg64 64 where
  room := 256
  size := 176
  spill := 0
  frame := frame64
  atHandler := atHandler64
  onTrap := onTrap64
  create := create64
  Agreed := Agreed
  event := fun vector errcode s => eventOf (irqOf 64 vector) (codeOf vector errcode) s.cr2
  threadAt := fun mem a => (contextAt64 mem a).thread
  fresh := fresh64
  Segments := fun x => x.ds = x.ss
  Loadable := fun _ _ _ => True
  spill_le := by decide
  room_lt := by decide
  segments_eq := by
    intro x y _ hds hss hx
    rw [← hds, ← hss, hx]
  threadAt_congr := fun h => congrArg Context64.thread (contextAt64_congr h)
  frame_below := by
    intro s b hb
    have hslot : slot (frame64 s - BitVec.ofNat 64 8) 1 = frame64 s := slot_sub (frame64 s) 1
    rw [← hslot] at hb
    have hframe : Within (frame64 s - BitVec.ofNat 64 8) 184 b := hb.of_slot (n := 22)
    exact below_of_frame64 (Nat.lt_of_lt_of_le hframe (by decide))
  frame_loadable := fun _ => trivial
  atHandler_mem := atHandler64_mem
  atHandler_saved := atHandler64_saved
  atHandler_space := fun _ _ _ _ => atHandler64_space
  onTrap_loads := by
    intro image v errcode s m s' ret hv hhandler _ hclear _ htrap
    obtain ⟨hthread, hes, hmem⟩ := onTrap64_loads hv hhandler hclear htrap
    exact ⟨hthread, hes, fun b hb _ => hmem b hb⟩
  create_saved := by
    intro image mem kstack f hroom
    refine ⟨create64_thread image mem kstack f, ?_, ?_⟩
    · intro b hb
      rw [create64_context] at hb
      exact Cte.below_area (Nat.le_trans (by decide) hroom) hb
    · intro b hb
      exact create64_frame fun hbelow => hb (Cte.below_area (Nat.le_trans (by decide) hroom) hbelow)
  create_loadable := by
    intro image mem kstack f
    cases f with
    | kernel entry arg => exact ⟨trivial, rfl⟩
    | user ptr uvm entry => exact ⟨trivial, rfl⟩
  fresh_top := by
    intro image kstack f
    cases f with
    | kernel entry arg =>
        have hkernel : ¬User (KSEL SEG_KCODE) := by decide
        exact ⟨if_neg hkernel, fun huser => absurd huser hkernel⟩
    | user ptr uvm entry =>
        have huser : User (USEL SEG_UCODE) := by decide
        exact ⟨if_pos huser, fun _ => ⟨ptr, uvm, entry, rfl, rfl⟩⟩

/-- A new thread of the kernel goes on in `entry`, with its argument and with the address of
`__am_panic_on_return` on its stack. -/
structure Enters64 (image : Image Reg64 64) (kstack : Area 64) (entry arg : BitVec 64)
    (s : Machine64) : Prop where
  ip : s.ip = entry
  argument : s.regs .rdi = arg
  sp : s.sp = kstack.stop - 8
  return_address : load s.mem s.sp = image.panicOnReturn
  enabled : s.flags.getLsbD FL_IF = true
  kernel : ¬User s.cs

theorem kcontextStart64_enters {kstack : Area 64} {entry arg cr3 sp0 : BitVec 64}
    (hs : s.thread = (fresh64 image kstack (.kernel entry arg)).on cr3 sp0) :
    Enters64 image kstack entry arg (kcontextStart64 image s) := by
  have hregs : s.regs = Function.update (Function.update (fun _ => 0) .rdi arg) .rsi entry :=
    congrArg Thread.regs hs
  have hsp : s.sp = kstack.stop := congrArg Thread.sp hs
  have hflags : s.flags = BitVec.twoPow 64 FL_IF := congrArg Thread.flags hs
  have hcs : s.cs = KSEL SEG_KCODE := congrArg Thread.cs hs
  constructor
  · exact (congrFun hregs .rsi).trans (Function.update_self _ _ _)
  · exact congrFun hregs .rdi
  · exact congrArg (· - 8) hsp
  · exact load_store (by decide)
  · have hflag : s.flags.getLsbD FL_IF = true := by
      rw [hflags]
      decide
    exact hflag
  · have hkernel : ¬User s.cs := by
      rw [hcs]
      decide
    exact hkernel

variable {T : Type} [DecidableEq T] {stack : T → Area 64} {v : Virtual Reg64 T 64}
  {σ₀ σ : System Reg64 T 64} {log : List (Label Reg64 T 64)}

/-- In every run of the 64-bit machine, each thread that runs on after a trap has the registers
that it had when it was interrupted, and a new thread of the kernel enters its function. -/
theorem threads64_run (hstacks : Cte.Disjoint stack) (agrees : cte64.Agrees stack v σ₀)
    (run : Run anyStep (cte64.Step image stack) σ₀ log σ) :
    cte64.Agrees stack (v.applyAll log) σ ∧ ∀ entry arg cr3 sp0,
      (v.applyAll log).threads σ.cur =
        some ((fresh64 image (stack σ.cur) (.kernel entry arg)).on cr3 sp0) →
      Enters64 image (stack σ.cur) entry arg (kcontextStart64 image σ.machine) := by
  have after := Cte.Run.agrees hstacks agrees run
  refine ⟨after, ?_⟩
  intro entry arg cr3 sp0 hfresh
  have hrunning := after.running
  rw [after.cur, hfresh] at hrunning
  exact kcontextStart64_enters (Option.some.inj hrunning).symm

/-! ## A switch to a new thread -/

def stacks64 : Bool → Area 64
  | false => ⟨4096, 8192⟩
  | true => ⟨8192, 12288⟩

/-- A handler that always switches to the second thread. -/
def image64 : Image Reg64 64 where
  kcontextStart := 256
  panicOnReturn := 512
  afterCall := 768
  userHandler := fun _ tf s => ({ s with sp := tf - 64 }, 12288 - 176)

def start64 : System Reg64 Bool 64 where
  machine :=
    { regs := fun _ => 0, sp := 8192, ip := 1024, flags := 512, cs := KSEL SEG_KCODE, ds := 0
      es := 0, ss := 0, cr2 := 0, cr3 := 16384, sp0 := 0, ss0 := 0, mem := fun _ => 0 }
  saved := fun _ => none
  cur := false

theorem start64_agrees : cte64.Agrees stacks64 ⟨fun t => if t then none else
    some start64.machine.thread, false⟩ start64 where
  cur := rfl
  running := rfl
  es := rfl
  sound := by
    intro t x hx
    cases t with
    | true => cases hx
    | false =>
        obtain rfl : start64.machine.thread = x := Option.some.inj hx
        have hkernel : ¬User start64.machine.thread.cs := by decide
        refine ⟨?_, fun huser => absurd huser hkernel, rfl⟩
        intro b hb
        have htop : start64.machine.thread.top = (stacks64 false).stop := rfl
        rw [htop] at hb
        exact Cte.below_area (by decide) hb
  suspended := by
    intro t _ a ha
    cases ha

theorem disjoint64 : Cte.Disjoint stacks64 := by
  have hpages (b : BitVec 64) (hb : (stacks64 false).Has b) : ¬(stacks64 true).Has b :=
    Cte.above_area (by decide) (by decide) (by decide) hb
  intro t t' hne b hb hb'
  cases t with
  | false =>
      cases t' with
      | false => exact hne rfl
      | true => exact hpages b hb hb'
  | true =>
      cases t' with
      | false => exact hpages b hb' hb
      | true => exact hne rfl

def created64 : System Reg64 Bool 64 where
  machine := { start64.machine with
    mem := (create64 image64 start64.machine.mem (stacks64 true) (.kernel 1280 7)).1 }
  saved := Function.update start64.saved true
    (some (create64 image64 start64.machine.mem (stacks64 true) (.kernel 1280 7)).2)
  cur := false

/-- What the first thread does: it makes the second one, and it yields. -/
def switch64 : List (Label Reg64 Bool 64) :=
  [.create true (fresh64 image64 (stacks64 true) (.kernel 1280 7)), .trap id true]

theorem handles64 (h : Machine64) : cte64.Handles stacks64 created64 h id true
    { h with sp := frame64 created64.machine - 64 } (12288 - 176) where
  returns := rfl
  own := rfl
  contexts := fun _ _ => rfl
  ss := rfl
  cr3 := rfl
  sp0 := rfl
  stack := by
    intro b hb
    have hframe : cte64.frame created64.machine = 7960 := by decide
    have hb' : Within 7880 16 b := by
      have hbase : frame64 created64.machine - 64 - BitVec.ofNat 64 16 = 7880 := by decide
      rw [← hbase]
      exact hb
    obtain ⟨hlow, hhigh⟩ := (within_iff (by decide)).1 hb'
    rw [hframe]
    refine ⟨(within_iff (by decide)).2 ⟨?_, ?_⟩, fun hin => ?_⟩
    · exact Nat.le_trans (by decide) hlow
    · exact Nat.lt_of_lt_of_le hhigh (by decide)
    · have hstart := ((within_iff (by decide)).1 hin).1
      exact absurd (Nat.lt_of_le_of_lt hstart hhigh) (by decide)

theorem threads64_run_switch : ∃ σ, Run anyStep (cte64.Step image64 stacks64) start64 switch64 σ ∧
    (cte64.Agrees stacks64 (Virtual.applyAll ⟨fun t => if t then none else
      some start64.machine.thread, false⟩ switch64) σ ∧
      ∀ entry arg cr3 sp0, (Virtual.applyAll ⟨fun t => if t then none else
        some start64.machine.thread, false⟩ switch64).threads σ.cur =
          some ((fresh64 image64 (stacks64 σ.cur) (.kernel entry arg)).on cr3 sp0) →
        Enters64 image64 (stacks64 σ.cur) entry arg (kcontextStart64 image64 σ.machine)) := by
  have hcreate : cte64.Step image64 stacks64 start64
      [.create true (fresh64 image64 (stacks64 true) (.kernel 1280 7))] created64 :=
    Cte.Step.create (t := true) (f := .kernel 1280 7) (by decide) (by decide)
      fun _ _ _ hf => by cases hf
  have htrap := onTrap64_eq (by decide : Agreed 129) image64 0 created64.machine rfl
  have hret : (12288 : BitVec 64) - 176 ≠ 0 := by decide
  have hyield := Cte.Step.trap (c := cte64) (by decide : Agreed 129) rfl
    (handles64 (atHandler64 image64 129 0 created64.machine)) (htrap.trans (if_neg hret))
  have run : Run anyStep (cte64.Step image64 stacks64) start64 switch64 _ :=
    .snoc (.snoc .start trivial hcreate) trivial hyield
  exact ⟨_, run, threads64_run disjoint64 start64_agrees run⟩

end OSLabs.Trap
