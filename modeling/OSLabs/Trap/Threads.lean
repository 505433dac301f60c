import OSLabs.Trap.Model
import OSLabs.Lib.Run

/-! # Threads that share a processor

Threads run on one processor with one stack of the kernel each. A trap saves the thread that
runs, and the handler chooses the thread that runs on. Against this stand virtual
processors, one for each thread, of which a trap changes nothing but who goes on. Code that
saves and loads contexts as `Cte` says gives each thread its virtual processor.
-/

namespace OSLabs.Trap

open Lib (ByteMemory Run anyStep)
open Lib.ByteMemory

variable {R T : Type} {w : Nat} [DecidableEq R] [DecidableEq T]

/-! ## Virtual processors -/

/-- What a thread sees of the processor, with the page table and the kernel stack that come
with it. -/
structure Thread (R : Type) (w : Nat) where
  regs : R → BitVec w
  sp : BitVec w
  ip : BitVec w
  flags : BitVec w
  cs : BitVec 16
  ds : BitVec 16
  ss : BitVec 16
  cr3 : BitVec w
  sp0 : BitVec w

namespace Thread

variable (x : Thread R w)

/-- Where a trap of the thread starts to push. -/
def top : BitVec w := if User x.cs then x.sp0 else x.sp

/-- A thread without an address space takes the one that there is. -/
def on (cr3 sp0 : BitVec w) : Thread R w := if x.cr3 = 0 then { x with cr3, sp0 } else x

def edit (f : (R → BitVec w) → R → BitVec w) : Thread R w := { x with regs := f x.regs }

end Thread

structure Virtual (R T : Type) (w : Nat) where
  threads : T → Option (Thread R w)
  cur : T

/-- A trap may edit the registers of the thread that it interrupts. -/
inductive Label (R T : Type) (w : Nat) where
  | compute (x : Thread R w)
  | create (t : T) (x : Thread R w)
  | trap (f : (R → BitVec w) → R → BitVec w) (next : T)

namespace Virtual

def apply (v : Virtual R T w) : Label R T w → Virtual R T w
  | .compute x => { v with threads := Function.update v.threads v.cur (some x) }
  | .create t x => { v with threads := Function.update v.threads t (some x) }
  | .trap f next =>
    let threads := Function.update v.threads v.cur ((v.threads v.cur).map (·.edit f))
    let old := v.threads v.cur
    { threads := Function.update threads next ((threads next).map fun x =>
        old.elim x fun y => x.on y.cr3 y.sp0)
      cur := next }

def applyAll (v : Virtual R T w) (ls : List (Label R T w)) : Virtual R T w := ls.foldl apply v

end Virtual

/-! ## The machine -/

def Machine.thread (s : Machine R w) : Thread R w :=
  ⟨s.regs, s.sp, s.ip, s.flags, s.cs, s.ds, s.ss, s.cr3, s.sp0⟩

inductive Fresh (w : Nat) where
  | kernel (entry arg : BitVec w)
  | user (ptr : BitVec w) (uvm : Area w) (entry : BitVec w)

def Area.Has (a : Area w) (b : BitVec w) : Prop := Within a.start (a.stop - a.start).toNat b

def Below (top : BitVec w) (n : Nat) (b : BitVec w) : Prop :=
  Within (top - BitVec.ofNat w n) n b

/-- Code that saves a thread when it traps and loads it later. A trap changes at most `room`
bytes below the top before it calls the handler, a context has `size` bytes, and loading a
thread of the kernel changes at most `spill` bytes below its stack pointer. -/
structure Cte (R : Type) (w : Nat) [DecidableEq R] where
  room : Nat
  size : Nat
  spill : Nat
  frame : Machine R w → BitVec w
  atHandler : Image R w → Nat → BitVec w → Machine R w → Machine R w
  onTrap : Image R w → Nat → BitVec w → Machine R w → Option (Machine R w)
  create : Image R w → ByteMemory w → Area w → Fresh w → ByteMemory w × BitVec w
  Agreed : Nat → Prop
  event : Nat → BitVec w → Machine R w → Event w
  threadAt : ByteMemory w → BitVec w → Thread R w
  fresh : Image R w → Area w → Fresh w → Thread R w
  /-- The segments of a thread as the code restores them. -/
  Segments : Thread R w → Prop
  /-- The context at an address may be loaded, by its code segment and its stack pointer. -/
  Loadable : BitVec 16 → BitVec w → BitVec w → Prop
  spill_le : spill ≤ room
  room_lt : room < 2 ^ w
  segments_eq : ∀ {x y : Thread R w}, x.cs = y.cs → x.ds = y.ds → x.ss = y.ss → Segments x →
    Segments y
  threadAt_congr : ∀ {mem mem' : ByteMemory w} {a : BitVec w},
    (∀ b, Within a size b → mem' b = mem b) → threadAt mem' a = threadAt mem a
  frame_below : ∀ {s : Machine R w} {b : BitVec w}, Within (frame s) size b →
    Below s.thread.top room b
  frame_loadable : ∀ {s : Machine R w}, Segments s.thread → Loadable s.cs s.sp (frame s)
  atHandler_mem : ∀ {image : Image R w} {v : Nat} {errcode : BitVec w} {s : Machine R w}
    {b : BitVec w}, Agreed v → ¬Below s.thread.top room b →
      (atHandler image v errcode s).mem b = s.mem b
  atHandler_saved : ∀ {image : Image R w} {v : Nat} {errcode : BitVec w} {s : Machine R w},
    Agreed v → Segments s.thread →
      threadAt (atHandler image v errcode s).mem (frame s) = s.thread
  atHandler_space : ∀ (image : Image R w) (v : Nat) (errcode : BitVec w) (s : Machine R w),
    Agreed v → (atHandler image v errcode s).cr3 = s.cr3 ∧
      (atHandler image v errcode s).sp0 = s.sp0
  onTrap_loads : ∀ {image : Image R w} {v : Nat} {errcode : BitVec w} {s m s' : Machine R w}
    {ret : BitVec w}, Agreed v →
      image.userHandler (event v errcode s) (frame s) (atHandler image v errcode s) = (m, ret) →
      m.ss = (atHandler image v errcode s).ss →
      (∀ b, Below m.sp (2 * (w / 8)) b → ¬Within ret size b) →
      Loadable (threadAt m.mem ret).cs (threadAt m.mem ret).sp ret →
      onTrap image v errcode s = some s' →
      s'.thread = (threadAt m.mem ret).on m.cr3 m.sp0 ∧ s'.es = s'.ds ∧
        ∀ b, ¬Below m.sp (2 * (w / 8)) b →
          (User (threadAt m.mem ret).cs ∨ ¬Below (threadAt m.mem ret).sp spill b) →
          s'.mem b = m.mem b
  create_saved : ∀ (image : Image R w) (mem : ByteMemory w) (kstack : Area w) (f : Fresh w),
    room ≤ (kstack.stop - kstack.start).toNat →
    threadAt (create image mem kstack f).1 (create image mem kstack f).2 = fresh image kstack f ∧
      (∀ b, Within (create image mem kstack f).2 size b → kstack.Has b) ∧
      ∀ b, ¬kstack.Has b → (create image mem kstack f).1 b = mem b
  create_loadable : ∀ (image : Image R w) (mem : ByteMemory w) (kstack : Area w) (f : Fresh w),
    Loadable (fresh image kstack f).cs (fresh image kstack f).sp (create image mem kstack f).2 ∧
      Segments (fresh image kstack f)
  fresh_top : ∀ {image : Image R w} {kstack : Area w} {f : Fresh w},
    (fresh image kstack f).top = kstack.stop ∧
      (User (fresh image kstack f).cs → ∃ ptr uvm entry, f = .user ptr uvm entry ∧
        (fresh image kstack f).cr3 = ptr)

/-- The machine, where the contexts of the threads that do not run are, and which one runs. -/
structure System (R T : Type) (w : Nat) where
  machine : Machine R w
  saved : T → Option (BitVec w)
  cur : T

/-- `b` is in the context of another thread than the one that runs. -/
def System.Suspended (σ : System R T w) (size : Nat) (b : BitVec w) : Prop :=
  ∃ t ≠ σ.cur, ∃ a, σ.saved t = some a ∧ Within a size b

namespace Cte

variable (c : Cte R w) (image : Image R w) (stack : T → Area w)

/-- There is room for a trap below the top. -/
def Roomy (kstack : Area w) (x : Thread R w) : Prop := ∀ b, Below x.top c.room b → kstack.Has b

/-- The current thread computes. It stays on its side of the kernel's border, does not touch
the saved contexts of the others, and leaves the data segments as it has found them. -/
structure Computes (stack : T → Area w) (σ : System R T w) (s' : Machine R w) : Prop where
  contexts : ∀ b, σ.Suspended c.size b → s'.mem b = σ.machine.mem b
  cr3 : s'.cr3 = σ.machine.cr3
  sp0 : s'.sp0 = σ.machine.sp0
  user : User s'.cs ↔ User σ.machine.cs
  segments : c.Segments s'.thread ∧ s'.es = s'.ds
  roomy : ¬User s'.cs → c.Roomy (stack σ.cur) s'.thread

/-- The handler, called for a trap of the current thread, keeps the context that it is given
but for the registers that it edits, touches no other saved context, and returns the one of
`next`. Its own stack is below the frame. -/
structure Handles (stack : T → Area w) (σ : System R T w) (h : Machine R w)
    (f : (R → BitVec w) → R → BitVec w) (next : T) (m : Machine R w) (ret : BitVec w) : Prop where
  returns : (if next = σ.cur then some (c.frame σ.machine) else σ.saved next) = some ret
  own : c.threadAt m.mem (c.frame σ.machine) =
    (c.threadAt h.mem (c.frame σ.machine)).edit f
  contexts : ∀ b, σ.Suspended c.size b → m.mem b = h.mem b
  ss : m.ss = h.ss
  cr3 : m.cr3 = h.cr3
  sp0 : m.sp0 = h.sp0
  stack : ∀ b, Below m.sp (2 * (w / 8)) b → (stack σ.cur).Has b ∧
    ¬Within (c.frame σ.machine) c.size b

inductive Step (σ : System R T w) : List (Label R T w) → System R T w → Prop where
  | compute {s' : Machine R w} (computes : c.Computes stack σ s') :
      Step σ [.compute s'.thread] { σ with machine := s' }
  | create {t : T} {f : Fresh w} (ht : t ≠ σ.cur)
      (hroom : c.room ≤ ((stack t).stop - (stack t).start).toNat)
      (hptr : ∀ ptr uvm entry, f = .user ptr uvm entry → ptr ≠ 0) :
      Step σ [.create t (c.fresh image (stack t) f)]
        { σ with
          machine := { σ.machine with mem := (c.create image σ.machine.mem (stack t) f).1 }
          saved := Function.update σ.saved t
            (some (c.create image σ.machine.mem (stack t) f).2) }
  | trap {v : Nat} {errcode : BitVec w} {m s' : Machine R w} {ret : BitVec w}
      {f : (R → BitVec w) → R → BitVec w} {next : T} (hv : c.Agreed v)
      (hhandler : image.userHandler (c.event v errcode σ.machine) (c.frame σ.machine)
        (c.atHandler image v errcode σ.machine) = (m, ret))
      (handles : c.Handles stack σ (c.atHandler image v errcode σ.machine) f next m ret)
      (htrap : c.onTrap image v errcode σ.machine = some s') :
      Step σ [.trap f next]
        { machine := s'
          saved := Function.update σ.saved σ.cur (some (c.frame σ.machine))
          cur := next }

/-- A thread that may run on its stack of the kernel. -/
structure Sound (kstack : Area w) (x : Thread R w) : Prop where
  roomy : c.Roomy kstack x
  space : User x.cs → x.cr3 ≠ 0
  segments : c.Segments x

/-- The context at `a` resumes `x`. -/
structure Holds (kstack : Area w) (mem : ByteMemory w) (x : Thread R w) (a : BitVec w) :
    Prop where
  thread : c.threadAt mem a = x
  inside : ∀ b, Within a c.size b → kstack.Has b
  loadable : c.Loadable x.cs x.sp a

/-- The current thread is on the machine, and each other one is in its context. -/
structure Agrees (v : Virtual R T w) (σ : System R T w) : Prop where
  cur : v.cur = σ.cur
  running : v.threads v.cur = some σ.machine.thread
  es : σ.machine.es = σ.machine.ds
  sound : ∀ t x, v.threads t = some x → c.Sound (stack t) x
  suspended : ∀ t ≠ σ.cur, ∀ a, σ.saved t = some a →
    ∃ x, v.threads t = some x ∧ c.Holds (stack t) σ.machine.mem x a

variable {c image stack} {v : Virtual R T w} {σ σ' : System R T w}

theorem Holds.mono {kstack : Area w} {mem mem' : ByteMemory w} {x : Thread R w} {a : BitVec w}
    (holds : c.Holds kstack mem x a) (h : ∀ b, Within a c.size b → mem' b = mem b) :
    c.Holds kstack mem' x a where
  thread := (c.threadAt_congr h).trans holds.thread
  inside := holds.inside
  loadable := holds.loadable

/-- Stacks of different threads have no byte in common. -/
def Disjoint (stack : T → Area w) : Prop := ∀ t t', t ≠ t' → ∀ b, (stack t).Has b →
  ¬(stack t').Has b

theorem Agrees.compute (agrees : c.Agrees stack v σ) {s' : Machine R w}
    (computes : c.Computes stack σ s') :
    c.Agrees stack (v.apply (.compute s'.thread)) { σ with machine := s' } where
  cur := agrees.cur
  running := Function.update_self _ _ _
  es := computes.segments.2
  sound := by
    intro t x hx
    by_cases ht : t = v.cur
    · subst ht
      have hold := agrees.sound _ _ agrees.running
      obtain rfl : s'.thread = x :=
        Option.some.inj ((Function.update_self v.cur _ v.threads).symm.trans hx)
      refine ⟨?_, ?_, computes.segments.1⟩
      · by_cases huser : User s'.cs
        · have htop : s'.thread.top = σ.machine.thread.top := by
            have hold : User σ.machine.cs := computes.user.1 huser
            exact (if_pos huser).trans (computes.sp0.trans (if_pos hold).symm)
          intro b hb
          rw [htop] at hb
          exact hold.roomy b hb
        · rw [agrees.cur]
          exact computes.roomy huser
      · intro huser
        have hcr3 : s'.thread.cr3 = σ.machine.thread.cr3 := computes.cr3
        rw [hcr3]
        exact hold.space (computes.user.1 huser)
    · exact agrees.sound t x ((Function.update_of_ne ht _ v.threads).symm.trans hx)
  suspended := by
    intro t ht a ha
    obtain ⟨x, hx, holds⟩ := agrees.suspended t ht a ha
    refine ⟨x, ?_, holds.mono fun b hb => computes.contexts b ⟨t, ht, a, ha, hb⟩⟩
    rw [← agrees.cur] at ht
    exact (Function.update_of_ne ht _ _).trans hx

theorem below_area {kstack : Area w} {n : Nat} (hn : n ≤ (kstack.stop - kstack.start).toNat)
    {b : BitVec w} (hb : Below kstack.stop n b) : kstack.Has b := by
  have hstart : kstack.stop - BitVec.ofNat w (kstack.stop - kstack.start).toNat = kstack.start := by
    rw [BitVec.ofNat_toNat, BitVec.setWidth_eq]
    abel
  unfold Area.Has
  rw [← hstart]
  apply hb.of_sub hn
  rw [hstart]
  omega

theorem above_area {a a' : Area w} (ha : a.start.toNat ≤ a.stop.toNat)
    (hstop : a.stop.toNat ≤ a'.start.toNat) (ha' : a'.start.toNat ≤ a'.stop.toNat) {b : BitVec w}
    (hb : a.Has b) : ¬a'.Has b := by
  intro hb'
  have hsize := sub_toNat_eq a.start a.stop
  have hsize' := sub_toNat_eq a'.start a'.stop
  rw [if_pos ha] at hsize
  rw [if_pos ha'] at hsize'
  have hlt := a.stop.isLt
  have hlt' := a'.stop.isLt
  have hbelow := ((within_iff (by omega)).1 hb).2
  have habove := ((within_iff (by omega)).1 hb').1
  omega

theorem sound_fresh {image : Image R w} {kstack : Area w} {f : Fresh w}
    (hroom : c.room ≤ (kstack.stop - kstack.start).toNat)
    (hptr : ∀ ptr uvm entry, f = .user ptr uvm entry → ptr ≠ 0) :
    c.Sound kstack (c.fresh image kstack f) where
  roomy := by
    intro b hb
    rw [c.fresh_top.1] at hb
    exact below_area hroom hb
  space := by
    intro huser
    obtain ⟨ptr, uvm, entry, hf, hcr3⟩ := c.fresh_top.2 huser
    rw [hcr3]
    exact hptr ptr uvm entry hf
  segments := (c.create_loadable image (fun _ => 0) kstack f).2

theorem Agrees.create (agrees : c.Agrees stack v σ) (hstacks : Disjoint stack) {t : T}
    {f : Fresh w} (ht : t ≠ σ.cur)
    (hroom : c.room ≤ ((stack t).stop - (stack t).start).toNat)
    (hptr : ∀ ptr uvm entry, f = .user ptr uvm entry → ptr ≠ 0) :
    c.Agrees stack (v.apply (.create t (c.fresh image (stack t) f)))
      { σ with
        machine := { σ.machine with mem := (c.create image σ.machine.mem (stack t) f).1 }
        saved := Function.update σ.saved t
          (some (c.create image σ.machine.mem (stack t) f).2) } := by
  obtain ⟨hthread, hinside, hframe⟩ := c.create_saved image σ.machine.mem (stack t) f hroom
  have hcur : v.cur ≠ t := by
    rw [agrees.cur]
    exact ht.symm
  constructor
  · exact agrees.cur
  · exact (Function.update_of_ne hcur _ _).trans agrees.running
  · exact agrees.es
  · intro u x hx
    by_cases hu : u = t
    · subst hu
      obtain rfl : c.fresh image (stack u) f = x :=
        Option.some.inj ((Function.update_self u _ v.threads).symm.trans hx)
      exact sound_fresh hroom hptr
    · exact agrees.sound u x ((Function.update_of_ne hu _ v.threads).symm.trans hx)
  · intro u hu a ha
    by_cases hut : u = t
    · subst hut
      obtain rfl : (c.create image σ.machine.mem (stack u) f).2 = a :=
        Option.some.inj ((Function.update_self u _ σ.saved).symm.trans ha)
      exact ⟨_, Function.update_self _ _ _, hthread, hinside,
        (c.create_loadable image σ.machine.mem (stack u) f).1⟩
    · obtain ⟨x, hx, holds⟩ := agrees.suspended u hu a
        ((Function.update_of_ne hut _ σ.saved).symm.trans ha)
      refine ⟨x, (Function.update_of_ne hut _ _).trans hx, holds.mono fun b hb => ?_⟩
      exact hframe b (hstacks u t hut b (holds.inside b hb))

theorem Sound.edit {kstack : Area w} {x : Thread R w} (sound : c.Sound kstack x)
    (f : (R → BitVec w) → R → BitVec w) : c.Sound kstack (x.edit f) where
  roomy := sound.roomy
  space := sound.space
  segments := c.segments_eq (x := x) rfl rfl rfl sound.segments

theorem Sound.on {kstack : Area w} {x : Thread R w} (sound : c.Sound kstack x)
    (cr3 sp0 : BitVec w) : c.Sound kstack (x.on cr3 sp0) := by
  unfold Thread.on
  by_cases hzero : x.cr3 = 0
  · have huser : ¬User x.cs := fun huser => sound.space huser hzero
    rw [if_pos hzero]
    refine ⟨?_, fun h => absurd h huser, c.segments_eq (x := x) rfl rfl rfl sound.segments⟩
    intro b hb
    have htop : Thread.top { x with cr3 := cr3, sp0 := sp0 } = x.top :=
      (if_neg huser).trans (if_neg huser).symm
    rw [htop] at hb
    exact sound.roomy b hb
  · rw [if_neg hzero]
    exact sound

theorem below_mono {top b : BitVec w} {n k : Nat} (hnk : n ≤ k) (hb : Below top n b) :
    Below top k b := hb.of_sub hnk (by omega)

section Trap

variable (agrees : c.Agrees stack v σ) (hstacks : Disjoint stack) {vector : Nat}
  {errcode : BitVec w} {m s' : Machine R w} {ret : BitVec w}
  {f : (R → BitVec w) → R → BitVec w} {next : T} (hv : c.Agreed vector)
  (handles : c.Handles stack σ (c.atHandler image vector errcode σ.machine) f next m ret)

include agrees

omit [DecidableEq T] in
theorem Agrees.roomy {b : BitVec w} (hb : Below σ.machine.thread.top c.room b) :
    (stack σ.cur).Has b := by
  rw [← agrees.cur]
  exact (agrees.sound _ _ agrees.running).roomy b hb

include hstacks hv handles

theorem Agrees.other {t : T} (ht : t ≠ σ.cur) {a : BitVec w} (ha : σ.saved t = some a) :
    ∃ x, v.threads t = some x ∧ c.Holds (stack t) m.mem x a := by
  obtain ⟨x, hx, holds⟩ := agrees.suspended t ht a ha
  refine ⟨x, hx, holds.mono fun b hb => ?_⟩
  rw [handles.contexts b ⟨t, ht, a, ha, hb⟩]
  exact c.atHandler_mem hv fun hbelow =>
    hstacks t σ.cur ht b (holds.inside b hb) (agrees.roomy hbelow)

omit hstacks in
theorem Agrees.interrupted :
    c.Holds (stack σ.cur) m.mem (σ.machine.thread.edit f) (c.frame σ.machine) where
  thread := by
    rw [handles.own, c.atHandler_saved hv (agrees.sound _ _ agrees.running).segments]
  inside := fun _ hb => agrees.roomy (c.frame_below hb)
  loadable := c.frame_loadable (agrees.sound _ _ agrees.running).segments

theorem Agrees.returned : ∃ y,
    Function.update v.threads v.cur (some (σ.machine.thread.edit f)) next = some y ∧
      c.Holds (stack next) m.mem y ret := by
  have hreturns := handles.returns
  by_cases hnext : next = σ.cur
  · rw [if_pos hnext] at hreturns
    rw [← Option.some.inj hreturns, hnext, agrees.cur]
    exact ⟨_, Function.update_self _ _ _, agrees.interrupted hv handles⟩
  · rw [if_neg hnext] at hreturns
    obtain ⟨y, hy, holds⟩ := agrees.other hstacks hv handles hnext hreturns
    rw [← agrees.cur] at hnext
    exact ⟨y, (Function.update_of_ne hnext _ _).trans hy, holds⟩

theorem Agrees.kept {t : T} (ht : t ≠ next) {a : BitVec w}
    (ha : Function.update σ.saved σ.cur (some (c.frame σ.machine)) t = some a) :
    ∃ x, Function.update v.threads v.cur (some (σ.machine.thread.edit f)) t = some x ∧
      c.Holds (stack t) m.mem x a ∧
        ∀ b, Within a c.size b → ¬Below m.sp (2 * (w / 8)) b := by
  by_cases hcur : t = σ.cur
  · subst hcur
    obtain rfl : c.frame σ.machine = a :=
      Option.some.inj ((Function.update_self _ _ σ.saved).symm.trans ha)
    refine ⟨_, ?_, agrees.interrupted hv handles, fun b hb hbelow =>
      (handles.stack b hbelow).2 hb⟩
    rw [agrees.cur]
    exact Function.update_self _ _ _
  · obtain ⟨x, hx, holds⟩ := agrees.other hstacks hv handles hcur
      ((Function.update_of_ne hcur _ σ.saved).symm.trans ha)
    refine ⟨x, ?_, holds, fun b hb hbelow =>
      hstacks t σ.cur hcur b (holds.inside b hb) (handles.stack b hbelow).1⟩
    rw [← agrees.cur] at hcur
    exact (Function.update_of_ne hcur _ _).trans hx

omit hstacks hv handles in
theorem Agrees.sound_edited (f : (R → BitVec w) → R → BitVec w) {t : T} {x : Thread R w}
    (hx : Function.update v.threads v.cur (some (σ.machine.thread.edit f)) t = some x) :
    c.Sound (stack t) x := by
  by_cases ht : t = v.cur
  · subst ht
    obtain rfl : σ.machine.thread.edit f = x :=
      Option.some.inj ((Function.update_self _ _ v.threads).symm.trans hx)
    exact (agrees.sound _ _ agrees.running).edit f
  · exact agrees.sound t x ((Function.update_of_ne ht _ v.threads).symm.trans hx)

theorem Agrees.trap
    (hhandler : image.userHandler (c.event vector errcode σ.machine) (c.frame σ.machine)
      (c.atHandler image vector errcode σ.machine) = (m, ret))
    (htrap : c.onTrap image vector errcode σ.machine = some s') :
    c.Agrees stack (v.apply (.trap f next))
      { machine := s'
        saved := Function.update σ.saved σ.cur (some (c.frame σ.machine))
        cur := next } := by
  obtain ⟨y, hy, holds⟩ := agrees.returned hstacks hv handles
  have hclear : ∀ b, Below m.sp (2 * (w / 8)) b → ¬Within ret c.size b := by
    intro b hbelow hb
    by_cases hnext : next = σ.cur
    · have hreturns := handles.returns
      rw [if_pos hnext] at hreturns
      rw [← Option.some.inj hreturns] at hb
      exact (handles.stack b hbelow).2 hb
    · exact hstacks next σ.cur hnext b (holds.inside b hb) (handles.stack b hbelow).1
  have hloadable : c.Loadable (c.threadAt m.mem ret).cs (c.threadAt m.mem ret).sp ret := by
    rw [holds.thread]
    exact holds.loadable
  obtain ⟨hthread, hes, hmem⟩ := c.onTrap_loads hv hhandler handles.ss hclear hloadable htrap
  obtain ⟨hcr3, hsp0⟩ := c.atHandler_space image vector errcode σ.machine hv
  rw [holds.thread, handles.cr3, handles.sp0, hcr3, hsp0] at hthread
  rw [holds.thread] at hmem
  have hy' : c.Sound (stack next) y := agrees.sound_edited f hy
  -- What the virtual processors show after the trap.
  have hthreads : (v.apply (.trap f next)).threads =
      Function.update (Function.update v.threads v.cur (some (σ.machine.thread.edit f))) next
        (some (y.on σ.machine.cr3 σ.machine.sp0)) := by
    simp only [Virtual.apply, agrees.running, Option.map_some, hy]
    rfl
  constructor
  · rfl
  · rw [hthreads, hthread]
    exact Function.update_self _ _ _
  · exact hes
  · intro t x hx
    rw [hthreads] at hx
    by_cases ht : t = next
    · subst ht
      obtain rfl : y.on σ.machine.cr3 σ.machine.sp0 = x :=
        Option.some.inj ((Function.update_self t _ _).symm.trans hx)
      exact hy'.on _ _
    · exact agrees.sound_edited f ((Function.update_of_ne ht _ _).symm.trans hx)
  · intro t ht a ha
    obtain ⟨x, hx, hin, hfar⟩ := agrees.kept hstacks hv handles ht ha
    refine ⟨x, ?_, hin.mono fun b hb => hmem b (hfar b hb) ?_⟩
    · rw [hthreads]
      exact (Function.update_of_ne ht _ _).trans hx
    · by_cases huser : User y.cs
      · exact .inl huser
      · refine .inr fun hbelow => ?_
        have htop : y.top = y.sp := if_neg huser
        have hroom := hy'.roomy b (by rw [htop]; exact below_mono c.spill_le hbelow)
        exact hstacks t next ht b (hin.inside b hb) hroom

end Trap

/-- In every run the thread that runs finds the state of its virtual processor on the machine,
and the others are in their contexts. -/
theorem Run.agrees (hstacks : Disjoint stack) {σ₀ : System R T w} {log : List (Label R T w)}
    (agrees : c.Agrees stack v σ₀) (run : Run anyStep (c.Step image stack) σ₀ log σ) :
    c.Agrees stack (v.applyAll log) σ := by
  apply run.invariant (fun log σ => c.Agrees stack (v.applyAll log) σ) agrees
  intro log es σ σ' _ _ agrees step
  have happly : ∀ l, v.applyAll (log ++ [l]) = (v.applyAll log).apply l := by
    intro l
    exact List.foldl_concat _ _ _ _
  cases step with
  | compute computes =>
      rw [happly]
      exact agrees.compute computes
  | create ht hroom hptr =>
      rw [happly]
      exact agrees.create hstacks ht hroom hptr
  | trap hv hhandler handles htrap =>
      rw [happly]
      exact agrees.trap hstacks hv handles hhandler htrap

end Cte

end OSLabs.Trap
