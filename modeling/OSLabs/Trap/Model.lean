import OSLabs.Trap.Machine

/-! # Traps of the x86 machine

Delivery of an interrupt by the processor, the stubs and the common entry that complete a
`trap_frame` on the stack, `__am_irq_handle`, and `__am_iret`, which resumes the context
that the handler returns. The 64-bit code and the 32-bit code have their own layouts. The
handler is a parameter, with all that the compiled code around its call leaves in registers
and memory.
-/

namespace OSLabs.Trap

open Lib (ByteMemory)
open Lib.ByteMemory

variable {R : Type} {w : Nat}

/-! ## Selectors and vectors -/

def DPL_KERN : BitVec 16 := 0

def DPL_USER : BitVec 16 := 3

def SEG_KCODE : BitVec 16 := 1

def SEG_KDATA : BitVec 16 := 2

def SEG_UCODE : BitVec 16 := 3

def SEG_UDATA : BitVec 16 := 4

def KSEL (seg : BitVec 16) : BitVec 16 := seg <<< 3 ||| DPL_KERN

def USEL (seg : BitVec 16) : BitVec 16 := seg <<< 3 ||| DPL_USER

/-- Code of a less privileged level than the kernel's. -/
def User (cs : BitVec 16) : Prop := cs &&& 3 ≠ 0

instance (cs : BitVec 16) : Decidable (User cs) := inferInstanceAs (Decidable (_ ≠ _))

/-- An entry of `IRQS`: the vector, the privilege of its gate, and whether its stub leaves
the error code to the processor. -/
structure Irq where
  id : Nat
  dpl : BitVec 16
  err : Bool
  deriving DecidableEq, Repr

def IRQS : List Irq :=
  ([0, 1, 2, 3, 4, 5, 6, 7].map fun id => ⟨id, DPL_KERN, false⟩) ++
  [⟨8, DPL_KERN, true⟩, ⟨9, DPL_KERN, false⟩] ++
  ([10, 11, 12, 13, 14].map fun id => ⟨id, DPL_KERN, true⟩) ++
  ([15, 16, 19, 31, 32, 33, 34, 35, 36, 37, 38, 39, 40, 41, 42, 43, 44, 45, 46, 47].map
    fun id => ⟨id, DPL_KERN, false⟩) ++
  [⟨128, DPL_USER, false⟩, ⟨129, DPL_USER, false⟩]

/-- The code at the gate of a vector up to the jump to `trap`: `__am_irq<id>`, or
`__am_irqall` where the table has no entry. -/
def stub (vector : Nat) : List (Instr R w) :=
  match IRQS.find? fun irq => irq.id = vector with
  | some irq => .cli :: ((if irq.err then [] else [.pushImm 0]) ++ [.pushImm (.ofNat w irq.id)])
  | none => [.cli, .pushImm 0, .pushImm (-1)]

def hasErrorCode (vector : Nat) : Prop := vector ∈ [8, 10, 11, 12, 13, 14, 17, 21, 29, 30]

instance (vector : Nat) : Decidable (hasErrorCode vector) :=
  inferInstanceAs (Decidable (_ ∈ _))

/-! ## Events -/

inductive EventKind where
  | EVENT_NULL
  | EVENT_YIELD
  | EVENT_SYSCALL
  | EVENT_PAGEFAULT
  | EVENT_ERROR
  | EVENT_IRQ_TIMER
  | EVENT_IRQ_IODEV
  deriving DecidableEq, Repr

structure Event (w : Nat) where
  event : EventKind
  cause : BitVec w
  ref : BitVec w
  msg : String
  deriving DecidableEq, Repr

def MMAP_NONE : BitVec w := 0

def MMAP_READ : BitVec w := 1

def MMAP_WRITE : BitVec w := 2

/-- The event of a trap, by the `irq` and the `errcode` in its frame. -/
def eventOf (irq errcode cr2 : BitVec w) : Event w :=
  match irq.toNat with
  | 32 => ⟨.EVENT_IRQ_TIMER, 0, 0, "timer interrupt (lapic)"⟩
  | 33 => ⟨.EVENT_IRQ_IODEV, 0, 0, "I/O device IRQ1 (keyboard)"⟩
  | 36 => ⟨.EVENT_IRQ_IODEV, 0, 0, "I/O device IRQ4 (COM1)"⟩
  | 128 => ⟨.EVENT_SYSCALL, 0, 0, "int $0x80 system call"⟩
  | 129 => ⟨.EVENT_YIELD, 0, 0, "int $0x81 yield"⟩
  | 0 => ⟨.EVENT_ERROR, 0, 0, "DE #0 divide by zero"⟩
  | 6 => ⟨.EVENT_ERROR, 0, 0, "UD #6 invalid opcode"⟩
  | 7 => ⟨.EVENT_ERROR, 0, 0, "NM #7 coprocessor error"⟩
  | 8 => ⟨.EVENT_ERROR, 0, 0, "DF #8 double fault"⟩
  | 10 => ⟨.EVENT_ERROR, 0, 0, "TS #10 invalid TSS"⟩
  | 11 => ⟨.EVENT_ERROR, 0, 0, "NP #11 segment/gate not present"⟩
  | 12 => ⟨.EVENT_ERROR, 0, 0, "SS #12 stack fault"⟩
  | 13 => ⟨.EVENT_ERROR, 0, 0, "GP #13, general protection fault"⟩
  | 14 =>
    let cause := if errcode &&& 1 ≠ 0 then MMAP_NONE else 0
    let cause := cause ||| if errcode &&& 2 ≠ 0 then MMAP_WRITE else MMAP_READ
    ⟨.EVENT_PAGEFAULT, cause, cr2, "PF #14, page fault, @cause: PROT_XXX"⟩
  | _ => ⟨.EVENT_ERROR, errcode, 0, "unrecognized interrupt/exception"⟩

/-- What the code takes from elsewhere: addresses that the linker fixes, and the handler,
which is given the event, the address of the saved context and the machine. -/
structure Image (R : Type) (w : Nat) where
  kcontextStart : BitVec w
  panicOnReturn : BitVec w
  afterCall : BitVec w
  userHandler : Event w → BitVec w → Machine R w → Machine R w × BitVec w

/-! ## 64 bits -/

inductive Reg64 where
  | rax | rbx | rcx | rdx | rbp | rsi | rdi
  | r8 | r9 | r10 | r11 | r12 | r13 | r14 | r15
  deriving DecidableEq, Repr

abbrev Machine64 := Machine Reg64 64

/-- `struct Context`, with the registers `rax` to `r15` by their names. -/
structure Context64 where
  cr3 : BitVec 64
  regs : Reg64 → BitVec 64
  rip : BitVec 64
  cs : BitVec 64
  rflags : BitVec 64
  rsp : BitVec 64
  ss : BitVec 64
  rsp0 : BitVec 64

def Reg64.place : Reg64 → Nat
  | rax => 1 | rbx => 2 | rcx => 3 | rdx => 4 | rbp => 5 | rsi => 6 | rdi => 7
  | r8 => 8 | r9 => 9 | r10 => 10 | r11 => 11 | r12 => 12 | r13 => 13 | r14 => 14 | r15 => 15

def contextAt64 (mem : ByteMemory 64) (a : BitVec 64) : Context64 where
  cr3 := load mem (slot a 0)
  regs := fun r => load mem (slot a r.place)
  rip := load mem (slot a 16)
  cs := load mem (slot a 17)
  rflags := load mem (slot a 18)
  rsp := load mem (slot a 19)
  ss := load mem (slot a 20)
  rsp0 := load mem (slot a 21)

def contextWords64 : Nat := 22

/-- The fields of `struct trap_frame` behind the saved context. -/
structure TrapFrame (w : Nat) where
  irq : BitVec w
  errcode : BitVec w
  ip : BitVec w
  cs : BitVec w
  flags : BitVec w
  sp : BitVec w
  ss : BitVec w

def trapFrameAt (contextWords : Nat) (mem : ByteMemory w) (tf : BitVec w) : TrapFrame w where
  irq := load mem (slot tf contextWords)
  errcode := load mem (slot tf (contextWords + 1))
  ip := load mem (slot tf (contextWords + 2))
  cs := load mem (slot tf (contextWords + 3))
  flags := load mem (slot tf (contextWords + 4))
  sp := load mem (slot tf (contextWords + 5))
  ss := load mem (slot tf (contextWords + 6))

/-- The flags that the processor clears on its way through a trap gate: `TF`, `NT`, `RF` and
`VM`. -/
def gateFlags (flags : BitVec w) : BitVec w :=
  setFlag (setFlag (setFlag (setFlag flags 8 false) 14 false) 16 false) 17 false

/-- The processor goes through the gate of `vector`. It aligns the stack, which is the one of
the `tss` if user code is interrupted. -/
def deliver64 (vector : Nat) (errcode : BitVec 64) (s : Machine64) : Machine64 :=
  let top := (if User s.cs then s.sp0 else s.sp) &&& ~~~15
  let t := { s with sp := top }
  let t := (t.pushWord (s.ss.setWidth 64)).pushWord s.sp
  let t := ((t.pushWord s.flags).pushWord (s.cs.setWidth 64)).pushWord s.ip
  let t := if hasErrorCode vector then t.pushWord errcode else t
  { t with
    cs := KSEL SEG_KCODE
    ss := if User s.cs then 0 else s.ss
    flags := gateFlags s.flags }

/-- `trap`, up to the stack pointer that is passed as the frame. -/
def trap64 : List (Instr Reg64 64) :=
  [.cli, .subSp 48, .push .r15, .push .r14, .push .r13, .push .r12, .push .r11, .push .r10,
    .push .r9, .push .r8, .push .rdi, .push .rsi, .push .rbp, .push .rdx, .push .rcx, .push .rbx,
    .push .rax, .pushImm 0]

/-- The fields that `__am_irq_handle` copies into the saved context. -/
def saveContext64 (s : Machine64) (tf : BitVec 64) : Machine64 :=
  let f := trapFrameAt contextWords64 s.mem tf
  let mem := store s.mem (slot tf 16) f.ip
  let mem := store mem (slot tf 17) f.cs
  let mem := store mem (slot tf 18) f.flags
  let mem := store mem (slot tf 19) f.sp
  let mem := store mem (slot tf 21) s.sp0
  let mem := store mem (slot tf 20) f.ss
  let mem := store mem (slot tf 0) s.cr3
  { s with mem }

/-- `__am_irq_handle` up to its call of `__am_iret`, which is passed the result. It panics if
the handler returns no context. -/
def amIrqHandle64 (image : Image Reg64 64) (s : Machine64) (tf : BitVec 64) :
    Option (Machine64 × BitVec 64) :=
  let f := trapFrameAt contextWords64 s.mem tf
  let s := saveContext64 s tf
  let (s, ret) := image.userHandler (eventOf f.irq f.errcode s.cr2) tf s
  if ret = 0 then none
  else
    let ctx := contextAt64 s.mem ret
    some (if ctx.cr3 ≠ 0 then { s with cr3 := ctx.cr3, sp0 := ctx.rsp0 } else s, ret)

/-- `__am_iret` up to `iretq`. -/
def amIret64 : List (Instr Reg64 64) :=
  [.movToSp .rdi, .loadSp 160 .rax, .movwToDs .rax, .movwToEs .rax, .addSp 8, .pop .rax, .pop .rbx,
    .pop .rcx, .pop .rdx, .pop .rbp, .pop .rsi, .pop .rdi, .pop .r8, .pop .r9, .pop .r10,
    .pop .r11, .pop .r12, .pop .r13, .pop .r14, .pop .r15]

def iretq (s : Machine64) : Machine64 :=
  { s with
    ip := load s.mem (slot s.sp 0)
    cs := (load s.mem (slot s.sp 1)).setWidth 16
    flags := load s.mem (slot s.sp 2)
    sp := load s.mem (slot s.sp 3)
    ss := (load s.mem (slot s.sp 4)).setWidth 16 }

def resume64 (image : Image Reg64 64) (s : Machine64) (ctx : BitVec 64) : Machine64 :=
  iretq (((s.setReg .rdi ctx).pushWord image.afterCall).run amIret64)

/-- The machine at the call of `__am_irq_handle`. -/
def enter64 (vector : Nat) (errcode : BitVec 64) (s : Machine64) : Machine64 :=
  (deliver64 vector errcode s).run (stub vector ++ trap64)

def onTrap64 (image : Image Reg64 64) (vector : Nat) (errcode : BitVec 64) (s : Machine64) :
    Option Machine64 := do
  let s := enter64 vector errcode s
  let tf := s.sp
  let s := (s.run [.movFromSp .rdi]).pushWord image.afterCall
  let (s, ret) ← amIrqHandle64 image s tf
  return resume64 image s ret

/-! ## 32 bits -/

inductive Reg32 where
  | eax | ebx | ecx | edx | esi | edi | ebp
  deriving DecidableEq, Repr

abbrev Machine32 := Machine Reg32 32

structure Context32 where
  cr3 : BitVec 32
  ds : BitVec 32
  regs : Reg32 → BitVec 32
  esp0 : BitVec 32
  eip : BitVec 32
  cs : BitVec 32
  eflags : BitVec 32
  esp : BitVec 32
  ss3 : BitVec 32

def Reg32.place : Reg32 → Nat
  | eax => 2 | ebx => 3 | ecx => 4 | edx => 5 | esi => 7 | edi => 8 | ebp => 9

def contextAt32 (mem : ByteMemory 32) (a : BitVec 32) : Context32 where
  cr3 := load mem (slot a 0)
  ds := load mem (slot a 1)
  regs := fun r => load mem (slot a r.place)
  esp0 := load mem (slot a 6)
  eip := load mem (slot a 10)
  cs := load mem (slot a 11)
  eflags := load mem (slot a 12)
  esp := load mem (slot a 13)
  ss3 := load mem (slot a 14)

def contextWords32 : Nat := 15

/-- The stack pointer and `ss` are pushed only if user code is interrupted. -/
def deliver32 (vector : Nat) (errcode : BitVec 32) (s : Machine32) : Machine32 :=
  let t := if User s.cs then
      ({ s with sp := s.sp0, ss := s.ss0 }.pushWord (s.ss.setWidth 32)).pushWord s.sp
    else s
  let t := ((t.pushWord s.flags).pushWord (s.cs.setWidth 32)).pushWord s.ip
  let t := if hasErrorCode vector then t.pushWord errcode else t
  { t with cs := KSEL SEG_KCODE, flags := gateFlags s.flags }

/-- `trap`, up to the stack pointer that is passed as the frame. -/
def trap32 : List (Instr Reg32 32) :=
  [.cli, .subSp 20, .push .ebp, .push .edi, .push .esi, .pushImm 0, .push .edx, .push .ecx,
    .push .ebx, .push .eax, .movwFromDs .eax, .push .eax, .pushImm 0,
    .movwImm (KSEL SEG_KDATA) .eax, .movwToDs .eax, .movwToEs .eax, .movwToSs .eax]

/-- The frame ends before `esp` if the kernel is interrupted. -/
def saveContext32 (s : Machine32) (tf : BitVec 32) : Machine32 :=
  let f := trapFrameAt contextWords32 s.mem tf
  let mem := store s.mem (slot tf 10) f.ip
  let mem := store mem (slot tf 11) f.cs
  let mem := store mem (slot tf 12) f.flags
  let mem := store mem (slot tf 6) s.sp0
  let mem := store mem (slot tf 14) ((USEL SEG_UDATA).setWidth 32)
  let mem := store mem (slot tf 13) (if f.cs &&& 3 ≠ 0 then f.sp else slot tf 22 - 8)
  let mem := store mem (slot tf 0) s.cr3
  { s with mem }

def amIrqHandle32 (image : Image Reg32 32) (s : Machine32) (tf : BitVec 32) :
    Option (Machine32 × BitVec 32) :=
  let f := trapFrameAt contextWords32 s.mem tf
  let s := saveContext32 s tf
  let (s, ret) := image.userHandler (eventOf f.irq f.errcode s.cr2) tf s
  if ret = 0 then none
  else
    let ctx := contextAt32 s.mem ret
    some (if ctx.cr3 ≠ 0 then
        { s with cr3 := ctx.cr3, ss0 := KSEL SEG_KDATA, sp0 := ctx.esp0 }
      else s, ret)

/-- `__am_iret` up to the jump to `.kernel_iret`, which is taken if the comparison finds the
kernel's code segment. -/
def amIret32 : List (Instr Reg32 32) :=
  [.addSp 4, .pop .eax, .movToSp .eax, .addSp 4, .pop .eax, .movwToDs .eax, .movwToEs .eax,
    .cmpwSp (KSEL SEG_KCODE) 36]

def userIret32 : List (Instr Reg32 32) :=
  [.pop .eax, .pop .ebx, .pop .ecx, .pop .edx, .addSp 4, .pop .esi, .pop .edi, .pop .ebp]

def kernelIret32 : List (Instr Reg32 32) :=
  [.pop .eax, .pop .ebx, .pop .ecx, .pop .edx, .addSp 4, .movFromSp .ebp, .load 24 .ebp .edi,
    .load 20 .ebp .esi, .store .esi (-4) .edi,
    .load 16 .ebp .esi, .store .esi (-8) .edi,
    .load 12 .ebp .esi, .store .esi (-12) .edi,
    .load 8 .ebp .esi, .store .esi (-16) .edi,
    .load 4 .ebp .esi, .store .esi (-20) .edi,
    .load 0 .ebp .esi, .store .esi (-24) .edi,
    .leaSp (-24) .edi, .pop .esi, .pop .edi, .pop .ebp]

/-- The stack pointer and `ss` are popped only on the way to user code. -/
def iret32 (s : Machine32) : Machine32 :=
  let t := { s with
    ip := load s.mem (slot s.sp 0)
    cs := (load s.mem (slot s.sp 1)).setWidth 16
    flags := load s.mem (slot s.sp 2)
    sp := slot s.sp 3 }
  if User t.cs then
    { t with sp := load s.mem (slot s.sp 3), ss := (load s.mem (slot s.sp 4)).setWidth 16 }
  else t

/-- The call of `__am_iret`, which finds its argument behind the return address. -/
def resume32 (image : Image Reg32 32) (s : Machine32) (ctx : BitVec 32) : Machine32 :=
  let s := ((s.pushWord ctx).pushWord image.afterCall).run amIret32
  iret32 (if s.flags.getLsbD FL_ZF then s.run kernelIret32 else s.run userIret32)

def enter32 (vector : Nat) (errcode : BitVec 32) (s : Machine32) : Machine32 :=
  (deliver32 vector errcode s).run (stub vector ++ trap32)

def onTrap32 (image : Image Reg32 32) (vector : Nat) (errcode : BitVec 32) (s : Machine32) :
    Option Machine32 := do
  let s := enter32 vector errcode s
  let tf := s.sp
  let s := (s.run [.pushSp]).pushWord image.afterCall
  let (s, ret) ← amIrqHandle32 image s tf
  return resume32 image s ret

/-! ## New contexts -/

def zeroed (mem : ByteMemory w) (a : BitVec w) (n : Nat) : ByteMemory w :=
  fun b => if Within a n b then 0 else mem b

structure Area (w : Nat) where
  start : BitVec w
  stop : BitVec w
  deriving DecidableEq, Repr

def kcontext64 (image : Image Reg64 64) (mem : ByteMemory 64) (kstack : Area 64)
    (entry arg : BitVec 64) : ByteMemory 64 × BitVec 64 :=
  let ctx := kstack.stop - 176
  let mem := zeroed mem ctx 176
  let mem := store mem (slot ctx 17) ((KSEL SEG_KCODE).setWidth 64)
  let mem := store mem (slot ctx 16) image.kcontextStart
  let mem := store mem (slot ctx 18) (BitVec.twoPow 64 FL_IF)
  let mem := store mem (slot ctx 19) kstack.stop
  let mem := store mem (slot ctx 7) arg
  let mem := store mem (slot ctx 6) entry
  (mem, ctx)

def kcontext32 (image : Image Reg32 32) (mem : ByteMemory 32) (kstack : Area 32)
    (entry arg : BitVec 32) : ByteMemory 32 × BitVec 32 :=
  let ctx := kstack.stop - 60
  let mem := zeroed mem ctx 60
  let mem := store mem (slot ctx 1) ((KSEL SEG_KDATA).setWidth 32)
  let mem := store mem (slot ctx 11) ((KSEL SEG_KCODE).setWidth 32)
  let mem := store mem (slot ctx 10) image.kcontextStart
  let mem := store mem (slot ctx 12) (BitVec.twoPow 32 FL_IF)
  let mem := store mem (slot ctx 13) kstack.stop
  let mem := store mem (slot ctx 2) arg
  let mem := store mem (slot ctx 3) entry
  (mem, ctx)

def kcontextStart64 (image : Image Reg64 64) (s : Machine64) : Machine64 :=
  let s := s.run [.pushImm image.panicOnReturn]
  { s with ip := s.regs .rsi }

def kcontextStart32 (image : Image Reg32 32) (s : Machine32) : Machine32 :=
  let s := s.run [.push .eax, .pushImm image.panicOnReturn]
  { s with ip := s.regs .ebx }

/-- `as` is the address space by its `ptr`, `uvm` the user's area. -/
def ucontext64 (mem : ByteMemory 64) (ptr : BitVec 64) (uvm kstack : Area 64) (entry : BitVec 64) :
    ByteMemory 64 × BitVec 64 :=
  let ctx := kstack.stop - 176
  let mem := zeroed mem ctx 176
  let mem := store mem (slot ctx 17) ((USEL SEG_UCODE).setWidth 64)
  let mem := store mem (slot ctx 20) ((USEL SEG_UDATA).setWidth 64)
  let mem := store mem (slot ctx 16) entry
  let mem := store mem (slot ctx 18) (BitVec.twoPow 64 FL_IF)
  let mem := store mem (slot ctx 19) uvm.stop
  let mem := store mem (slot ctx 21) kstack.stop
  let mem := store mem (slot ctx 0) ptr
  (mem, ctx)

def ucontext32 (mem : ByteMemory 32) (ptr : BitVec 32) (uvm kstack : Area 32) (entry : BitVec 32) :
    ByteMemory 32 × BitVec 32 :=
  let ctx := kstack.stop - 60
  let mem := zeroed mem ctx 60
  let mem := store mem (slot ctx 11) ((USEL SEG_UCODE).setWidth 32)
  let mem := store mem (slot ctx 1) ((USEL SEG_UDATA).setWidth 32)
  let mem := store mem (slot ctx 14) ((USEL SEG_UDATA).setWidth 32)
  let mem := store mem (slot ctx 10) entry
  let mem := store mem (slot ctx 12) (BitVec.twoPow 32 FL_IF)
  let mem := store mem (slot ctx 13) uvm.stop
  let mem := store mem (slot ctx 6) kstack.stop
  let mem := store mem (slot ctx 0) ptr
  (mem, ctx)

end OSLabs.Trap
