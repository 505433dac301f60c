import Mathlib.Logic.Function.Basic

/-! # Starting and stopping the processors of the x86 machine

`mpe_init` starts the other processors one by one, and `__am_stop_the_world` makes all of them
start again, but into a loop. Every processor that starts goes through the boot record, which
all of them share, as they share the stack of the boot loader. A step of the system is one of
the shared accesses of one processor. A message between processors arrives in the step that
sends it, though `__am_lapic_bootap` does not wait for this: two processors that call `halt`
at once could otherwise initialize each other.
-/

namespace OSLabs.Mpe

/-! ## The boot record -/

def BOOTREC_ADDR : Nat := 0x7000

/-- Where the boot loader begins. -/
def loaderAddr : Nat := 0x7c00

/-- `jmp_code` as `mpe_init` sets it. -/
def jmpLoader : UInt32 := 0x000bfde9

/-- `jmp_code` as `__am_stop_the_world` sets it. -/
def jmpSelf : UInt32 := 0x0000feeb

/-- Where the jump at `BOOTREC_ADDR` leads. The processor is in real mode, with its code segment
at the boot record, and knows near and short jumps here. -/
def jumpTarget (code : UInt32) : Option Nat :=
  let opcode := code.toNat % 0x100
  if opcode = 0xe9 then
    some (BOOTREC_ADDR + (3 + code.toNat / 0x100 % 0x10000) % 0x10000)
  else if opcode = 0xeb then
    some (BOOTREC_ADDR + ((2 + (code.toNat / 0x100 % 0x100 : Int).bmod 0x100) % 0x10000).toNat)
  else none

/-! ## Processors -/

/-- The messages that `__am_lapic_bootap` sends to a processor. -/
inductive Ipi where
  | init
  | deassert
  | startup
  deriving DecidableEq, Repr

def ipis : List Ipi := [.init, .deassert, .startup, .startup]

inductive Caller where
  | mpeInit
  | stopTheWorld
  deriving DecidableEq, Repr

inductive Pc where
  /-- The code of the program before `mpe_init`. -/
  | main
  /-- Before `mpe_init` sets `jmp_code`. -/
  | setJump
  /-- Before the test of the loop of `mpe_init`. -/
  | forCpu (cpu : Nat)
  /-- Before message `i` of `__am_lapic_bootap`. -/
  | bootAp (caller : Caller) (cpu i : Nat)
  /-- Before the `xchg` of the inner loop of `mpe_init`. -/
  | waitReady (cpu : Nat)
  /-- Before the call of `user_entry`. -/
  | callEntry
  | user (entry : Nat)
  /-- Initialized, and not started. -/
  | waitStartup
  /-- Before the jump at the boot record. -/
  | bootRecord
  /-- Before `load_kernel` reads `is_ap`. -/
  | loadKernel
  /-- Before `_start_c` reads `is_ap`. -/
  | startC
  | percpuInit
  /-- Before the `xchg` of `othercpu_entry`. -/
  | announce
  /-- Before the test of the loop of `__am_stop_the_world`. -/
  | stopFor (cpu : Nat)
  /-- Behind `__am_stop_the_world`. -/
  | halted
  /-- Loads the kernel. -/
  | loading
  /-- Runs `__am_bootcpu_init` and `main`. -/
  | bootcpuInit
  /-- At an address without such code. -/
  | lost
  deriving DecidableEq, Repr

/-- On the stack of the boot loader, which there is once. -/
def Pc.OnLoaderStack : Pc → Prop
  | loadKernel | startC => True
  | _ => False

structure System where
  pc : Nat → Pc
  userEntry : Option Nat
  jmpCode : UInt32
  isAp : Int
  apReady : Int

namespace System

variable (s : System)

def goto (a : Nat) (p : Pc) : System := { s with pc := Function.update s.pc a p }

/-- A message arrives. A processor starts only if it has been initialized before. -/
def receive (cpu : Nat) : Ipi → System
  | .init => s.goto cpu .waitStartup
  | .deassert => s
  | .startup => if s.pc cpu = .waitStartup then s.goto cpu .bootRecord else s

end System

/-- The next point of `__am_lapic_bootap` after message `i`, or of its caller. -/
def afterIpi (caller : Caller) (cpu i : Nat) : Pc :=
  if i + 1 < ipis.length then .bootAp caller cpu (i + 1)
  else
    match caller with
    | .mpeInit => .waitReady cpu
    | .stopTheWorld => .stopFor (cpu + 1)

/-- Where a processor is after the jump at the boot record. -/
def afterJump (code : UInt32) : Pc :=
  if jumpTarget code = some loaderAddr then .loadKernel
  else if jumpTarget code = some BOOTREC_ADDR then .bootRecord
  else .lost

@[simp] theorem afterJump_jmpLoader : afterJump jmpLoader = .loadKernel := by decide

@[simp] theorem afterJump_jmpSelf : afterJump jmpSelf = .bootRecord := by decide

inductive Choice where
  | goOn
  | halt
  deriving DecidableEq, Repr

inductive Event where
  /-- The processor has set `ap_ready`. -/
  | ready (cpu : Nat)
  | enters (cpu entry : Nat)
  /-- The processor comes back from `__am_stop_the_world`. -/
  | halts (cpu : Nat)
  deriving DecidableEq, Repr

/-- One step of processor `a` of a machine with `n` processors, whose program calls
`mpe_init(entry)`. -/
def step (n entry a : Nat) (choice : Choice) (s : System) : Option (List Event × System) :=
  match s.pc a with
  | .main =>
    match choice with
    | .goOn => some ([], { s with userEntry := some entry }.goto a .setJump)
    | .halt => some ([], { s with jmpCode := jmpSelf }.goto a (.stopFor 0))
  | .setJump => some ([], { s with jmpCode := jmpLoader }.goto a (.forCpu 1))
  | .forCpu cpu =>
    if cpu < n then some ([], { s with isAp := 1 }.goto a (.bootAp .mpeInit cpu 0))
    else some ([], s.goto a .callEntry)
  | .bootAp caller cpu i =>
    ipis[i]?.map fun ipi => ([], (s.receive cpu ipi).goto a (afterIpi caller cpu i))
  | .waitReady cpu =>
    some ([], { s with apReady := 0 }.goto a
      (if s.apReady = 1 then .forCpu (cpu + 1) else .waitReady cpu))
  | .callEntry =>
    match s.userEntry with
    | some f => some ([.enters a f], s.goto a (.user f))
    | none => some ([], s.goto a .lost)
  | .user _ =>
    match choice with
    | .goOn => some ([], s)
    | .halt => some ([], { s with jmpCode := jmpSelf }.goto a (.stopFor 0))
  | .bootRecord => some ([], s.goto a (afterJump s.jmpCode))
  | .loadKernel => some ([], s.goto a (if s.isAp ≠ 0 then .startC else .loading))
  | .startC => some ([], s.goto a (if s.isAp ≠ 0 then .percpuInit else .bootcpuInit))
  | .percpuInit => some ([], s.goto a .announce)
  | .announce => some ([.ready a], { s with apReady := 1 }.goto a .callEntry)
  | .stopFor cpu =>
    if cpu < n then
      some ([], s.goto a (if cpu ≠ a then .bootAp .stopTheWorld cpu 0 else .stopFor (cpu + 1)))
    else some ([.halts a], s.goto a .halted)
  | .waitStartup | .halted | .loading | .bootcpuInit | .lost => none

/-- The boot processor runs the program. The others have not started, and nothing is known of
`jmp_code`. -/
def initial (jmpCode : UInt32) : System where
  pc := fun c => if c = 0 then .main else .waitStartup
  userEntry := none
  jmpCode
  isAp := 0
  apReady := 0

def Next (n entry : Nat) (s : System) (es : List Event) (s' : System) : Prop :=
  ∃ a < n, ∃ choice, step n entry a choice s = some (es, s')

end OSLabs.Mpe
