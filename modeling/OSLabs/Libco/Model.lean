import Mathlib.Logic.Function.Basic
import OSLabs.Lib.Run

/-! # libco: the coroutine library

`co.c` as a step machine. A continuation is the coroutine whose stack it lives on
together with the point of `co.c` or of the coroutine's own body at which it goes
on; `swapcontext` stores one and resumes another, and a returning entry function
resumes the one its `uc_link` holds. A context goes on as it was saved however old it
is: exactly-once execution and the agreement of control are meant under this assumption.
On the machine an old context returns through the frames of newer calls; the stacked
machine, which is built over this one, says so. A run ends where `co_start` would store
behind `co_stack`. Objects are never reused after `free` and keep their last contents.
`name` and the stack bytes of `struct co` are read by nothing but the disabled debug
output and are left out.
-/

namespace OSLabs.Libco

inductive CoState where
  | coNew
  | coRunning
  | coWaiting
  | coDead
  deriving DecidableEq, Repr

/-- Addresses of `struct co` objects, in the order `malloc` returned them. -/
abbrev Addr := Nat

/-- The object `co_init` allocates for the main coroutine. -/
def mainCo : Addr := 0

/-- One step of a coroutine body. `coStart` stores the returned handle in a
variable and `coWait` reads its handle from one. -/
inductive Op where
  | localStep
  | coStart (handle func arg : Nat)
  | coYield
  | coWait (handle : Nat)
  deriving DecidableEq, Repr

/-- The steps prescribed by `main` and by every `func(arg)`. A body returns at the
first index without a step; an endless body has a step at every index. -/
structure Program where
  main : Nat → Option Op
  func : Nat → Nat → Nat → Option Op

/-- Where a continuation goes on. The index `pc` of the last three is the step of
the body that follows the pending `co_wait`. -/
inductive Point where
  | wrapperFunc
  | user (pc : Nat)
  | waitLoop (co : Addr) (pc : Nat)
  | refreshYield (co : Addr) (pc : Nat)
  | waitReturn (co : Addr) (pc : Nat)
  deriving DecidableEq, Repr

/-- The step of the body that is performed next once the library returns to it. -/
def Point.pc : Point → Nat
  | .wrapperFunc => 0
  | .user pc => pc
  | .waitLoop _ pc => pc
  | .refreshYield _ pc => pc
  | .waitReturn _ pc => pc

structure Cont where
  owner : Addr
  point : Point
  deriving DecidableEq, Repr

/-- `struct co`; `context` is `none` until something has been stored in it. -/
structure Co where
  func : Nat
  arg : Nat
  status : CoState
  context : Option Cont
  ucLink : Option Addr
  deriving DecidableEq, Repr

inductive Access where
  | read
  | write
  | save
  | resume
  deriving DecidableEq, Repr

/-- What a step lets an observer see. -/
inductive Event where
  | exec (co : Addr) (pc : Nat)
  | enter (co : Addr)
  | funcReturn (co : Addr)
  | started (creator co : Addr)
  | waits (caller co : Addr)
  | waitReturned (caller co : Addr)
  | suspended (co : Addr) (at_ : Point)
  | chosen (co : Addr)
  | access (kind : Access) (co : Addr)
  | freed (co : Addr)
  deriving DecidableEq, Repr

inductive Fault where
  | divByZero
  | outOfRange
  | nullDeref
  | assertFail
  | badContext
  deriving DecidableEq, Repr

/-- A computation ends, needs more values of `rand()`, ends the process, or faults. -/
inductive Outcome (α : Type) where
  | done (a : α)
  | pending
  | exited
  | fault (f : Fault)
  deriving DecidableEq, Repr

def Outcome.bind {α β : Type} : Outcome α → (α → Outcome β) → Outcome β
  | .done a, k => k a
  | .pending, _ => .pending
  | .exited, _ => .exited
  | .fault f, _ => .fault f

structure Machine where
  heap : Addr → Co
  brk : Addr
  current : Addr
  coStack : Nat → Option Addr
  coStackCount : Nat
  handles : Nat → Option Addr
  running : Cont

def coStackSize : Nat := 64

namespace Machine

def setStatus (m : Machine) (co : Addr) (status : CoState) : Machine :=
  { m with heap := Function.update m.heap co { m.heap co with status := status } }

def setContext (m : Machine) (co : Addr) (k : Cont) : Machine :=
  { m with heap := Function.update m.heap co { m.heap co with context := some k } }

/-- The running code of the same coroutine goes on at `p`. -/
def goto (m : Machine) (p : Point) : Machine :=
  { m with running := ⟨m.running.owner, p⟩ }

end Machine

def bodyOf (P : Program) (m : Machine) (co : Addr) : Nat → Option Op :=
  if co = mainCo then P.main else P.func (m.heap co).func (m.heap co).arg

def coInit : Machine where
  heap := fun co =>
    { func := 0, arg := 0, status := if co = mainCo then .coRunning else .coNew,
      context := none, ucLink := none }
  brk := 1
  current := mainCo
  coStack := Function.update (fun _ => none) 0 (some mainCo)
  coStackCount := 1
  handles := fun _ => none
  running := ⟨mainCo, .user 0⟩

/-- `next_co`, with the values `rand()` is going to return. -/
def nextCo (m : Machine) : List Nat → Outcome (Addr × List Event)
  | [] => .pending
  | r :: draws =>
    if m.coStackCount = 0 then .fault .divByZero
    else
      match m.coStack (r % m.coStackCount) with
      | none => .fault .nullDeref
      | some co =>
        if (m.heap co).status = .coDead then
          (nextCo m draws).bind fun res => .done (res.1, .access .read co :: res.2)
        else .done (co, [.access .read co, .chosen co])

/-- `swapcontext(&oucp->context, &ucp->context)`, called so that the caller goes on
at `ret`. -/
def swapcontext (m : Machine) (oucp ucp : Addr) (ret : Point) :
    Outcome (Machine × List Event) :=
  let saved := m.setContext oucp ⟨m.running.owner, ret⟩
  match (saved.heap ucp).context with
  | none => .fault .badContext
  | some k =>
    .done ({ saved with running := k }, [.access .save oucp, .access .resume ucp])

/-- `if(current->status!=CO_DEAD)current->status = CO_WAITING`. -/
def parkCurrent (m : Machine) : Machine :=
  if (m.heap m.current).status ≠ .coDead then m.setStatus m.current .coWaiting else m

/-- `current = next; current->status = CO_RUNNING`. -/
def switchTo (m : Machine) (next : Addr) : Machine :=
  { m with current := next }.setStatus next .coRunning

/-- `co_yield`, called so that the caller goes on at `ret`. The write of the old
status is logged also where `CO_DEAD` suppresses it: the read before it and the
save after it touch the same object. -/
def coYield (m : Machine) (ret : Point) (draws : List Nat) :
    Outcome (Machine × List Event) :=
  (nextCo (parkCurrent m) draws).bind fun next =>
    (swapcontext (switchTo (parkCurrent m) next.1) m.current next.1 ret).bind fun res =>
      .done (res.1, [.suspended m.running.owner ret, .access .read m.current,
        .access .write m.current] ++ next.2 ++ [.access .write next.1] ++ res.2)

/-- The search loop of `refresh_co_stack`, with `n` slots left to look at. -/
def findSlot (coStack : Nat → Option Addr) (co : Addr) : Nat → Nat → Nat
  | 0, i => i
  | n + 1, i => if coStack i = some co then i else findSlot coStack co n (i + 1)

/-- The shift loop of `refresh_co_stack`, with `n` slots left to move. -/
def shiftDown (coStack : Nat → Option Addr) : Nat → Nat → Nat → Option Addr
  | 0, _ => coStack
  | n + 1, j => shiftDown (Function.update coStack j (coStack (j + 1))) n (j + 1)

/-- `refresh_co_stack(co)` up to its call of `co_yield`. The slot at which the
search stopped is tested whether or not the search succeeded. -/
def refreshCoStack (m : Machine) (co : Addr) (pc : Nat) : Outcome (Machine × List Event) :=
  let i := findSlot m.coStack co m.coStackCount 0
  if coStackSize ≤ i then .fault .outOfRange
  else
    match m.coStack i with
    | none => .fault .nullDeref
    | some tmp =>
      if (m.heap tmp).status = .coDead then
        .done ({ m with
            coStack := shiftDown m.coStack (m.coStackCount - 1 - i) i
            coStackCount := m.coStackCount - 1 }.goto (.refreshYield co pc),
          [.access .read tmp, .freed tmp])
      else .done (m.goto (.user pc), [.access .read tmp, .waitReturned m.running.owner co])

def coStart (m : Machine) (func arg : Nat) : Outcome (Addr × Machine) :=
  if coStackSize ≤ m.coStackCount then .fault .outOfRange
  else
    .done (m.brk,
      { m with
        heap := Function.update m.heap m.brk
          { func := func, arg := arg, status := .coNew,
            context := some ⟨m.brk, .wrapperFunc⟩, ucLink := some m.current }
        brk := m.brk + 1
        coStack := Function.update m.coStack m.coStackCount (some m.brk)
        coStackCount := m.coStackCount + 1 })

/-- `co_wait(co)`, called so that the caller goes on at step `pc`. -/
def coWait (m : Machine) (co : Addr) (pc : Nat) : Outcome (Machine × List Event) :=
  if (m.heap co).status = .coDead then refreshCoStack m co pc
  else .done ((m.setStatus co .coWaiting).goto (.waitLoop co pc), [.access .write co])

/-- The rest of `wrapper_func(co)` once `func` has returned: the status is set and
the context behind `uc_link` is resumed. -/
def wrapperReturn (m : Machine) (co : Addr) : Outcome (Machine × List Event) :=
  let m₁ := m.setStatus co .coDead
  match (m.heap co).ucLink with
  | none => .exited
  | some link =>
    match (m₁.heap link).context with
    | none => .fault .badContext
    | some k =>
      .done ({ m₁ with running := k },
        [.funcReturn co, .access .write co, .access .resume link])

/-- Step `pc` of the body of the running coroutine. -/
def userStep (P : Program) (m : Machine) (pc : Nat) (draws : List Nat) :
    Outcome (Machine × List Event) :=
  let co := m.running.owner
  match bodyOf P m co pc with
  | none => if co = mainCo then .exited else wrapperReturn m co
  | some .localStep => .done (m.goto (.user (pc + 1)), [.exec co pc])
  | some (.coStart handle func arg) =>
    (coStart m func arg).bind fun res =>
      .done ({ res.2 with handles := Function.update m.handles handle (some res.1) }.goto
        (.user (pc + 1)), [.exec co pc, .started co res.1, .access .write res.1])
  | some .coYield =>
    (coYield m (.user (pc + 1)) draws).bind fun res => .done (res.1, .exec co pc :: res.2)
  | some (.coWait handle) =>
    match m.handles handle with
    | none => .fault .assertFail
    | some target =>
      (coWait m target (pc + 1)).bind fun res =>
        .done (res.1, [.exec co pc, .waits co target, .access .read target] ++ res.2)

def step (P : Program) (m : Machine) (draws : List Nat) : Outcome (Machine × List Event) :=
  let co := m.running.owner
  match m.running.point with
  | .wrapperFunc => .done (m.goto (.user 0), [.access .read co, .enter co])
  | .user pc => userStep P m pc draws
  | .waitLoop target pc =>
    if (m.heap target).status = .coDead then
      (refreshCoStack m target pc).bind fun res => .done (res.1, .access .read target :: res.2)
    else
      (coYield m (.waitLoop target pc) draws).bind fun res =>
        .done (res.1, .access .read target :: res.2)
  | .refreshYield target pc => coYield m (.waitReturn target pc) draws
  | .waitReturn target pc => .done (m.goto (.user pc), [.waitReturned co target])

def Step (P : Program) (m : Machine) (es : List Event) (m' : Machine) : Prop :=
  ∃ draws, step P m draws = .done (m', es)

/-- The same as a function of the values of `rand()`, for concrete runs. -/
def stepDone (P : Program) (draws : List Nat) (m : Machine) : Option (List Event × Machine) :=
  match step P m draws with
  | .done res => some (res.2, res.1)
  | _ => none

theorem step_of_stepDone (P : Program) (draws : List Nat) (m : Machine) (es : List Event)
    (m' : Machine) (h : stepDone P draws m = some (es, m')) : Step P m es m' := by
  unfold stepDone at h
  split at h
  next res hres =>
    simp only [Option.some.injEq, Prod.mk.injEq] at h
    exact ⟨draws, by rw [hres, ← h.1, ← h.2]⟩
  next => simp at h

end OSLabs.Libco
