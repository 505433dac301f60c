import OSLabs.Libco.Registry

/-! # Stale contexts

A context leads back through the frames on its stack. Where the coroutine has made a newer
library call since the context was saved, the return address of that call stands in the place
of the old one. Both calls come from the same frame of the body, so an old `co_yield` of the
body returns behind the newer call.
-/

namespace OSLabs.Libco

open Lib

variable {P : Program} {m m' : Machine} {log es : List Event}

/-! ## The machine with its stacks -/

structure Stacked where
  machine : Machine
  /-- The point behind the newest library call on the stack of a coroutine. -/
  newest : Addr → Point

/-- The library call that the next step makes or is in. -/
def callOf (P : Program) (m : Machine) : Option Point :=
  match m.running.point with
  | .wrapperFunc => none
  | .user pc =>
    match bodyOf P m m.running.owner pc with
    | none => none
    | some .localStep => none
    | some (.coStart _ _ _) => some (.user (pc + 1))
    | some .coYield => some (.user (pc + 1))
    | some (.coWait handle) => (m.handles handle).map fun target =>
        if (m.heap target).status = .coDead then .refreshYield target (pc + 1)
        else .waitLoop target (pc + 1)
  | .waitLoop target pc =>
    some (if (m.heap target).status = .coDead then .refreshYield target pc
      else .waitLoop target pc)
  | .refreshYield target pc => some (.waitReturn target pc)
  | .waitReturn _ _ => none

def Stacked.called (P : Program) (s : Stacked) : Addr → Point :=
  match callOf P s.machine with
  | none => s.newest
  | some p => Function.update s.newest s.machine.running.owner p

/-- Where a saved context goes on. What an old call inside `co_wait` or `refresh_co_stack`
finds among the newer frames depends on their layout. -/
def Point.through (saved newest : Point) : Option Point :=
  if saved = newest ∨ saved = .wrapperFunc then some saved
  else
    match saved with
    | .user _ => some (.user newest.pc)
    | _ => none

/-- The context of `co` is one that the step may resume, and not the one that it saves. -/
def mayResume (P : Program) (m : Machine) (co : Addr) : Bool :=
  match m.running.point with
  | .wrapperFunc => false
  | .user pc =>
    match bodyOf P m m.running.owner pc with
    | none => (m.heap m.running.owner).ucLink = some co
    | some .coYield => co ≠ m.current ∧ (m.heap co).status ≠ .coDead
    | _ => false
  | .waitLoop target _ =>
    (m.heap target).status ≠ .coDead ∧ co ≠ m.current ∧ (m.heap co).status ≠ .coDead
  | .refreshYield _ _ => co ≠ m.current ∧ (m.heap co).status ≠ .coDead
  | .waitReturn _ _ => false

/-- No context that the step may resume is older than the newest call on its stack. -/
def intact (P : Program) (s : Stacked) : Bool :=
  (List.range s.machine.brk).all fun co =>
    !mayResume P s.machine co || (s.machine.heap co).context.all fun k =>
      k.point = s.called P k.owner ∨ k.point = .wrapperFunc

def Intact (P : Program) (_ : List Event) (s : Stacked) : Prop := intact P s = true

/-- No context that the step may resume is stale, and no call leaves `co_stack`. -/
def framesSafe (P : Program) (s : Stacked) : Bool := intact P s && insideTable P s.machine

def FramesSafe (P : Program) (_ : List Event) (s : Stacked) : Prop := framesSafe P s = true

theorem FramesSafe.intact {s : Stacked} (ok : FramesSafe P log s) : Intact P log s :=
  (Bool.and_eq_true_iff.1 ok).1

theorem Intact.point {s : Stacked} (h : Intact P log s) {co : Addr} {k : Cont}
    (hlt : co < s.machine.brk) (hmay : mayResume P s.machine co = true)
    (hk : (s.machine.heap co).context = some k) :
    k.point = s.called P k.owner ∨ k.point = .wrapperFunc := by
  have hco := List.all_eq_true.1 h co (List.mem_range.2 hlt)
  rw [hmay, hk] at hco
  simpa using hco

end OSLabs.Libco
