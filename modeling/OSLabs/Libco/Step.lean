import OSLabs.Libco.Model

/-! # What one step of libco can do

`step_cases` lists every successful step once, guards included; the invariants
of the following modules are proved by cases on it and never unfold `step`. The
two library calls that several cases share have their own specifications,
`Yielded` for `co_yield` and `Refreshed` for `refresh_co_stack`.
-/

namespace OSLabs.Libco

variable {P : Program} {m m' : Machine} {ret : Point} {draws : List Nat}
  {es : List Event}

theorem Outcome.bind_eq_done {α β : Type} {x : Outcome α} {k : α → Outcome β} {b : β} :
    x.bind k = .done b ↔ ∃ a, x = .done a ∧ k a = .done b := by
  cases x <;> simp [Outcome.bind]

theorem Outcome.bind_eq_fault {α β : Type} {x : Outcome α} {k : α → Outcome β} {f : Fault} :
    x.bind k = .fault f ↔ x = .fault f ∨ ∃ a, x = .done a ∧ k a = .fault f := by
  cases x <;> simp [Outcome.bind]

/-! ## Machine updates -/

namespace Machine

@[simp] theorem setStatus_brk (m : Machine) (co : Addr) (s : CoState) :
    (m.setStatus co s).brk = m.brk := rfl

@[simp] theorem setStatus_current (m : Machine) (co : Addr) (s : CoState) :
    (m.setStatus co s).current = m.current := rfl

@[simp] theorem setStatus_coStack (m : Machine) (co : Addr) (s : CoState) :
    (m.setStatus co s).coStack = m.coStack := rfl

@[simp] theorem setStatus_coStackCount (m : Machine) (co : Addr) (s : CoState) :
    (m.setStatus co s).coStackCount = m.coStackCount := rfl

@[simp] theorem setStatus_handles (m : Machine) (co : Addr) (s : CoState) :
    (m.setStatus co s).handles = m.handles := rfl

@[simp] theorem setStatus_running (m : Machine) (co : Addr) (s : CoState) :
    (m.setStatus co s).running = m.running := rfl

@[simp] theorem setStatus_status (m : Machine) (co a : Addr) (s : CoState) :
    ((m.setStatus co s).heap a).status = if a = co then s else (m.heap a).status := by
  by_cases h : a = co
  · subst h; simp [setStatus]
  · simp [setStatus, h]

@[simp] theorem setStatus_context (m : Machine) (co a : Addr) (s : CoState) :
    ((m.setStatus co s).heap a).context = (m.heap a).context := by
  by_cases h : a = co
  · subst h; simp [setStatus]
  · simp [setStatus, h]

@[simp] theorem setStatus_ucLink (m : Machine) (co a : Addr) (s : CoState) :
    ((m.setStatus co s).heap a).ucLink = (m.heap a).ucLink := by
  by_cases h : a = co
  · subst h; simp [setStatus]
  · simp [setStatus, h]

@[simp] theorem setStatus_func (m : Machine) (co a : Addr) (s : CoState) :
    ((m.setStatus co s).heap a).func = (m.heap a).func := by
  by_cases h : a = co
  · subst h; simp [setStatus]
  · simp [setStatus, h]

@[simp] theorem setStatus_arg (m : Machine) (co a : Addr) (s : CoState) :
    ((m.setStatus co s).heap a).arg = (m.heap a).arg := by
  by_cases h : a = co
  · subst h; simp [setStatus]
  · simp [setStatus, h]

@[simp] theorem goto_heap (m : Machine) (p : Point) : (m.goto p).heap = m.heap := rfl

@[simp] theorem goto_brk (m : Machine) (p : Point) : (m.goto p).brk = m.brk := rfl

@[simp] theorem goto_current (m : Machine) (p : Point) : (m.goto p).current = m.current := rfl

@[simp] theorem goto_coStack (m : Machine) (p : Point) : (m.goto p).coStack = m.coStack := rfl

@[simp] theorem goto_coStackCount (m : Machine) (p : Point) :
    (m.goto p).coStackCount = m.coStackCount := rfl

@[simp] theorem goto_handles (m : Machine) (p : Point) : (m.goto p).handles = m.handles := rfl

@[simp] theorem goto_running (m : Machine) (p : Point) :
    (m.goto p).running = ⟨m.running.owner, p⟩ := rfl

/-- The machine after a `co_yield` that goes on at `ret` once resumed and that
switches to `next`, where `k` was found. -/
def yieldTo (m : Machine) (ret : Point) (next : Addr) (k : Cont) : Machine :=
  { (switchTo (parkCurrent m) next).setContext m.current ⟨m.running.owner, ret⟩ with
    running := k }

def started (m : Machine) (handle func arg : Nat) : Machine :=
  { m with
    heap := Function.update m.heap m.brk
      { func := func, arg := arg, status := .coNew,
        context := some ⟨m.brk, .wrapperFunc⟩, ucLink := some m.current }
    brk := m.brk + 1
    coStack := Function.update m.coStack m.coStackCount (some m.brk)
    coStackCount := m.coStackCount + 1
    handles := Function.update m.handles handle (some m.brk) }

def dropSlot (m : Machine) (i : Nat) : Machine :=
  { m with
    coStack := shiftDown m.coStack (m.coStackCount - 1 - i) i
    coStackCount := m.coStackCount - 1 }

@[simp] theorem yieldTo_brk (m : Machine) (ret : Point) (next : Addr) (k : Cont) :
    (m.yieldTo ret next k).brk = m.brk := by
  simp only [yieldTo, setContext, switchTo, setStatus_brk, parkCurrent]
  split <;> rfl

@[simp] theorem yieldTo_current (m : Machine) (ret : Point) (next : Addr) (k : Cont) :
    (m.yieldTo ret next k).current = next := rfl

@[simp] theorem yieldTo_running (m : Machine) (ret : Point) (next : Addr) (k : Cont) :
    (m.yieldTo ret next k).running = k := rfl

@[simp] theorem yieldTo_coStack (m : Machine) (ret : Point) (next : Addr) (k : Cont) :
    (m.yieldTo ret next k).coStack = m.coStack := by
  simp only [yieldTo, setContext, switchTo, setStatus_coStack, parkCurrent]
  split <;> rfl

@[simp] theorem yieldTo_coStackCount (m : Machine) (ret : Point) (next : Addr) (k : Cont) :
    (m.yieldTo ret next k).coStackCount = m.coStackCount := by
  simp only [yieldTo, setContext, switchTo, setStatus_coStackCount, parkCurrent]
  split <;> rfl

@[simp] theorem yieldTo_handles (m : Machine) (ret : Point) (next : Addr) (k : Cont) :
    (m.yieldTo ret next k).handles = m.handles := by
  simp only [yieldTo, setContext, switchTo, setStatus_handles, parkCurrent]
  split <;> rfl

theorem yieldTo_heap (m : Machine) (ret : Point) (next a : Addr) (k : Cont) :
    (m.yieldTo ret next k).heap a =
      { m.heap a with
        status :=
          if a = next then .coRunning
          else if a = m.current ∧ (m.heap a).status ≠ .coDead then .coWaiting
          else (m.heap a).status
        context :=
          if a = m.current then some ⟨m.running.owner, ret⟩ else (m.heap a).context } := by
  simp only [yieldTo, setContext, switchTo, setStatus, parkCurrent, Function.update_apply]
  by_cases hd : (m.heap m.current).status = .coDead <;> by_cases hc : a = m.current <;>
    by_cases hn : a = next <;> simp_all

@[simp] theorem yieldTo_status (m : Machine) (ret : Point) (next a : Addr) (k : Cont) :
    ((m.yieldTo ret next k).heap a).status =
      if a = next then .coRunning
      else if a = m.current ∧ (m.heap a).status ≠ .coDead then .coWaiting
      else (m.heap a).status := by rw [yieldTo_heap]

@[simp] theorem yieldTo_context (m : Machine) (ret : Point) (next a : Addr) (k : Cont) :
    ((m.yieldTo ret next k).heap a).context =
      if a = m.current then some ⟨m.running.owner, ret⟩ else (m.heap a).context := by
  rw [yieldTo_heap]

/-- Only the coroutine that yields matters, not the point at which it does. -/
theorem yieldTo_goto (m : Machine) (p ret : Point) (next : Addr) (k : Cont) :
    (m.goto p).yieldTo ret next k = m.yieldTo ret next k := by
  by_cases h : (m.heap m.current).status = .coDead <;>
    simp [yieldTo, parkCurrent, h, goto, setContext, switchTo, setStatus]

@[simp] theorem yieldTo_ucLink (m : Machine) (ret : Point) (next a : Addr) (k : Cont) :
    ((m.yieldTo ret next k).heap a).ucLink = (m.heap a).ucLink := by rw [yieldTo_heap]

@[simp] theorem yieldTo_func (m : Machine) (ret : Point) (next a : Addr) (k : Cont) :
    ((m.yieldTo ret next k).heap a).func = (m.heap a).func := by rw [yieldTo_heap]

@[simp] theorem yieldTo_arg (m : Machine) (ret : Point) (next a : Addr) (k : Cont) :
    ((m.yieldTo ret next k).heap a).arg = (m.heap a).arg := by rw [yieldTo_heap]

end Machine

/-! ## `co_yield` -/

/-- `next_co` reads registered coroutines until it finds one that is not dead. -/
theorem nextCo_done {draws : List Nat} {next : Addr} {reads : List Event}
    (h : nextCo m draws = .done (next, reads)) :
    (∃ i < m.coStackCount, m.coStack i = some next) ∧ (m.heap next).status ≠ .coDead ∧
      .chosen next ∈ reads ∧
      ∀ e ∈ reads, e = .chosen next ∨
        ∃ i a, i < m.coStackCount ∧ m.coStack i = some a ∧ e = .access .read a := by
  induction draws generalizing reads with
  | nil => simp [nextCo] at h
  | cons r draws ih =>
      unfold nextCo at h
      split at h
      · simp at h
      next hcount =>
        have hlt : r % m.coStackCount < m.coStackCount :=
          Nat.mod_lt _ (Nat.pos_of_ne_zero hcount)
        split at h
        · simp at h
        next co hslot =>
          split at h
          · obtain ⟨res, hres, hdone⟩ := Outcome.bind_eq_done.1 h
            simp only [Outcome.done.injEq, Prod.mk.injEq] at hdone
            obtain ⟨rfl, rfl⟩ := hdone
            obtain ⟨hin, halive, hchosen, hreads⟩ := ih hres
            refine ⟨hin, halive, List.mem_cons_of_mem _ hchosen, ?_⟩
            intro e he
            rcases List.mem_cons.1 he with rfl | he
            · exact .inr ⟨_, co, hlt, hslot, rfl⟩
            · exact hreads e he
          next halive =>
            simp only [Outcome.done.injEq, Prod.mk.injEq] at h
            obtain ⟨rfl, rfl⟩ := h
            refine ⟨⟨_, hlt, hslot⟩, halive, by simp, ?_⟩
            intro e he
            simp only [List.mem_cons, List.not_mem_nil, or_false] at he
            rcases he with rfl | rfl
            · exact .inr ⟨_, co, hlt, hslot, rfl⟩
            · exact .inl rfl

/-- A completed `co_yield`: `next` is registered and not dead, `k` is what its own
context holds after the save. -/
def Yielded (m : Machine) (ret : Point) (es : List Event) (m' : Machine) : Prop :=
  ∃ next k reads,
    (∃ i < m.coStackCount, m.coStack i = some next) ∧ (m.heap next).status ≠ .coDead ∧
    ((m.yieldTo ret next k).heap next).context = some k ∧
    .chosen next ∈ reads ∧
    (∀ e ∈ reads, e = .chosen next ∨
      ∃ i a, i < m.coStackCount ∧ m.coStack i = some a ∧ e = .access .read a) ∧
    m' = m.yieldTo ret next k ∧
    es = [.suspended m.running.owner ret, .access .read m.current,
      .access .write m.current] ++ reads ++ [.access .write next,
      .access .save m.current, .access .resume next]

theorem parkCurrent_status (m : Machine) (a : Addr) :
    ((parkCurrent m).heap a).status = .coDead ↔ (m.heap a).status = .coDead := by
  unfold parkCurrent
  split
  next h =>
    by_cases ha : a = m.current
    · subst ha; simp [h]
    · simp [ha]
  next => rfl

theorem parkCurrent_coStack (m : Machine) : (parkCurrent m).coStack = m.coStack := by
  unfold parkCurrent; split <;> rfl

theorem parkCurrent_coStackCount (m : Machine) :
    (parkCurrent m).coStackCount = m.coStackCount := by
  unfold parkCurrent; split <;> rfl

theorem parkCurrent_running (m : Machine) : (parkCurrent m).running = m.running := by
  unfold parkCurrent; split <;> rfl

theorem coYield_done (h : coYield m ret draws = .done (m', es)) : Yielded m ret es m' := by
  obtain ⟨⟨next, reads⟩, hnext, h⟩ := Outcome.bind_eq_done.1 h
  obtain ⟨⟨m₂, evs⟩, hswap, h⟩ := Outcome.bind_eq_done.1 h
  simp only [Outcome.done.injEq, Prod.mk.injEq] at h
  obtain ⟨rfl, rfl⟩ := h
  obtain ⟨hin, halive, hchosen, hreads⟩ := nextCo_done hnext
  rw [parkCurrent_coStack, parkCurrent_coStackCount] at hin hreads
  rw [ne_eq, parkCurrent_status] at halive
  unfold swapcontext at hswap
  dsimp only at hswap
  split at hswap
  · simp at hswap
  next k hk =>
    simp only [Outcome.done.injEq, Prod.mk.injEq] at hswap
    obtain ⟨rfl, rfl⟩ := hswap
    have hrun : (switchTo (parkCurrent m) next).running = m.running := parkCurrent_running m
    rw [hrun] at hk ⊢
    exact ⟨next, k, reads, hin, halive, hk, hchosen, hreads, rfl, by simp⟩

theorem Yielded.of_goto (h : Yielded m ret es m') (p : Point) :
    Yielded (m.goto p) ret es m' := by
  obtain ⟨next, k, reads, hin, halive, hk, hchosen, hreads, hm', hes⟩ := h
  exact ⟨next, k, reads, hin, halive, by rw [Machine.yieldTo_goto]; exact hk, hchosen, hreads,
    by rw [Machine.yieldTo_goto]; exact hm', hes⟩

/-! ## `refresh_co_stack` -/

/-- A completed `refresh_co_stack(co)`: the slot at which the search stopped holds
a dead object, which is dropped and freed, or one that is not dead. -/
def Refreshed (m : Machine) (co : Addr) (pc : Nat) (es : List Event) (m' : Machine) : Prop :=
  ∃ tmp, findSlot m.coStack co m.coStackCount 0 < coStackSize ∧
    m.coStack (findSlot m.coStack co m.coStackCount 0) = some tmp ∧
    ((m.heap tmp).status = .coDead ∧
        m' = (m.dropSlot (findSlot m.coStack co m.coStackCount 0)).goto (.refreshYield co pc) ∧
        es = [.access .read tmp, .freed tmp] ∨
      (m.heap tmp).status ≠ .coDead ∧ m' = m.goto (.user pc) ∧
        es = [.access .read tmp, .waitReturned m.running.owner co])

theorem refreshCoStack_done {co : Addr} {pc : Nat}
    (h : refreshCoStack m co pc = .done (m', es)) : Refreshed m co pc es m' := by
  unfold refreshCoStack at h
  dsimp only at h
  split at h
  · simp at h
  next hrange =>
    split at h
    · simp at h
    next tmp hslot =>
      refine ⟨tmp, by omega, hslot, ?_⟩
      split at h
      next hdead =>
        simp only [Outcome.done.injEq, Prod.mk.injEq] at h
        exact .inl ⟨hdead, h.1.symm, h.2.symm⟩
      next halive =>
        simp only [Outcome.done.injEq, Prod.mk.injEq] at h
        exact .inr ⟨halive, h.1.symm, h.2.symm⟩

theorem Refreshed.of_goto {co : Addr} {pc : Nat} (h : Refreshed m co pc es m') (p : Point) :
    Refreshed (m.goto p) co pc es m' := h

/-! ## Steps -/

/-- Every successful step. The first seven constructors run the body of the
running coroutine, the others run `co.c` on its behalf. -/
inductive StepCase (P : Program) (m : Machine) : List Event → Machine → Prop where
  | localStep {pc : Nat} (at_ : m.running.point = .user pc)
      (op : bodyOf P m m.running.owner pc = some .localStep) :
      StepCase P m [.exec m.running.owner pc] (m.goto (.user (pc + 1)))
  | start {pc handle func arg : Nat} (at_ : m.running.point = .user pc)
      (op : bodyOf P m m.running.owner pc = some (.coStart handle func arg))
      (room : m.coStackCount < coStackSize) :
      StepCase P m [.exec m.running.owner pc, .started m.running.owner m.brk,
        .access .write m.brk] ((m.started handle func arg).goto (.user (pc + 1)))
  | yield {pc : Nat} {es : List Event} {m' : Machine} (at_ : m.running.point = .user pc)
      (op : bodyOf P m m.running.owner pc = some .coYield)
      (spec : Yielded m (.user (pc + 1)) es m') :
      StepCase P m (.exec m.running.owner pc :: es) m'
  | waitAlive {pc handle : Nat} {target : Addr} (at_ : m.running.point = .user pc)
      (op : bodyOf P m m.running.owner pc = some (.coWait handle))
      (var : m.handles handle = some target) (alive : (m.heap target).status ≠ .coDead) :
      StepCase P m [.exec m.running.owner pc, .waits m.running.owner target,
        .access .read target, .access .write target]
        ((m.setStatus target .coWaiting).goto (.waitLoop target (pc + 1)))
  | waitDead {pc handle : Nat} {target : Addr} {es : List Event} {m' : Machine}
      (at_ : m.running.point = .user pc)
      (op : bodyOf P m m.running.owner pc = some (.coWait handle))
      (var : m.handles handle = some target) (dead : (m.heap target).status = .coDead)
      (spec : Refreshed m target (pc + 1) es m') :
      StepCase P m ([.exec m.running.owner pc, .waits m.running.owner target,
        .access .read target] ++ es) m'
  | ret {pc : Nat} {link : Addr} {k : Cont} (at_ : m.running.point = .user pc)
      (op : bodyOf P m m.running.owner pc = none) (notMain : m.running.owner ≠ mainCo)
      (hlink : (m.heap m.running.owner).ucLink = some link)
      (hk : (m.heap link).context = some k) :
      StepCase P m [.funcReturn m.running.owner, .access .write m.running.owner,
        .access .resume link] { m.setStatus m.running.owner .coDead with running := k }
  | enter (at_ : m.running.point = .wrapperFunc) :
      StepCase P m [.access .read m.running.owner, .enter m.running.owner]
        (m.goto (.user 0))
  | loopYield {target : Addr} {pc : Nat} {es : List Event} {m' : Machine}
      (at_ : m.running.point = .waitLoop target pc)
      (alive : (m.heap target).status ≠ .coDead)
      (spec : Yielded m (.waitLoop target pc) es m') :
      StepCase P m (.access .read target :: es) m'
  | loopExit {target : Addr} {pc : Nat} {es : List Event} {m' : Machine}
      (at_ : m.running.point = .waitLoop target pc)
      (dead : (m.heap target).status = .coDead)
      (spec : Refreshed m target pc es m') :
      StepCase P m (.access .read target :: es) m'
  | refreshYield {target : Addr} {pc : Nat} {es : List Event} {m' : Machine}
      (at_ : m.running.point = .refreshYield target pc)
      (spec : Yielded m (.waitReturn target pc) es m') : StepCase P m es m'
  | waitReturn {target : Addr} {pc : Nat} (at_ : m.running.point = .waitReturn target pc) :
      StepCase P m [.waitReturned m.running.owner target] (m.goto (.user pc))

private theorem userStep_cases {pc : Nat} (at_ : m.running.point = .user pc)
    (h : userStep P m pc draws = .done (m', es)) : StepCase P m es m' := by
  unfold userStep at h
  dsimp only at h
  split at h
  next op =>
    split at h
    · simp at h
    next notMain =>
      unfold wrapperReturn at h
      dsimp only at h
      split at h
      · simp at h
      next link hlink =>
        split at h
        · simp at h
        next k hk =>
          simp only [Outcome.done.injEq, Prod.mk.injEq] at h
          obtain ⟨rfl, rfl⟩ := h
          exact .ret at_ op notMain hlink (by simpa using hk)
  next op =>
    simp only [Outcome.done.injEq, Prod.mk.injEq] at h
    obtain ⟨rfl, rfl⟩ := h
    exact .localStep at_ op
  next handle func arg op =>
    obtain ⟨⟨co, m₁⟩, hstart, h⟩ := Outcome.bind_eq_done.1 h
    unfold coStart at hstart
    split at hstart
    · simp at hstart
    next room =>
      simp only [Outcome.done.injEq, Prod.mk.injEq] at h hstart
      obtain ⟨rfl, rfl⟩ := hstart
      obtain ⟨rfl, rfl⟩ := h
      exact .start at_ op (by omega)
  next op =>
    obtain ⟨⟨m₁, evs⟩, hyield, h⟩ := Outcome.bind_eq_done.1 h
    simp only [Outcome.done.injEq, Prod.mk.injEq] at h
    obtain ⟨rfl, rfl⟩ := h
    exact .yield at_ op (coYield_done hyield)
  next handle op =>
    split at h
    · simp at h
    next target var =>
      obtain ⟨⟨m₁, evs⟩, hwait, h⟩ := Outcome.bind_eq_done.1 h
      simp only [Outcome.done.injEq, Prod.mk.injEq] at h
      obtain ⟨rfl, rfl⟩ := h
      unfold coWait at hwait
      split at hwait
      next dead => exact .waitDead at_ op var dead (refreshCoStack_done hwait)
      next alive =>
        simp only [Outcome.done.injEq, Prod.mk.injEq] at hwait
        obtain ⟨rfl, rfl⟩ := hwait
        exact .waitAlive at_ op var alive

theorem step_cases (h : Step P m es m') : StepCase P m es m' := by
  obtain ⟨draws, h⟩ := h
  unfold step at h
  dsimp only at h
  split at h
  next at_ =>
    simp only [Outcome.done.injEq, Prod.mk.injEq] at h
    obtain ⟨rfl, rfl⟩ := h
    exact .enter at_
  next pc at_ => exact userStep_cases at_ h
  next target pc at_ =>
    split at h
    next dead =>
      obtain ⟨⟨m₁, evs⟩, hrefresh, h⟩ := Outcome.bind_eq_done.1 h
      simp only [Outcome.done.injEq, Prod.mk.injEq] at h
      obtain ⟨rfl, rfl⟩ := h
      exact .loopExit at_ dead (refreshCoStack_done hrefresh)
    next alive =>
      obtain ⟨⟨m₁, evs⟩, hyield, h⟩ := Outcome.bind_eq_done.1 h
      simp only [Outcome.done.injEq, Prod.mk.injEq] at h
      obtain ⟨rfl, rfl⟩ := h
      exact .loopYield at_ alive (coYield_done hyield)
  next target pc at_ => exact .refreshYield at_ (coYield_done h)
  next target pc at_ =>
    simp only [Outcome.done.injEq, Prod.mk.injEq] at h
    obtain ⟨rfl, rfl⟩ := h
    exact .waitReturn at_

end OSLabs.Libco
