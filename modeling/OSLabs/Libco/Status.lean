import OSLabs.Libco.Step

/-! # The status protocol

Two invariants of every run, whatever the program does and whatever `rand()`
returns. `Allocated` says that every address the library holds came from `malloc`;
`StatusOk` ties the status field to what has happened: it is `CO_DEAD` exactly for
the coroutines whose function has returned.
-/

namespace OSLabs.Libco

open Lib

variable {P : Program} {m m' : Machine} {ret : Point} {log es : List Event}

/-! ## The shift loop -/

theorem shiftDown_apply (coStack : Nat → Option Addr) (n j i : Nat) :
    shiftDown coStack n j i = if j ≤ i ∧ i < j + n then coStack (i + 1) else coStack i := by
  induction n generalizing coStack j with
  | zero =>
      rw [if_neg (by omega)]
      rfl
  | succ n ih =>
      rw [shiftDown, ih]
      by_cases hij : i = j
      · subst hij
        simp
      · by_cases hrest : j + 1 ≤ i ∧ i < j + 1 + n
        · rw [if_pos hrest, if_pos (by omega), Function.update_of_ne (by omega)]
        · rw [if_neg hrest, if_neg (by omega), Function.update_of_ne hij]

/-! ## Events of the library calls -/

/-- The events that only say which objects were touched. -/
def Event.quiet : Event → Prop
  | .access _ _ => True
  | .chosen _ => True
  | _ => False

theorem Yielded.events (h : Yielded m ret es m') :
    ∃ quiet, es = .suspended m.running.owner ret :: quiet ∧ ∀ e ∈ quiet, e.quiet := by
  obtain ⟨next, k, reads, -, -, -, -, hreads, -, rfl⟩ := h
  refine ⟨_, rfl, ?_⟩
  intro e he
  simp only [List.append_eq, List.nil_append, List.cons_append, List.mem_cons, List.mem_append,
    List.not_mem_nil, or_false] at he
  rcases he with rfl | rfl | he | rfl | rfl | rfl <;> try trivial
  rcases hreads e he with rfl | ⟨i, a, -, -, rfl⟩ <;> trivial

theorem Yielded.mem_events (h : Yielded m ret es m') {e : Event} (he : ¬ e.quiet) :
    e ∈ es ↔ e = .suspended m.running.owner ret := by
  obtain ⟨quiet, rfl, hquiet⟩ := h.events
  rw [List.mem_cons]
  exact ⟨fun hmem => hmem.elim id fun hq => (he (hquiet e hq)).elim, .inl⟩

theorem Yielded.funcReturn_not_mem (h : Yielded m ret es m') (a : Addr) :
    .funcReturn a ∉ es := by
  rw [h.mem_events (by simp [Event.quiet])]
  simp

theorem Refreshed.funcReturn_not_mem {co : Addr} {pc : Nat} (h : Refreshed m co pc es m')
    (a : Addr) : .funcReturn a ∉ es := by
  obtain ⟨tmp, -, -, ⟨-, -, rfl⟩ | ⟨-, -, rfl⟩⟩ := h <;> simp

theorem Machine.yieldTo_dead {next a : Addr} {k : Cont}
    (alive : (m.heap next).status ≠ .coDead) :
    ((m.yieldTo ret next k).heap a).status = .coDead ↔ (m.heap a).status = .coDead := by
  rw [yieldTo_status]
  by_cases ha : a = next
  · subst ha
    simp [alive]
  · rw [if_neg ha]
    by_cases hc : a = m.current ∧ (m.heap a).status ≠ .coDead
    · rw [if_pos hc]
      simp [hc.2]
    · rw [if_neg hc]

/-! ## Addresses come from `malloc` -/

/-- Every address the machine holds was returned by `malloc`, and no variable holds
the main coroutine. -/
structure Allocated (m : Machine) : Prop where
  main : mainCo < m.brk
  running : m.running.owner < m.brk
  current : m.current < m.brk
  slot : ∀ {i a}, m.coStack i = some a → a < m.brk
  context : ∀ {a k}, (m.heap a).context = some k → k.owner < m.brk
  link : ∀ {a l}, (m.heap a).ucLink = some l → l < m.brk
  handle : ∀ {v a}, m.handles v = some a → a < m.brk ∧ a ≠ mainCo

theorem coInit_allocated : Allocated coInit where
  main := by decide
  running := by decide
  current := by decide
  slot := by
    intro i a h
    by_cases hi : i = 0
    · subst hi
      simp only [coInit, Function.update_self, Option.some.injEq] at h
      subst h
      decide
    · simp [coInit, hi] at h
  context := by intro a k h; simp [coInit] at h
  link := by intro a l h; simp [coInit] at h
  handle := by intro v a h; simp [coInit] at h

theorem Allocated.goto (inv : Allocated m) (p : Point) : Allocated (m.goto p) where
  main := inv.main
  running := inv.running
  current := inv.current
  slot := inv.slot
  context := inv.context
  link := inv.link
  handle := inv.handle

theorem Allocated.yielded (inv : Allocated m) (h : Yielded m ret es m') : Allocated m' := by
  obtain ⟨next, k, reads, ⟨i, -, hslot⟩, -, hk, -, -, rfl, -⟩ := h
  have hcontext : ∀ {a k'}, ((m.yieldTo ret next k).heap a).context = some k' →
      k'.owner < m.brk := by
    intro a k' h
    simp only [Machine.yieldTo_context] at h
    split at h
    · simp only [Option.some.injEq] at h
      subst h
      exact inv.running
    · exact inv.context h
  exact
    { main := by simpa using inv.main
      running := by simpa using hcontext hk
      current := by simpa using inv.slot hslot
      slot := by intro i a h; simpa using inv.slot (by simpa using h)
      context := by intro a k' h; simpa using hcontext h
      link := by intro a l h; simpa using inv.link (by simpa using h)
      handle := by intro v a h; simpa using inv.handle (by simpa using h) }

theorem Allocated.refreshed {co : Addr} {pc : Nat} (inv : Allocated m)
    (h : Refreshed m co pc es m') : Allocated m' := by
  obtain ⟨tmp, -, -, ⟨-, rfl, -⟩ | ⟨-, rfl, -⟩⟩ := h
  · apply Allocated.goto
    exact
      { inv with
        slot := by
          intro i a h
          simp only [Machine.dropSlot, shiftDown_apply] at h
          split at h <;> exact inv.slot h }
  · exact inv.goto _

theorem Machine.started_heap (m : Machine) (handle func arg : Nat) {a : Addr}
    (ha : a ≠ m.brk) : (m.started handle func arg).heap a = m.heap a := by
  simp [Machine.started, ha]

@[simp] theorem Machine.started_heap_new (m : Machine) (handle func arg : Nat) :
    (m.started handle func arg).heap m.brk =
      { func := func, arg := arg, status := .coNew, context := some ⟨m.brk, .wrapperFunc⟩,
        ucLink := some m.current } := by
  simp [Machine.started]

theorem Allocated.started (inv : Allocated m) (handle func arg : Nat) :
    Allocated (m.started handle func arg) where
  main := Nat.lt_succ_of_lt inv.main
  running := Nat.lt_succ_of_lt inv.running
  current := Nat.lt_succ_of_lt inv.current
  slot := by
    intro i a h
    by_cases hi : i = m.coStackCount
    · subst hi
      simp only [Machine.started, Function.update_self, Option.some.injEq] at h
      exact h ▸ Nat.lt_succ_self _
    · simp only [Machine.started, Function.update_of_ne hi] at h
      exact Nat.lt_succ_of_lt (inv.slot h)
  context := by
    intro a k h
    by_cases ha : a = m.brk
    · subst ha
      simp only [Machine.started_heap_new, Option.some.injEq] at h
      exact h ▸ Nat.lt_succ_self _
    · rw [Machine.started_heap _ _ _ _ ha] at h
      exact Nat.lt_succ_of_lt (inv.context h)
  link := by
    intro a l h
    by_cases ha : a = m.brk
    · subst ha
      simp only [Machine.started_heap_new, Option.some.injEq] at h
      exact h ▸ Nat.lt_succ_of_lt inv.current
    · rw [Machine.started_heap _ _ _ _ ha] at h
      exact Nat.lt_succ_of_lt (inv.link h)
  handle := by
    intro v a h
    by_cases hv : v = handle
    · subst hv
      simp only [Machine.started, Function.update_self, Option.some.injEq] at h
      subst h
      exact ⟨Nat.lt_succ_self _, (Nat.ne_of_lt inv.main).symm⟩
    · simp only [Machine.started, Function.update_of_ne hv] at h
      exact ⟨Nat.lt_succ_of_lt (inv.handle h).1, (inv.handle h).2⟩

theorem Allocated.setStatus (inv : Allocated m) (co : Addr) (s : CoState) :
    Allocated (m.setStatus co s) where
  main := inv.main
  running := inv.running
  current := inv.current
  slot := inv.slot
  context := by intro a k h; exact inv.context (by simpa using h)
  link := by intro a l h; exact inv.link (by simpa using h)
  handle := inv.handle

theorem Allocated.step (inv : Allocated m) (h : StepCase P m es m') : Allocated m' := by
  cases h with
  | localStep => exact inv.goto _
  | start => exact (inv.started _ _ _).goto _
  | yield _ _ spec => exact inv.yielded spec
  | waitAlive => exact (inv.setStatus _ _).goto _
  | waitDead _ _ _ _ spec => exact inv.refreshed spec
  | ret _ _ _ _ hk =>
      exact { inv.setStatus m.running.owner .coDead with running := inv.context hk }
  | enter => exact inv.goto _
  | loopYield _ _ spec => exact inv.yielded spec
  | loopExit _ _ spec => exact inv.refreshed spec
  | refreshYield _ spec => exact inv.yielded spec
  | waitReturn => exact inv.goto _

/-! ## `CO_DEAD` -/

def Machine.Holds (m : Machine) (k : Cont) : Prop :=
  k = m.running ∨ ∃ a, (m.heap a).context = some k

/-- The points of `co_wait(co)` behind its test for `CO_DEAD`. -/
def Point.PastWait (co : Addr) : Point → Prop
  | .refreshYield target _ => target = co
  | .waitReturn target _ => target = co
  | _ => False

@[simp] theorem pastWait_wrapperFunc (co : Addr) : ¬ Point.PastWait co .wrapperFunc := id

@[simp] theorem pastWait_user (co : Addr) (pc : Nat) : ¬ Point.PastWait co (.user pc) := id

@[simp] theorem pastWait_waitLoop (co target : Addr) (pc : Nat) :
    ¬ Point.PastWait co (.waitLoop target pc) := id

structure StatusOk (log : List Event) (m : Machine) : Prop where
  dead : ∀ a, (m.heap a).status = .coDead ↔ .funcReturn a ∈ log
  old : ∀ {a}, .funcReturn a ∈ log → a < m.brk
  main : .funcReturn mainCo ∉ log
  past : ∀ {k co}, m.Holds k → k.point.PastWait co → .funcReturn co ∈ log

theorem coInit_statusOk : StatusOk [] coInit where
  dead := by intro a; simp only [coInit]; split <;> simp
  old := by simp
  main := by simp
  past := by
    rintro k co (rfl | ⟨a, h⟩) hp
    · exact hp.elim
    · simp [coInit] at h

/-- What `StatusOk` needs of a step that returns from no function. -/
theorem StatusOk.keep (inv : StatusOk log m)
    (events : ∀ a, .funcReturn a ∉ es)
    (status : ∀ a, (m'.heap a).status = .coDead ↔ (m.heap a).status = .coDead)
    (brk : m.brk ≤ m'.brk)
    (past : ∀ {k co}, m'.Holds k → k.point.PastWait co → .funcReturn co ∈ log) :
    StatusOk (log ++ es) m' where
  dead := by intro a; rw [status, inv.dead]; simp [events]
  old := by
    intro a h
    have h' : .funcReturn a ∈ log := by simpa [events] using h
    exact Nat.lt_of_lt_of_le (inv.old h') brk
  main := by simp [events, inv.main]
  past := fun hk hp => List.mem_append_left _ (past hk hp)

theorem StatusOk.quiet (inv : StatusOk log m) (events : ∀ a, .funcReturn a ∉ es) :
    StatusOk (log ++ es) m :=
  inv.keep events (fun _ => Iff.rfl) (Nat.le_refl _) inv.past

theorem Machine.Holds.of_goto {p : Point} {k : Cont} (h : (m.goto p).Holds k) :
    k = ⟨m.running.owner, p⟩ ∨ m.Holds k := by
  rcases h with h | h
  · exact .inl h
  · exact .inr (.inr h)

theorem StatusOk.goto_past (inv : StatusOk log m) {p : Point}
    (hp : ∀ co, p.PastWait co → .funcReturn co ∈ log) {k : Cont} {co : Addr}
    (hk : (m.goto p).Holds k) (hpast : k.point.PastWait co) : .funcReturn co ∈ log := by
  rcases hk.of_goto with rfl | hk
  · exact hp co hpast
  · exact inv.past hk hpast

theorem StatusOk.goto (inv : StatusOk log m) {p : Point}
    (hp : ∀ co, p.PastWait co → .funcReturn co ∈ log) : StatusOk log (m.goto p) where
  dead := inv.dead
  old := inv.old
  main := inv.main
  past := inv.goto_past hp

theorem StatusOk.yielded (inv : StatusOk log m) (h : Yielded m ret es m')
    (hret : ∀ co, ret.PastWait co → .funcReturn co ∈ log) : StatusOk (log ++ es) m' := by
  have hno := h.funcReturn_not_mem
  obtain ⟨next, k, reads, -, halive, hk, -, -, rfl, -⟩ := h
  have hcontext : ∀ {a k' co}, ((m.yieldTo ret next k).heap a).context = some k' →
      k'.point.PastWait co → .funcReturn co ∈ log := by
    intro a k' co h hp
    simp only [Machine.yieldTo_context] at h
    split at h
    · simp only [Option.some.injEq] at h
      subst h
      exact hret co hp
    · exact inv.past (.inr ⟨a, h⟩) hp
  refine inv.keep hno ?_ (by simp) ?_
  · exact fun a => Machine.yieldTo_dead halive
  · rintro k' co (rfl | ⟨a, h⟩) hp
    · exact hcontext hk hp
    · exact hcontext h hp

theorem StatusOk.refreshed {co : Addr} {pc : Nat} (inv : StatusOk log m)
    (h : Refreshed m co pc es m') (hco : .funcReturn co ∈ log) :
    StatusOk (log ++ es) m' := by
  have hno := h.funcReturn_not_mem
  obtain ⟨tmp, -, -, ⟨-, rfl, rfl⟩ | ⟨-, rfl, rfl⟩⟩ := h
  · refine inv.keep hno (fun _ => Iff.rfl) (Nat.le_refl _) ?_
    rintro k co' (rfl | h) hp
    · exact (show co = co' from hp) ▸ hco
    · exact inv.past (.inr h) hp
  · exact inv.keep hno (fun _ => Iff.rfl) (Nat.le_refl _) (inv.goto_past (by simp))

theorem StatusOk.prepend (inv : StatusOk (log ++ es) m) (pre : List Event)
    (hret : ∀ a, .funcReturn a ∉ pre) : StatusOk (log ++ (pre ++ es)) m := by
  have hmem : ∀ a, .funcReturn a ∈ log ++ (pre ++ es) ↔ .funcReturn a ∈ log ++ es := by
    intro a; simp [hret]
  exact
    { dead := fun a => (inv.dead a).trans (hmem a).symm
      old := fun h => inv.old ((hmem _).1 h)
      main := fun h => inv.main ((hmem _).1 h)
      past := fun hk hp => (hmem _).2 (inv.past hk hp) }

theorem StatusOk.step (inv : StatusOk log m) (alloc : Allocated m) (h : StepCase P m es m') :
    StatusOk (log ++ es) m' := by
  cases h with
  | localStep =>
      exact inv.keep (by simp) (fun _ => Iff.rfl) (Nat.le_refl _) (inv.goto_past (by simp))
  | start =>
      refine inv.keep (by simp) ?_ (Nat.le_succ _) ?_
      · intro a
        by_cases ha : a = m.brk
        · subst ha
          have : .funcReturn m.brk ∉ log := fun h => Nat.lt_irrefl _ (inv.old h)
          simp [inv.dead, this]
        · simp [Machine.started_heap _ _ _ _ ha]
      · rintro k co (rfl | ⟨a, h⟩) hp
        · exact hp.elim
        · by_cases ha : a = m.brk
          · subst ha
            simp only [Machine.goto_heap, Machine.started_heap_new, Option.some.injEq] at h
            subst h
            exact hp.elim
          · rw [Machine.goto_heap, Machine.started_heap _ _ _ _ ha] at h
            exact inv.past (.inr ⟨a, h⟩) hp
  | yield _ _ spec =>
      exact (inv.yielded spec (by simp)).prepend [_] (by simp)
  | waitAlive _ _ _ alive =>
      refine inv.keep (by simp) ?_ (Nat.le_refl _) ?_
      · intro a
        simp only [Machine.goto_heap, Machine.setStatus_status]
        split
        next ha => subst ha; simp [alive]
        next => rfl
      · rintro k co (rfl | ⟨a, h⟩) hp
        · exact hp.elim
        · exact inv.past (.inr ⟨a, by simpa using h⟩) hp
  | waitDead _ _ _ dead spec =>
      exact (inv.refreshed spec ((inv.dead _).1 dead)).prepend _ (by simp)
  | ret _ _ notMain _ hk =>
      exact
        { dead := by
            intro a
            by_cases ha : a = m.running.owner
            · subst ha; simp
            · simp [ha, inv.dead]
          old := by
            intro a h
            simp only [List.mem_append, List.mem_cons, Event.funcReturn.injEq, reduceCtorEq,
              List.not_mem_nil, or_false] at h
            rcases h with h | rfl
            · exact inv.old h
            · exact alloc.running
          main := by simp [inv.main, notMain.symm]
          past := by
            rintro k' co (rfl | ⟨a, h⟩) hp
            · exact List.mem_append_left _ (inv.past (.inr ⟨_, hk⟩) hp)
            · exact List.mem_append_left _ (inv.past (.inr ⟨a, by simpa using h⟩) hp) }
  | enter =>
      exact inv.keep (by simp) (fun _ => Iff.rfl) (Nat.le_refl _) (inv.goto_past (by simp))
  | loopYield _ _ spec =>
      exact (inv.yielded spec (by simp)).prepend [_] (by simp)
  | loopExit _ dead spec =>
      exact (inv.refreshed spec ((inv.dead _).1 dead)).prepend [_] (by simp)
  | refreshYield at_ spec =>
      have hpast : ∀ co, m.running.point.PastWait co → .funcReturn co ∈ log :=
        fun _ hp => inv.past (.inl rfl) hp
      rw [at_] at hpast
      exact inv.yielded spec hpast
  | waitReturn =>
      exact inv.keep (by simp) (fun _ => Iff.rfl) (Nat.le_refl _) (inv.goto_past (by simp))

end OSLabs.Libco
