import Mathlib.Data.List.Range
import OSLabs.Libco.Status

/-! # Exactly-once execution

The steps that a coroutine has performed are the indices in its `exec` events. As
long as user code runs only while `current` is the coroutine it belongs to, the
context of every unfinished coroutine that does not run is its newest continuation,
and every body is performed from its first step on without repetition or gap.
-/

namespace OSLabs.Libco

open Lib

variable {P : Program} {m m' : Machine} {ret : Point} {log es : List Event}

def stepsOf (co : Addr) (log : List Event) : List Nat :=
  log.filterMap fun
    | .exec a pc => if a = co then some pc else none
    | _ => none

theorem stepsOf_append (co : Addr) (log es : List Event) :
    stepsOf co (log ++ es) = stepsOf co log ++ stepsOf co es :=
  List.filterMap_append

theorem stepsOf_eq_nil {co : Addr} (h : ∀ a pc, .exec a pc ∉ es) : stepsOf co es = [] := by
  refine List.filterMap_eq_nil_iff.2 fun e he => ?_
  cases e with
  | exec a pc => exact (h a pc he).elim
  | _ => rfl

/-- `co` has performed a prefix of the steps its body prescribes, each once and in
order, and all of them if its function has returned. -/
def PerformsPrefix (P : Program) (log : List Event) (m : Machine) (co : Addr) : Prop :=
  ∃ n, stepsOf co log = List.range n ∧ (∀ pc < n, (bodyOf P m co pc).isSome) ∧
    (.funcReturn co ∈ log → bodyOf P m co n = none)

/-- User code, if it runs, belongs to the coroutine that `current` names, and that
coroutine is not dead. -/
def userIsCurrent (m : Machine) : Bool :=
  match m.running.point with
  | .user _ => m.current = m.running.owner ∧ (m.heap m.current).status ≠ .coDead
  | _ => true

def UserIsCurrent (_ : List Event) (m : Machine) : Prop := userIsCurrent m = true

theorem UserIsCurrent.at_user (h : UserIsCurrent log m) {pc : Nat}
    (at_ : m.running.point = .user pc) :
    m.current = m.running.owner ∧ (m.heap m.current).status ≠ .coDead := by
  unfold UserIsCurrent userIsCurrent at h
  rw [at_] at h
  simpa using h

/-! ## The invariant -/

structure Progress (P : Program) (log : List Event) (m : Machine) : Prop where
  performs : ∀ co, PerformsPrefix P log m co
  unstarted : ∀ {co}, m.brk ≤ co → stepsOf co log = []
  parked : ∀ {co}, co < m.brk → .funcReturn co ∉ log → co ≠ m.current →
    ∃ p, (m.heap co).context = some ⟨co, p⟩ ∧ p.pc = (stepsOf co log).length
  running : .funcReturn m.current ∉ log →
    m.running.owner = m.current ∧ m.running.point.pc = (stepsOf m.current log).length

theorem coInit_progress (P : Program) : Progress P [] coInit where
  performs := fun co => ⟨0, rfl, by simp, by simp⟩
  unstarted := fun _ => rfl
  parked := by
    intro co hlt _ hne
    exact (hne (Nat.lt_one_iff.1 hlt)).elim
  running := fun _ => ⟨rfl, rfl⟩

/-- Events that neither perform a step nor end a function leave the invariant alone. -/
theorem Progress.quiet (inv : Progress P log m) (es : List Event) (hexec : ∀ a pc, .exec a pc ∉ es)
    (hret : ∀ a, .funcReturn a ∉ es) : Progress P (log ++ es) m := by
  have hsteps : ∀ co, stepsOf co (log ++ es) = stepsOf co log := by
    intro co; rw [stepsOf_append, stepsOf_eq_nil hexec, List.append_nil]
  have hmem : ∀ co, .funcReturn co ∈ log ++ es ↔ .funcReturn co ∈ log := by
    intro co; simp [hret]
  exact
    { performs := by
        intro co
        obtain ⟨n, h⟩ := inv.performs co
        exact ⟨n, by rw [hsteps, hmem]; exact h⟩
      unstarted := by intro co h; rw [hsteps]; exact inv.unstarted h
      parked := by
        intro co hlt hr hne
        rw [hsteps]
        exact inv.parked hlt (by rwa [hmem] at hr) hne
      running := by
        intro hr
        rw [hsteps]
        exact inv.running (by rwa [hmem] at hr) }

theorem Progress.goto (inv : Progress P log m) {p : Point}
    (hp : p.pc = m.running.point.pc) : Progress P log (m.goto p) where
  performs := inv.performs
  unstarted := inv.unstarted
  parked := inv.parked
  running := fun h => ⟨(inv.running h).1, hp.trans (inv.running h).2⟩

theorem Progress.setStatus (inv : Progress P log m) (co : Addr) (s : CoState) :
    Progress P log (m.setStatus co s) where
  performs := by
    intro a
    obtain ⟨n, h⟩ := inv.performs a
    exact ⟨n, by simpa [bodyOf] using h⟩
  unstarted := inv.unstarted
  parked := by intro a h; simpa using inv.parked h
  running := inv.running

/-- The running coroutine performs step `pc` of its body and goes on behind it. -/
theorem Progress.exec (inv : Progress P log m) (alloc : Allocated m)
    (alive : .funcReturn m.current ∉ log) {pc : Nat} (at_ : m.running.point = .user pc)
    {op : Op} (hop : bodyOf P m m.running.owner pc = some op) :
    Progress P (log ++ [.exec m.running.owner pc]) (m.goto (.user (pc + 1))) := by
  obtain ⟨howner, hpc⟩ := inv.running alive
  rw [at_] at hpc
  rw [howner] at hop ⊢
  have hown : stepsOf m.current (log ++ [.exec m.current pc]) =
      stepsOf m.current log ++ [pc] := by
    rw [stepsOf_append]
    simp [stepsOf]
  have hother : ∀ {co}, co ≠ m.current →
      stepsOf co (log ++ [.exec m.current pc]) = stepsOf co log := by
    intro co hne
    rw [stepsOf_append]
    simp [stepsOf, hne.symm]
  have hmem : ∀ co, .funcReturn co ∈ log ++ [.exec m.current pc] ↔ .funcReturn co ∈ log := by
    intro co; simp
  exact
    { performs := by
        intro co
        obtain ⟨n, hn, hsome, hret⟩ := inv.performs co
        by_cases hco : co = m.current
        · subst hco
          -- the newest step is the one at index `n`
          have hnpc : pc = n := by simpa [hn, Point.pc] using hpc
          subst hnpc
          refine ⟨pc + 1, by rw [hown, hn, List.range_succ], ?_, ?_⟩
          · intro i hi
            rcases Nat.lt_succ_iff_lt_or_eq.1 hi with hlt | rfl
            · exact hsome i hlt
            · exact Option.isSome_iff_exists.2 ⟨op, hop⟩
          · intro h
            exact (alive ((hmem _).1 h)).elim
        · exact ⟨n, by rw [hother hco, hmem]; exact ⟨hn, hsome, hret⟩⟩
      unstarted := by
        intro co hle
        have hne : co ≠ m.current := fun he => Nat.not_lt.2 hle (he ▸ alloc.current)
        rw [hother hne]
        exact inv.unstarted hle
      parked := by
        intro co hlt hret hne
        rw [hother hne]
        exact inv.parked hlt (by rwa [hmem] at hret) hne
      running := by
        intro _
        refine ⟨howner, ?_⟩
        rw [Machine.goto_current, hown, List.length_append]
        simp [Point.pc, ← hpc] }

/-- `co_yield` stores the continuation of the running coroutine where it belongs,
or, under a dead `current`, in an object that nobody resumes by choice. -/
theorem Progress.yielded (inv : Progress P log m) (stat : StatusOk log m)
    (alloc : Allocated m) (h : Yielded m ret es m') (hret : ret.pc = m.running.point.pc) :
    Progress P (log ++ es) m' := by
  have hexec : ∀ a pc, .exec a pc ∉ es := by
    intro a pc
    rw [h.mem_events (by simp [Event.quiet])]
    simp
  suffices hm' : Progress P log m' from hm'.quiet _ hexec h.funcReturn_not_mem
  obtain ⟨next, k, reads, ⟨i, -, hslot⟩, halive, hk, -, -, rfl, -⟩ := h
  -- every unfinished coroutine now has its newest continuation in its own context
  have hctx : ∀ {co}, co < m.brk → .funcReturn co ∉ log →
      ∃ p, ((m.yieldTo ret next k).heap co).context = some ⟨co, p⟩ ∧
        p.pc = (stepsOf co log).length := by
    intro co hlt hnot
    rw [Machine.yieldTo_context]
    by_cases hco : co = m.current
    · subst hco
      obtain ⟨howner, hpc⟩ := inv.running hnot
      exact ⟨ret, by rw [if_pos rfl, howner], hret.trans hpc⟩
    · rw [if_neg hco]
      exact inv.parked hlt hnot hco
  have hnext : .funcReturn next ∉ log := by rwa [← stat.dead]
  exact
    { performs := by
        intro co
        obtain ⟨n, h⟩ := inv.performs co
        exact ⟨n, by simpa [bodyOf] using h⟩
      unstarted := by intro co h; exact inv.unstarted (by simpa using h)
      parked := by
        intro co hlt hnot _
        exact hctx (by simpa using hlt) hnot
      running := by
        intro _
        obtain ⟨p, hp, hpc⟩ := hctx (alloc.slot hslot) hnext
        have hkp : k = ⟨next, p⟩ := Option.some.inj (hk.symm.trans hp)
        subst hkp
        exact ⟨rfl, hpc⟩ }

theorem Progress.refreshed {co : Addr} {pc : Nat} (inv : Progress P log m)
    (h : Refreshed m co pc es m') (hpc : pc = m.running.point.pc) :
    Progress P (log ++ es) m' := by
  obtain ⟨tmp, -, -, ⟨-, rfl, rfl⟩ | ⟨-, rfl, rfl⟩⟩ := h
  · refine Progress.quiet ?_ _ (by simp) (by simp)
    exact
      { performs := inv.performs
        unstarted := inv.unstarted
        parked := inv.parked
        running := (inv.goto (p := .refreshYield co pc) hpc).running }
  · exact (inv.goto hpc : Progress P log (m.goto (.user pc))).quiet _ (by simp) (by simp)

theorem Progress.started (inv : Progress P log m) (stat : StatusOk log m)
    (handle func arg : Nat) : Progress P log (m.started handle func arg) where
  performs := by
    intro co
    by_cases hco : co = m.brk
    · subst hco
      refine ⟨0, by rw [inv.unstarted (Nat.le_refl _)]; rfl, by simp, ?_⟩
      intro h
      exact (Nat.lt_irrefl _ (stat.old h)).elim
    · obtain ⟨n, h⟩ := inv.performs co
      exact ⟨n, by simpa [bodyOf, Machine.started_heap _ _ _ _ hco] using h⟩
  unstarted := by
    intro co h
    exact inv.unstarted (Nat.le_of_succ_le h)
  parked := by
    intro co hlt hnot hne
    by_cases hco : co = m.brk
    · subst hco
      exact ⟨.wrapperFunc, by simp, by rw [inv.unstarted (Nat.le_refl _)]; rfl⟩
    · rw [Machine.started_heap _ _ _ _ hco]
      exact inv.parked (Nat.lt_of_le_of_ne (Nat.lt_succ_iff.1 hlt) hco) hnot hne
  running := inv.running

/-- A function that returns has performed its whole body, and its coroutine is from
now on neither resumed by choice nor, while `current` still names it, trusted. -/
theorem Progress.returned (inv : Progress P log m) (alive : .funcReturn m.current ∉ log)
    {pc : Nat} (at_ : m.running.point = .user pc)
    (hop : bodyOf P m m.running.owner pc = none) (k : Cont) :
    Progress P (log ++ [.funcReturn m.running.owner])
      { m.setStatus m.running.owner .coDead with running := k } := by
  obtain ⟨howner, hpc⟩ := inv.running alive
  rw [at_] at hpc
  rw [howner] at hop ⊢
  have hsteps : ∀ co, stepsOf co (log ++ [.funcReturn m.current]) = stepsOf co log := by
    intro co
    rw [stepsOf_append]
    simp [stepsOf]
  exact
    { performs := by
        intro co
        obtain ⟨n, hn, hsome, hret⟩ := inv.performs co
        refine ⟨n, by rw [hsteps]; exact hn, by simpa [bodyOf] using hsome, ?_⟩
        intro h
        rcases List.mem_append.1 h with h | h
        · simpa [bodyOf] using hret h
        · simp only [List.mem_cons, Event.funcReturn.injEq, List.not_mem_nil, or_false] at h
          subst h
          have hnpc : pc = n := by simpa [hn, Point.pc] using hpc
          subst hnpc
          simpa [bodyOf] using hop
      unstarted := by intro co h; rw [hsteps]; exact inv.unstarted h
      parked := by
        intro co hlt hnot hne
        rw [hsteps]
        have hnot' : .funcReturn co ∉ log := fun h => hnot (List.mem_append_left _ h)
        simpa using inv.parked hlt hnot' hne
      running := fun h => (h (List.mem_append_right _ (by simp))).elim }

/-! ## Steps -/

theorem Progress.step (inv : Progress P log m) (stat : StatusOk log m) (alloc : Allocated m)
    (ok : UserIsCurrent log m) (h : StepCase P m es m') : Progress P (log ++ es) m' := by
  have alive : ∀ {pc}, m.running.point = .user pc → .funcReturn m.current ∉ log := by
    intro pc at_
    rw [← stat.dead]
    exact (ok.at_user at_).2
  -- a library call of the body is the step that makes it, followed by the call
  have exec : ∀ {pc op}, m.running.point = .user pc →
      bodyOf P m m.running.owner pc = some op →
      Progress P (log ++ [.exec m.running.owner pc]) (m.goto (.user (pc + 1))) ∧
        StatusOk (log ++ [.exec m.running.owner pc]) (m.goto (.user (pc + 1))) := by
    intro pc op at_ hop
    refine ⟨inv.exec alloc (alive at_) at_ hop, ?_⟩
    exact stat.keep (by simp) (fun _ => Iff.rfl) (Nat.le_refl _) (stat.goto_past (by simp))
  cases h with
  | localStep at_ op => exact (exec at_ op).1
  | @start pc handle func arg at_ op =>
      obtain ⟨hinv, hstat⟩ := exec at_ op
      have hnew : Progress P (log ++ [.exec m.running.owner pc] ++
          [.started m.running.owner m.brk, .access .write m.brk])
          ((m.started handle func arg).goto (.user (pc + 1))) :=
        (hinv.started hstat handle func arg).quiet _ (by simp) (by simp)
      simpa using hnew
  | yield at_ op spec =>
      obtain ⟨hinv, hstat⟩ := exec at_ op
      simpa using hinv.yielded hstat (alloc.goto _) (spec.of_goto _) rfl
  | @waitAlive pc handle target at_ op =>
      obtain ⟨hinv, -⟩ := exec at_ op
      have hloop : Progress P (log ++ [.exec m.running.owner pc] ++
          [.waits m.running.owner target, .access .read target, .access .write target])
          ((m.setStatus target .coWaiting).goto (.waitLoop target (pc + 1))) :=
        ((hinv.setStatus target .coWaiting).goto (p := .waitLoop target (pc + 1)) rfl).quiet _
          (by simp) (by simp)
      simpa using hloop
  | @waitDead pc handle target _ _ at_ op _ _ spec =>
      obtain ⟨hinv, -⟩ := exec at_ op
      have hcall := hinv.quiet [.waits m.running.owner target, .access .read target]
        (by simp) (by simp)
      simpa using hcall.refreshed (spec.of_goto _) rfl
  | @ret _ link k at_ op =>
      have hret := (inv.returned (alive at_) at_ op k).quiet
        [.access .write m.running.owner, .access .resume link] (by simp) (by simp)
      simpa using hret
  | enter at_ =>
      exact (inv.goto (p := .user 0) (congrArg Point.pc at_).symm).quiet _ (by simp) (by simp)
  | @loopYield target _ _ _ at_ _ spec =>
      have hread := inv.quiet [.access .read target] (by simp) (by simp)
      simpa using hread.yielded (stat.quiet (by simp)) alloc spec (congrArg Point.pc at_).symm
  | @loopExit target _ _ _ at_ _ spec =>
      have hread := inv.quiet [.access .read target] (by simp) (by simp)
      simpa using hread.refreshed spec (congrArg Point.pc at_).symm
  | refreshYield at_ spec =>
      exact inv.yielded stat alloc spec (congrArg Point.pc at_).symm
  | @waitReturn _ pc at_ =>
      exact (inv.goto (p := .user pc) (congrArg Point.pc at_).symm).quiet _ (by simp) (by simp)

/-- Exactly-once execution: in a run whose user code is always the code of a live
`current`, every coroutine performs a prefix of its body, each step once. -/
theorem steps_exactly_once (P : Program) {log : List Event} {m : Machine}
    (run : Run UserIsCurrent (Step P) coInit log m) (co : Addr) :
    PerformsPrefix P log m co := by
  refine (run.invariant (fun log m => (Allocated m ∧ StatusOk log m) ∧ Progress P log m)
    ⟨⟨coInit_allocated, coInit_statusOk⟩, coInit_progress P⟩ ?_).2.performs co
  rintro log es m m' - ok ⟨⟨alloc, stat⟩, inv⟩ hstep
  exact ⟨⟨alloc.step (step_cases hstep), stat.step alloc (step_cases hstep)⟩,
    inv.step stat alloc ok (step_cases hstep)⟩

/-- `main` starts one coroutine and yields twice; the coroutine computes and yields. -/
def handover : Program where
  main := fun pc => [.coStart 0 0 0, .coYield, .coYield][pc]?
  func := fun _ _ pc => [.localStep, .coYield, .localStep][pc]?

theorem steps_exactly_once_handover :
    ∃ log m, Run UserIsCurrent (Step handover) coInit log m ∧ .funcReturn 1 ∈ log ∧
      PerformsPrefix handover log m mainCo := by
  obtain ⟨log, m, run, hp⟩ := exists_run_of_replay UserIsCurrent
    (Step handover) coInit (fun _ m => userIsCurrent m) (fun _ _ h => h) (step_of_stepDone handover)
    [[], [1], [], [], [0], [1], [], []] (fun log _ => decide (.funcReturn 1 ∈ log)) (by decide)
  exact ⟨log, m, run, of_decide_eq_true hp, steps_exactly_once handover run mainCo⟩

/-- `main` starts a coroutine whose function does nothing, yields to it, and computes
between two yields. -/
def staleMain : Program where
  main := fun pc => [.coStart 0 0 0, .coYield, .localStep, .coYield, .localStep][pc]?
  func := fun _ _ _ => none

/-- The empty coroutine returns into `main` while `current` still names it. The next
`co_yield` of `main` stores the continuation of `main` in the dead object, so that
choosing `main` again resumes the older one, behind the first yield. -/
theorem staleMain_repeats_step :
    ∃ log m, Run anyStep (Step staleMain) coInit log m ∧ m.coStackCount < coStackSize ∧
      stepsOf mainCo log = [0, 1, 2, 3, 2] ∧ ¬ PerformsPrefix staleMain log m mainCo := by
  obtain ⟨log, m, run, hp⟩ := exists_run_of_replay anyStep
    (Step staleMain) coInit (fun _ _ => true) (fun _ _ _ => trivial) (step_of_stepDone staleMain)
    [[], [1], [], [], [], [0], []]
    (fun log m => decide (m.coStackCount < coStackSize ∧ stepsOf mainCo log = [0, 1, 2, 3, 2]))
    (by decide)
  obtain ⟨hcount, hsteps⟩ := of_decide_eq_true hp
  refine ⟨log, m, run, hcount, hsteps, ?_⟩
  rintro ⟨n, hn, -, -⟩
  have hlen := congrArg List.length (hsteps.symm.trans hn)
  simp only [List.length_cons, List.length_nil, List.length_range] at hlen
  subst hlen
  exact absurd (hsteps.symm.trans hn) (by decide)

end OSLabs.Libco
