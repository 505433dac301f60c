import OSLabs.Libco.Registry

/-! # Scheduler and control agreement

Two kinds of states are reachable as long as every returning function is followed,
through `uc_link`, by a `co_wait` loop that has to go on waiting, and no `co_start`
writes behind `co_stack`, where `current` may be: `current` is the
coroutine that runs, or `current` has just returned and the loop that runs is about
to give control away again from the very point its own context already holds.
-/

namespace OSLabs.Libco

open Lib

variable {P : Program} {m m' : Machine} {ret : Point} {log es : List Event}

/-- The point of the newest `co_yield` that coroutine `co` has made. -/
def lastSuspension (co : Addr) (log : List Event) : Option Point :=
  (log.filterMap fun
    | .suspended a p => if a = co then some p else none
    | _ => none).getLast?

def HasRun (co : Addr) (log : List Event) : Prop := co = mainCo ∨ .enter co ∈ log

/-- In a state in which user code runs, `current` is its coroutine, no other status is
`CO_RUNNING`, and every other coroutine that has run and has not returned is to go on
at its newest `co_yield`, from its own context. -/
def Agrees (log : List Event) (m : Machine) : Prop :=
  ∀ pc, m.running.point = .user pc →
    m.current = m.running.owner ∧
    (∀ co, (m.heap co).status = .coRunning ↔ co = m.running.owner) ∧
    ∀ co, co ≠ m.running.owner → HasRun co log → .funcReturn co ∉ log →
      ∃ p, lastSuspension co log = some p ∧ (m.heap co).context = some ⟨co, p⟩

/-- If a function is about to return, then its `uc_link` leads into a `co_wait` loop on
some other coroutine that is not dead. -/
def returnsIntoLoop (P : Program) (m : Machine) : Bool :=
  match m.running.point with
  | .user pc =>
    if (bodyOf P m m.running.owner pc).isNone ∧ m.running.owner ≠ mainCo then
      match (m.heap m.running.owner).ucLink with
      | none => true
      | some link =>
        match (m.heap link).context with
        | some ⟨_, .waitLoop target _⟩ =>
          target ≠ m.running.owner ∧ (m.heap target).status ≠ .coDead
        | _ => false
    else true
  | _ => true

def ReturnsIntoLoop (P : Program) (_ : List Event) (m : Machine) : Prop :=
  returnsIntoLoop P m = true

theorem ReturnsIntoLoop.at_return (h : ReturnsIntoLoop P log m) {pc : Nat} {link : Addr}
    {k : Cont} (at_ : m.running.point = .user pc) (op : bodyOf P m m.running.owner pc = none)
    (notMain : m.running.owner ≠ mainCo) (hlink : (m.heap m.running.owner).ucLink = some link)
    (hk : (m.heap link).context = some k) :
    ∃ target pc', k.point = .waitLoop target pc' ∧ target ≠ m.running.owner ∧
      (m.heap target).status ≠ .coDead := by
  unfold ReturnsIntoLoop returnsIntoLoop at h
  obtain ⟨owner, point⟩ := k
  simp only [at_, op, Option.isNone_none, notMain, ne_eq, not_false_eq_true, and_self, if_true,
    hlink, hk] at h
  cases point with
  | waitLoop target pc' => exact ⟨target, pc', rfl, by simpa using h⟩
  | _ => simp at h

/-- Functions return into loops that have to go on waiting, and no call leaves `co_stack`. -/
def agreementSafe (P : Program) (m : Machine) : Bool := returnsIntoLoop P m && insideTable P m

def AgreementSafe (P : Program) (_ : List Event) (m : Machine) : Prop :=
  agreementSafe P m = true

theorem AgreementSafe.returnsIntoLoop (ok : AgreementSafe P log m) : ReturnsIntoLoop P log m :=
  (Bool.and_eq_true_iff.1 ok).1

/-! ## Newest suspensions -/

theorem lastSuspension_append_of_quiet {co : Addr} (h : ∀ a p, .suspended a p ∉ es) :
    lastSuspension co (log ++ es) = lastSuspension co log := by
  have hnil : es.filterMap (fun
      | .suspended a p => if a = co then some p else none
      | _ => none) = [] := by
    refine List.filterMap_eq_nil_iff.2 fun e he => ?_
    cases e with
    | suspended a p => exact (h a p he).elim
    | _ => rfl
  rw [lastSuspension, List.filterMap_append, hnil, List.append_nil]
  rfl

theorem lastSuspension_yielded (h : Yielded m ret es m') (co : Addr) :
    lastSuspension co (log ++ es) =
      if m.running.owner = co then some ret else lastSuspension co log := by
  obtain ⟨quiet, rfl, hquiet⟩ := h.events
  rw [← List.singleton_append, ← List.append_assoc, lastSuspension_append_of_quiet]
  · rw [lastSuspension, List.filterMap_append]
    by_cases hco : m.running.owner = co
    · simp [hco]
    · simp [hco, lastSuspension]
  · intro a p hmem
    exact hquiet _ hmem

theorem Yielded.enter_not_mem (h : Yielded m ret es m') (co : Addr) : .enter co ∉ es := by
  rw [h.mem_events (by simp [Event.quiet])]
  simp

/-! ## The invariant -/

/-- Whose code runs: that of a live `current`, or a `co_wait` loop into which the
function of `current` has just returned. -/
inductive Control (log : List Event) (m : Machine) : Prop where
  | own (alive : .funcReturn m.current ∉ log) (owner : m.running.owner = m.current)
  | handedBack {target : Addr} {pc : Nat} (dead : .funcReturn m.current ∈ log)
      (alive : .funcReturn m.running.owner ∉ log)
      (loop : m.running.point = .waitLoop target pc)
      (pending : .funcReturn target ∉ log)
      (saved : (m.heap m.running.owner).context = some m.running)

structure Agreement (log : List Event) (m : Machine) : Prop where
  control : Control log m
  onlyCurrent : ∀ {a}, (m.heap a).status = .coRunning → a = m.current
  currentRuns : .funcReturn m.current ∉ log → (m.heap m.current).status = .coRunning ∨
    ∃ pc, m.running.point = .waitLoop m.current pc
  unstarted : ∀ {a}, m.brk ≤ a → .enter a ∉ log
  parked : ∀ {a}, a < m.brk → .funcReturn a ∉ log → a ≠ m.current →
    ¬ HasRun a log ∧ (m.heap a).context = some ⟨a, .wrapperFunc⟩ ∨
      ∃ p, lastSuspension a log = some p ∧ (m.heap a).context = some ⟨a, p⟩
  loops : ∀ {z a target pc}, (m.heap z).context = some ⟨a, .waitLoop target pc⟩ →
    .funcReturn target ∉ log → .funcReturn a ∉ log ∧
      (a = m.current → m.running = ⟨a, .waitLoop target pc⟩) ∧
      (a ≠ m.current → (m.heap a).context = some ⟨a, .waitLoop target pc⟩)

/-- The points from which a coroutine may leave a `co_wait` loop or is in none. -/
def Machine.OutOfLoop (log : List Event) (m : Machine) : Prop :=
  ∀ target pc, m.running.point = .waitLoop target pc → .funcReturn target ∈ log

theorem Machine.outOfLoop_of_ne (h : ∀ target pc, m.running.point ≠ .waitLoop target pc) :
    m.OutOfLoop log := fun target pc hloop => (h target pc hloop).elim

theorem Machine.OutOfLoop.append (out : m.OutOfLoop log) : m.OutOfLoop (log ++ es) :=
  fun target pc h => List.mem_append_left _ (out target pc h)

theorem Machine.outOfLoop_of_dead {target : Addr} {pc : Nat}
    (at_ : m.running.point = .waitLoop target pc) (h : .funcReturn target ∈ log) :
    m.OutOfLoop log := by
  intro target' pc' hloop
  rw [at_] at hloop
  simp only [Point.waitLoop.injEq] at hloop
  exact hloop.1 ▸ h

theorem Agreement.own (inv : Agreement log m) (out : m.OutOfLoop log) :
    .funcReturn m.current ∉ log ∧ m.running.owner = m.current := by
  cases inv.control with
  | own alive owner => exact ⟨alive, owner⟩
  | handedBack _ _ loop pending _ => exact (pending (out _ _ loop)).elim

/-- Out of a loop, no context holds a loop of `current` that still has to wait. -/
theorem Agreement.loops_ne (inv : Agreement log m) (out : m.OutOfLoop log) {z a target : Addr}
    {pc : Nat} (hz : (m.heap z).context = some ⟨a, .waitLoop target pc⟩)
    (pending : .funcReturn target ∉ log) : a ≠ m.current := by
  intro ha
  have hrun := (inv.loops hz pending).2.1 ha
  exact pending (out target pc (by rw [hrun]))

theorem Agreement.lt_brk (inv : Agreement log m) (alloc : Allocated m) {co : Addr}
    (h : HasRun co log) : co < m.brk := by
  rcases h with rfl | h
  · exact alloc.main
  · exact Nat.lt_of_not_le fun hle => inv.unstarted hle h

theorem Agreement.agrees (inv : Agreement log m) (alloc : Allocated m) : Agrees log m := by
  intro pc at_
  obtain ⟨alive, owner⟩ := inv.own (Machine.outOfLoop_of_ne (by simp [at_]))
  refine ⟨owner.symm, ?_, ?_⟩
  · intro co
    constructor
    · intro h; rw [owner]; exact inv.onlyCurrent h
    · rintro rfl
      rw [owner]
      rcases inv.currentRuns alive with h | ⟨pc', h⟩
      · exact h
      · rw [at_] at h; simp at h
  · intro co hne hrun hnot
    rcases inv.parked (inv.lt_brk alloc hrun) hnot (by rwa [owner] at hne) with ⟨h, -⟩ | h
    · exact (h hrun).elim
    · exact h

theorem coInit_agreement : Agreement [] coInit where
  control := .own (by simp) rfl
  onlyCurrent := by
    intro a h
    by_contra hne
    have hne' : ¬ a = mainCo := hne
    simp [coInit, hne'] at h
  currentRuns := fun _ => .inl rfl
  unstarted := by simp
  parked := by
    intro a hlt _ hne
    exact (hne (Nat.lt_one_iff.1 hlt)).elim
  loops := by intro z a target pc h; simp [coInit] at h

theorem Agreement.quiet (inv : Agreement log m) (es : List Event)
    (hret : ∀ a, .funcReturn a ∉ es)
    (henter : ∀ a, .enter a ∉ es) (hsusp : ∀ a p, .suspended a p ∉ es) :
    Agreement (log ++ es) m := by
  have hmem : ∀ a, .funcReturn a ∈ log ++ es ↔ .funcReturn a ∈ log := by
    intro a; simp [hret]
  have hrun : ∀ a, HasRun a (log ++ es) ↔ HasRun a log := by
    intro a; simp [HasRun, henter]
  exact
    { control := by
        cases inv.control with
        | own alive owner => exact .own (by rwa [hmem]) owner
        | handedBack dead alive loop pending saved =>
            exact .handedBack ((hmem _).2 dead) (by rwa [hmem]) loop (by rwa [hmem]) saved
      onlyCurrent := inv.onlyCurrent
      currentRuns := by intro h; exact inv.currentRuns (by rwa [hmem] at h)
      unstarted := by intro a h; simp [henter, inv.unstarted h]
      parked := by
        intro a hlt hnot hne
        rw [hrun, lastSuspension_append_of_quiet hsusp]
        exact inv.parked hlt (by rwa [hmem] at hnot) hne
      loops := by
        intro z a target pc hz hnot
        rw [hmem] at hnot ⊢
        exact inv.loops hz hnot }

theorem Agreement.goto (inv : Agreement log m) (out : m.OutOfLoop log) (p : Point) :
    Agreement log (m.goto p) where
  control := .own (inv.own out).1 (inv.own out).2
  onlyCurrent := inv.onlyCurrent
  currentRuns := by
    intro h
    rcases inv.currentRuns h with h' | ⟨pc, h'⟩
    · exact .inl h'
    · exact (h (out _ _ h')).elim
  unstarted := inv.unstarted
  parked := inv.parked
  loops := by
    intro z a target pc hz hnot
    have hne := inv.loops_ne out hz hnot
    obtain ⟨hret, -, hctx⟩ := inv.loops hz hnot
    exact ⟨hret, fun h => (hne h).elim, hctx⟩

/-! ## A `co_yield` at the point at which the running coroutine is -/

/-- The running coroutine is unfinished, and its own context gets its continuation. -/
theorem Agreement.savedRunning (inv : Agreement log m) (next : Addr) (k : Cont) :
    .funcReturn m.running.owner ∉ log ∧
      ((m.yieldTo m.running.point next k).heap m.running.owner).context = some m.running := by
  rw [Machine.yieldTo_context]
  cases inv.control with
  | own alive owner => exact ⟨by rwa [owner], by rw [if_pos owner]⟩
  | handedBack _ alive _ _ saved =>
      refine ⟨alive, ?_⟩
      split
      next => rfl
      next => exact saved

/-- Afterwards every coroutine is parked: the one that ran at its new suspension, the
others where they were. -/
theorem Agreement.yieldTo_parked (inv : Agreement log m) (next : Addr) (k : Cont) {a : Addr}
    (hlt : a < m.brk) (hnot : .funcReturn a ∉ log) :
    ¬ HasRun a log ∧ ((m.yieldTo m.running.point next k).heap a).context =
        some ⟨a, .wrapperFunc⟩ ∨
      ∃ p, (if m.running.owner = a then some m.running.point else lastSuspension a log) =
          some p ∧
        ((m.yieldTo m.running.point next k).heap a).context = some ⟨a, p⟩ := by
  by_cases ha : m.running.owner = a
  · subst ha
    exact .inr ⟨_, by rw [if_pos rfl], (inv.savedRunning next k).2⟩
  · have hne : a ≠ m.current := by
      rintro rfl
      cases inv.control with
      | own _ owner => exact ha owner
      | handedBack dead _ _ _ _ => exact hnot dead
    rw [if_neg ha, Machine.yieldTo_context, if_neg hne]
    exact inv.parked hlt hnot hne

/-- Afterwards a loop that still has to wait is found in its coroutine's own context,
whatever context holds it. -/
theorem Agreement.yieldTo_loops (inv : Agreement log m) (next : Addr) (k : Cont)
    {z a target : Addr} {pc : Nat}
    (hz : ((m.yieldTo m.running.point next k).heap z).context = some ⟨a, .waitLoop target pc⟩)
    (hnot : .funcReturn target ∉ log) :
    .funcReturn a ∉ log ∧
      ((m.yieldTo m.running.point next k).heap a).context = some ⟨a, .waitLoop target pc⟩ := by
  rw [Machine.yieldTo_context] at hz
  split at hz
  next =>
    have hrun : m.running = ⟨a, .waitLoop target pc⟩ := Option.some.inj hz
    have ha : m.running.owner = a := by rw [hrun]
    have hsaved := inv.savedRunning next k
    rw [ha] at hsaved
    exact ⟨hsaved.1, by rw [hsaved.2, hrun]⟩
  next =>
    obtain ⟨hr, hcur, hctx⟩ := inv.loops hz hnot
    refine ⟨hr, ?_⟩
    rw [Machine.yieldTo_context]
    by_cases ha : a = m.current
    · rw [if_pos ha, hcur ha]
    · rw [if_neg ha, hctx ha]

/-- The continuation that a `co_yield` stores under `current` is the newest one of the
running coroutine, and its own context holds the same. -/
theorem Agreement.yielded (inv : Agreement log m) (stat : StatusOk log m)
    (alloc : Allocated m) (h : Yielded m m.running.point es m') : Agreement (log ++ es) m' := by
  have hret := h.funcReturn_not_mem
  have henter := h.enter_not_mem
  have hlast : ∀ co, lastSuspension co (log ++ es) =
      if m.running.owner = co then some m.running.point else lastSuspension co log :=
    lastSuspension_yielded h
  have hmem : ∀ a, .funcReturn a ∈ log ++ es ↔ .funcReturn a ∈ log := by
    intro a; simp [hret]
  have hrun : ∀ a, HasRun a (log ++ es) ↔ HasRun a log := by
    intro a; simp [HasRun, henter]
  obtain ⟨next, k, reads, ⟨i, -, hslot⟩, halive, hk, -, -, rfl, -⟩ := h
  have hnext : .funcReturn next ∉ log := by rwa [← stat.dead]
  have howner : k.owner = next := by
    rcases inv.yieldTo_parked next k (alloc.slot hslot) hnext with ⟨-, h⟩ | ⟨p, -, h⟩ <;>
      rw [Option.some.inj (hk.symm.trans h)]
  exact
    { control := .own (by rw [hmem]; exact hnext) howner
      onlyCurrent := by
        intro a ha
        by_contra hne
        have hne' : a ≠ next := hne
        rw [Machine.yieldTo_status, if_neg hne'] at ha
        split at ha
        · simp at ha
        next hc =>
          have hcur := inv.onlyCurrent ha
          exact hc ⟨hcur, by rw [ha]; simp⟩
      currentRuns := by
        intro _
        left
        rw [Machine.yieldTo_status]
        exact if_pos rfl
      unstarted := by
        intro a hle
        rw [Machine.yieldTo_brk] at hle
        simp [henter, inv.unstarted hle]
      parked := by
        intro a hlt hnot _
        rw [hmem] at hnot
        rw [hrun, hlast]
        exact inv.yieldTo_parked next k (by simpa using hlt) hnot
      loops := by
        intro z a target pc hz hnot
        rw [hmem] at hnot ⊢
        obtain ⟨hr, hctx⟩ := inv.yieldTo_loops next k hz hnot
        refine ⟨hr, ?_, fun _ => hctx⟩
        intro ha
        have ha' : a = next := ha
        subst ha'
        exact Option.some.inj (hk.symm.trans hctx) }

theorem Agreement.refreshed {co : Addr} {pc : Nat} (inv : Agreement log m)
    (out : m.OutOfLoop log) (h : Refreshed m co pc es m') : Agreement (log ++ es) m' := by
  obtain ⟨tmp, -, -, ⟨-, rfl, rfl⟩ | ⟨-, rfl, rfl⟩⟩ := h
  · have hgoto := inv.goto out (.refreshYield co pc)
    refine Agreement.quiet ?_ _ (by simp) (by simp) (by simp)
    exact
      { control := .own (inv.own out).1 (inv.own out).2
        onlyCurrent := hgoto.onlyCurrent
        currentRuns := hgoto.currentRuns
        unstarted := hgoto.unstarted
        parked := hgoto.parked
        loops := hgoto.loops }
  · exact (inv.goto out (.user pc)).quiet _ (by simp) (by simp) (by simp)

theorem Agreement.started (inv : Agreement log m) (alloc : Allocated m)
    (out : m.OutOfLoop log) (handle func arg : Nat) :
    Agreement log (m.started handle func arg) where
  control := .own (inv.own out).1 (inv.own out).2
  onlyCurrent := by
    intro a ha
    by_cases hco : a = m.brk
    · subst hco; simp at ha
    · rw [Machine.started_heap _ _ _ _ hco] at ha
      exact inv.onlyCurrent ha
  currentRuns := by
    intro h
    have hne : m.current ≠ m.brk := Nat.ne_of_lt alloc.current
    have hcur : (m.started handle func arg).current = m.current := rfl
    rw [hcur, Machine.started_heap _ _ _ _ hne]
    exact inv.currentRuns h
  unstarted := by intro a h; exact inv.unstarted (Nat.le_of_succ_le h)
  parked := by
    intro a hlt hnot hne
    by_cases hco : a = m.brk
    · subst hco
      refine .inl ⟨?_, by simp⟩
      rintro (h | h)
      · exact Nat.ne_of_lt alloc.main h.symm
      · exact inv.unstarted (Nat.le_refl _) h
    · rw [Machine.started_heap _ _ _ _ hco]
      exact inv.parked (Nat.lt_of_le_of_ne (Nat.lt_succ_iff.1 hlt) hco) hnot hne
  loops := by
    intro z a target pc hz hnot
    by_cases hz' : z = m.brk
    · subst hz'; simp at hz
    · rw [Machine.started_heap _ _ _ _ hz'] at hz
      obtain ⟨hr, hcur, hctx⟩ := inv.loops hz hnot
      refine ⟨hr, hcur, fun hne => ?_⟩
      have ha : a ≠ m.brk := by
        rintro rfl
        exact Nat.lt_irrefl _ (alloc.context hz)
      rw [Machine.started_heap _ _ _ _ ha]
      exact hctx hne

/-- Only `co_wait` on itself takes `CO_RUNNING` from the running coroutine. -/
theorem Agreement.waitAlive (inv : Agreement log m) (out : m.OutOfLoop log) (target : Addr)
    (pc : Nat) :
    Agreement log ((m.setStatus target .coWaiting).goto (.waitLoop target pc)) where
  control := .own (inv.own out).1 (inv.own out).2
  onlyCurrent := by
    intro a ha
    rw [Machine.goto_heap, Machine.setStatus_status] at ha
    split at ha
    · simp at ha
    · exact inv.onlyCurrent ha
  currentRuns := by
    intro h
    by_cases ht : m.current = target
    · subst ht
      exact .inr ⟨pc, rfl⟩
    · rcases inv.currentRuns h with h' | ⟨pc', h'⟩
      · exact .inl (by simpa [ht] using h')
      · exact (h (out _ _ h')).elim
  unstarted := inv.unstarted
  parked := by intro a hlt hnot hne; simpa using inv.parked hlt hnot hne
  loops := by
    intro z a t pc' hz hnot
    rw [Machine.goto_heap, Machine.setStatus_context] at hz
    have hne := inv.loops_ne out hz hnot
    obtain ⟨hr, -, hctx⟩ := inv.loops hz hnot
    exact ⟨hr, fun h => (hne h).elim, fun _ => by simpa using hctx hne⟩

/-- A function returns into a loop that has to go on waiting: that loop belongs to an
unfinished coroutine whose own context holds it too. -/
theorem Agreement.returned (inv : Agreement log m) (out : m.OutOfLoop log)
    {link target : Addr} {k : Cont} {pc : Nat} (hk : (m.heap link).context = some k)
    (loop : k.point = .waitLoop target pc) (other : target ≠ m.running.owner)
    (pending : .funcReturn target ∉ log) :
    Agreement (log ++ [.funcReturn m.running.owner])
      { m.setStatus m.running.owner .coDead with running := k } := by
  obtain ⟨-, owner⟩ := inv.own out
  obtain ⟨a, point⟩ := k
  subst loop
  rw [owner] at other ⊢
  have hsusp : ∀ co, lastSuspension co (log ++ [.funcReturn m.current]) =
      lastSuspension co log := fun co => lastSuspension_append_of_quiet (by simp)
  have hmem : ∀ {co}, co ≠ m.current →
      (.funcReturn co ∈ log ++ [.funcReturn m.current] ↔ .funcReturn co ∈ log) := by
    intro co hne; simp [hne]
  have hkeep : ∀ {z b t pc'}, (m.heap z).context = some ⟨b, .waitLoop t pc'⟩ →
      .funcReturn t ∉ log → b ≠ m.current ∧ .funcReturn b ∉ log ∧
        (m.heap b).context = some ⟨b, .waitLoop t pc'⟩ := by
    intro z b t pc' hz hnot
    have hne := inv.loops_ne out hz hnot
    obtain ⟨hr, -, hctx⟩ := inv.loops hz hnot
    exact ⟨hne, hr, hctx hne⟩
  obtain ⟨hne, hr, hctx⟩ := hkeep hk pending
  exact
    { control := .handedBack (by simp) (by rw [hmem hne]; exact hr)
        rfl (by rw [hmem other]; exact pending) (by simpa using hctx)
      onlyCurrent := by
        intro b hb
        by_cases hbc : b = m.current
        · exact hbc
        · exact inv.onlyCurrent (by simpa [hbc] using hb)
      currentRuns := fun h => (h (by simp)).elim
      unstarted := by intro b hle; simpa using inv.unstarted hle
      parked := by
        intro b hlt hnot hbc
        rw [hmem hbc] at hnot
        rw [hsusp]
        have hrun : HasRun b (log ++ [.funcReturn m.current]) ↔ HasRun b log := by
          simp [HasRun]
        rw [hrun]
        simpa using inv.parked hlt hnot hbc
      loops := by
        intro z b t pc' hz hnot
        have hnot' : .funcReturn t ∉ log := fun h => hnot (List.mem_append_left _ h)
        obtain ⟨hbc, hbr, hbctx⟩ := hkeep (z := z) (by simpa using hz) hnot'
        exact ⟨by rw [hmem hbc]; exact hbr, fun h => (hbc h).elim, fun _ => by simpa using hbctx⟩ }

theorem Agreement.enter (inv : Agreement log m) (alloc : Allocated m) (out : m.OutOfLoop log) :
    Agreement (log ++ [.enter m.running.owner]) m := by
  obtain ⟨alive, owner⟩ := inv.own out
  have hsusp : ∀ co, lastSuspension co (log ++ [.enter m.running.owner]) =
      lastSuspension co log := fun co => lastSuspension_append_of_quiet (by simp)
  have hmem : ∀ a, .funcReturn a ∈ log ++ [.enter m.running.owner] ↔ .funcReturn a ∈ log := by
    intro a; simp
  exact
    { control := .own (by rwa [hmem]) owner
      onlyCurrent := inv.onlyCurrent
      currentRuns := fun _ => inv.currentRuns alive
      unstarted := by
        intro a hle
        have hne : a ≠ m.running.owner := fun h => Nat.not_lt.2 hle (h ▸ alloc.running)
        simp [hne, inv.unstarted hle]
      parked := by
        intro a hlt hnot hne
        rw [hmem] at hnot
        rw [hsusp]
        have hrun : HasRun a (log ++ [.enter m.running.owner]) ↔ HasRun a log := by
          simp [HasRun, owner, hne]
        rw [hrun]
        exact inv.parked hlt hnot hne
      loops := by
        intro z a target pc hz hnot
        rw [hmem] at hnot ⊢
        exact inv.loops hz hnot }

/-! ## Steps -/

theorem Agreement.step (inv : Agreement log m) (stat : StatusOk log m) (alloc : Allocated m)
    (ok : ReturnsIntoLoop P log m) (h : StepCase P m es m') : Agreement (log ++ es) m' := by
  have outUser : ∀ {pc}, m.running.point = .user pc → m.OutOfLoop log :=
    fun at_ => Machine.outOfLoop_of_ne (by simp [at_])
  have exec : ∀ {pc}, m.running.point = .user pc →
      Agreement (log ++ [.exec m.running.owner pc]) (m.goto (.user (pc + 1))) ∧
        StatusOk (log ++ [.exec m.running.owner pc]) (m.goto (.user (pc + 1))) ∧
        (m.goto (.user (pc + 1))).OutOfLoop (log ++ [.exec m.running.owner pc]) := by
    intro pc at_
    refine ⟨(inv.goto (outUser at_) _).quiet _ (by simp) (by simp) (by simp), ?_, ?_⟩
    · exact stat.keep (by simp) (fun _ => Iff.rfl) (Nat.le_refl _) (stat.goto_past (by simp))
    · exact Machine.outOfLoop_of_ne (by simp)
  cases h with
  | localStep at_ => exact (exec at_).1
  | @start pc handle func arg at_ =>
      obtain ⟨hinv, -, hout⟩ := exec at_
      have hnew : Agreement (log ++ [.exec m.running.owner pc] ++
          [.started m.running.owner m.brk, .access .write m.brk])
          ((m.started handle func arg).goto (.user (pc + 1))) :=
        (hinv.started (alloc.goto _) hout handle func arg).quiet _
          (by simp) (by simp) (by simp)
      simpa using hnew
  | yield at_ _ spec =>
      obtain ⟨hinv, hstat, -⟩ := exec at_
      simpa using hinv.yielded hstat (alloc.goto _) (spec.of_goto _)
  | @waitAlive pc handle target at_ =>
      obtain ⟨hinv, -, hout⟩ := exec at_
      have hloop : Agreement (log ++ [.exec m.running.owner pc] ++
          [.waits m.running.owner target, .access .read target, .access .write target])
          ((m.setStatus target .coWaiting).goto (.waitLoop target (pc + 1))) :=
        (hinv.waitAlive hout target (pc + 1)).quiet _ (by simp) (by simp) (by simp)
      simpa using hloop
  | @waitDead pc handle target _ _ at_ _ _ _ spec =>
      obtain ⟨hinv, -, hout⟩ := exec at_
      have hcall := hinv.quiet [.waits m.running.owner target, .access .read target]
        (by simp) (by simp) (by simp)
      simpa using hcall.refreshed hout.append (spec.of_goto _)
  | @ret pc link k at_ op notMain hlink hk =>
      obtain ⟨target, pc', loop, other, pending⟩ := ok.at_return at_ op notMain hlink hk
      have hret := (inv.returned (outUser at_) hk loop other (by rwa [← stat.dead])).quiet
        [.access .write m.running.owner, .access .resume link] (by simp) (by simp)
        (by simp)
      simpa using hret
  | enter at_ =>
      have hout : m.OutOfLoop log := Machine.outOfLoop_of_ne (by simp [at_])
      have hread := inv.quiet [.access .read m.running.owner]
        (by simp) (by simp) (by simp)
      have henter := hread.enter alloc hout.append
      have hgo := henter.goto hout.append.append (.user 0)
      simpa using hgo
  | @loopYield target _ _ _ at_ _ spec =>
      have hread := inv.quiet [.access .read target] (by simp) (by simp) (by simp)
      rw [← at_] at spec
      simpa using hread.yielded (stat.quiet (by simp)) alloc spec
  | @loopExit target _ _ _ at_ dead spec =>
      have hout := Machine.outOfLoop_of_dead at_ ((stat.dead _).1 dead)
      have hread := inv.quiet [.access .read target] (by simp) (by simp) (by simp)
      simpa using hread.refreshed hout.append spec
  | @refreshYield target pc _ _ at_ spec =>
      have hout : m.OutOfLoop log := Machine.outOfLoop_of_ne (by simp [at_])
      have hpast : ∀ co, Point.PastWait co (.waitReturn target pc) → .funcReturn co ∈ log := by
        intro co hp
        refine stat.past (.inl rfl) ?_
        rw [at_]
        exact hp
      have hstat : StatusOk log (m.goto (.waitReturn target pc)) := stat.goto hpast
      exact (inv.goto hout (.waitReturn target pc)).yielded hstat (alloc.goto _)
        (spec.of_goto _)
  | @waitReturn _ pc at_ =>
      have hout : m.OutOfLoop log := Machine.outOfLoop_of_ne (by simp [at_])
      exact (inv.goto hout (.user pc)).quiet _ (by simp) (by simp) (by simp)

theorem run_agreement (run : Run (AgreementSafe P) (Step P) coInit log m) :
    (Allocated m ∧ StatusOk log m) ∧ Agreement log m := by
  refine run.invariant (fun log m => (Allocated m ∧ StatusOk log m) ∧ Agreement log m)
    ⟨⟨coInit_allocated, coInit_statusOk⟩, coInit_agreement⟩ ?_
  rintro log es m m' - ok ⟨⟨alloc, stat⟩, inv⟩ hstep
  exact ⟨⟨alloc.step (step_cases hstep), stat.step alloc (step_cases hstep)⟩,
    inv.step stat alloc ok.returnsIntoLoop (step_cases hstep)⟩

/-- Scheduler and control agree in every state of a run whose functions return into
loops that have to go on waiting and in which no call leaves `co_stack`. -/
theorem control_agreement (P : Program) {log : List Event} {m : Machine}
    (run : Run (AgreementSafe P) (Step P) coInit log m) : Agrees log m :=
  (run_agreement run).2.agrees (run_agreement run).1.1

/-- `main` starts two coroutines and waits for the one that computes longer. -/
def twoWorkers : Program where
  main := fun pc => [.coStart 0 0 0, .coStart 1 1 0, .coWait 0][pc]?
  func := fun func _ pc =>
    if func = 0 then [.coYield, .localStep][pc]? else [.localStep][pc]?

/-- The second coroutine returns into the loop of `main`, which gives way to the
first: its own code runs while `main` is suspended in the loop. -/
theorem control_agreement_twoWorkers :
    ∃ log m, Run (AgreementSafe twoWorkers) (Step twoWorkers) coInit log m ∧
      .funcReturn 2 ∈ log ∧ m.running = ⟨1, .user 1⟩ ∧ Agrees log m := by
  obtain ⟨log, m, run, hp⟩ := exists_run_of_replay (AgreementSafe twoWorkers)
    (Step twoWorkers) coInit (fun _ m => agreementSafe twoWorkers m) (fun _ _ h => h)
    (step_of_stepDone twoWorkers)
    [[], [], [], [1], [], [2], [], [], [], [1]]
    (fun log m => decide (.funcReturn 2 ∈ log ∧ m.running = ⟨1, .user 1⟩)) (by decide)
  obtain ⟨hret, hrun⟩ := of_decide_eq_true hp
  exact ⟨log, m, run, hret, hrun, control_agreement twoWorkers run⟩

/-- `main` yields to a coroutine whose function does nothing. -/
def yieldToEmpty : Program where
  main := fun pc => [.coStart 0 0 0, .coYield, .localStep][pc]?
  func := fun _ _ _ => none

/-- The function returns into the user code of `main`, and `current` stays behind. -/
theorem yieldToEmpty_disagrees :
    ∃ log m, Run anyStep (Step yieldToEmpty) coInit log m ∧ m.coStackCount < coStackSize ∧
      m.running = ⟨mainCo, .user 2⟩ ∧ m.current = 1 ∧ ¬ Agrees log m := by
  obtain ⟨log, m, run, hp⟩ := exists_run_of_replay anyStep
    (Step yieldToEmpty) coInit (fun _ _ => true) (fun _ _ _ => trivial)
    (step_of_stepDone yieldToEmpty) [[], [1], [], []]
    (fun _ m => decide (m.coStackCount < coStackSize ∧ m.running = ⟨mainCo, .user 2⟩ ∧
      m.current = 1)) (by decide)
  obtain ⟨hcount, hrun, hcur⟩ := of_decide_eq_true hp
  refine ⟨log, m, run, hcount, hrun, hcur, fun h => ?_⟩
  have := (h 2 (by rw [hrun])).1
  rw [hcur, hrun] at this
  exact absurd this (by decide)

end OSLabs.Libco
