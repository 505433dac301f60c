import OSLabs.Libco.Agreement

/-! # Lifetime of coroutine objects

A freed object is still reachable through `current`, through the stale slot behind
the last one and through the `uc_link` of the coroutines it started. None of these is
ever followed as long as functions return into loops that have to go on waiting, every
handle is waited for once, and a coroutine is reaped after those it started.
-/

namespace OSLabs.Libco

open Lib

variable {P : Program} {m m' : Machine} {ret : Point} {log es : List Event}

/-- The event reads, writes, saves to, resumes or frees `a`. -/
def Event.Touches (a : Addr) : Event → Prop
  | .access _ co => co = a
  | .freed co => co = a
  | _ => False

/-- No event touches an object that an earlier one has freed. -/
def NoUseAfterFree (log : List Event) : Prop :=
  log.Pairwise fun e e' => ∀ a, e = .freed a → ¬ e'.Touches a

/-- Events that neither end, start, await nor free a coroutine. -/
def Event.Inert : Event → Prop
  | .funcReturn _ => False
  | .started _ _ => False
  | .waits _ _ => False
  | .freed _ => False
  | _ => True

theorem Event.quiet.inert {e : Event} (h : e.quiet) : e.Inert := by
  cases e <;> trivial

theorem mem_append_of_inert (h : ∀ e ∈ es, e.Inert) {e : Event} (he : ¬ e.Inert) :
    e ∈ log ++ es ↔ e ∈ log := by
  rw [List.mem_append]
  exact ⟨fun hmem => hmem.elim id fun hes => (he (h e hes)).elim, .inl⟩

theorem startedCos_append_of_inert (h : ∀ e ∈ es, e.Inert) :
    startedCos (log ++ es) = startedCos log := by
  have hnil : startedCos es = [] := startedCos_eq_nil fun a co hmem => h _ hmem
  rw [startedCos_append, hnil, List.append_nil]

theorem mem_startedCos {creator co : Addr} (h : .started creator co ∈ log) :
    co ∈ startedCos log :=
  List.mem_filterMap.2 ⟨_, h, rfl⟩

/-! ## Logs without use after free -/

theorem noUseAfterFree_of_no_freed (h : ∀ a, .freed a ∉ es) : NoUseAfterFree es := by
  apply List.pairwise_of_forall_mem_list
  intro e he e' _ a hfree
  subst hfree
  exact (h a he).elim

theorem NoUseAfterFree.append (hlog : NoUseAfterFree log) (hes : NoUseAfterFree es)
    (safe : ∀ e ∈ es, ∀ a, e.Touches a → .freed a ∉ log) : NoUseAfterFree (log ++ es) := by
  apply List.pairwise_append.2
  refine ⟨hlog, hes, ?_⟩
  intro e he e' he' a hfree htouch
  subst hfree
  exact safe e' he' a htouch he

/-- A `co_yield` touches the coroutine that makes it and registered ones. -/
theorem Yielded.touches (h : Yielded m ret es m') {e : Event} (he : e ∈ es) {a : Addr}
    (ha : e.Touches a) :
    a = m.current ∨ ∃ i < m.coStackCount, m.coStack i = some a := by
  rcases h with ⟨next, k, reads, ⟨i, hi, hslot⟩, -, -, -, hreads, -, rfl⟩
  simp only [List.nil_append, List.cons_append, List.mem_cons, List.mem_append,
    List.not_mem_nil, or_false] at he
  rcases he with rfl | rfl | rfl | he | rfl | rfl | rfl
  · exact ha.elim
  · exact .inl ha.symm
  · exact .inl ha.symm
  · rcases hreads e he with rfl | ⟨j, b, hj, hb, rfl⟩
    · exact ha.elim
    · have hab : b = a := ha
      subst hab
      exact .inr ⟨j, hj, hb⟩
  · have hab : next = a := ha
    subst hab
    exact .inr ⟨i, hi, hslot⟩
  · exact .inl ha.symm
  · have hab : next = a := ha
    subst hab
    exact .inr ⟨i, hi, hslot⟩

theorem Yielded.inert (h : Yielded m ret es m') : ∀ e ∈ es, e.Inert := by
  rcases h.events with ⟨quiet, rfl, hquiet⟩
  intro e he
  rcases List.mem_cons.1 he with rfl | he
  · trivial
  · exact (hquiet e he).inert

/-! ## When objects are reaped safely -/

/-- If the next step calls `co_wait`, the handle has not been waited for before. -/
def waitsOnce (P : Program) (log : List Event) (m : Machine) : Bool :=
  match m.running.point with
  | .user pc =>
    match bodyOf P m m.running.owner pc with
    | some (.coWait handle) =>
      match m.handles handle with
      | some target => log.all fun
          | .waits _ co => co ≠ target
          | _ => true
      | none => true
    | _ => true
  | _ => true

def WaitsOnce (P : Program) (log : List Event) (m : Machine) : Prop :=
  waitsOnce P log m = true

/-- The coroutines that `co` has started have returned. -/
def childless (log : List Event) (co : Addr) : Bool :=
  log.all fun
    | .started creator child => creator = co → .funcReturn child ∈ log
    | _ => true

/-- Functions return into loops that have to go on waiting, no call leaves `co_stack`,
handles are waited for once, and a coroutine is reaped after those it has started
have returned. -/
def lifetimeSafe (P : Program) (log : List Event) (m : Machine) : Bool :=
  agreementSafe P m && waitsOnce P log m && (reaps P m).all (childless log)

def LifetimeSafe (P : Program) (log : List Event) (m : Machine) : Prop :=
  lifetimeSafe P log m = true

theorem LifetimeSafe.agreementSafe (ok : LifetimeSafe P log m) : AgreementSafe P log m :=
  (Bool.and_eq_true_iff.1 (Bool.and_eq_true_iff.1 ok).1).1

theorem LifetimeSafe.at_wait (ok : LifetimeSafe P log m) {pc handle : Nat} {target : Addr}
    (at_ : m.running.point = .user pc)
    (op : bodyOf P m m.running.owner pc = some (.coWait handle))
    (var : m.handles handle = some target) (caller : Addr) : .waits caller target ∉ log := by
  have h := (Bool.and_eq_true_iff.1 (Bool.and_eq_true_iff.1 ok).1).2
  unfold waitsOnce at h
  simp only [at_, op, var, List.all_eq_true] at h
  intro hmem
  exact absurd (h _ hmem) (by simp)

theorem LifetimeSafe.childless (ok : LifetimeSafe P log m) {target : Addr}
    (h : reaps P m = some target) {co : Addr} (hmem : .started target co ∈ log) :
    .funcReturn co ∈ log := by
  have hall := (Bool.and_eq_true_iff.1 ok).2
  rw [h, Option.all_some] at hall
  unfold Libco.childless at hall
  have := List.all_eq_true.1 hall _ hmem
  simpa using this

/-! ## The invariant -/

/-- No reference that may still be followed leads to a freed object: `current`, the
loops of unfinished coroutines, the variables that were not waited for, and the
`uc_link` of unfinished coroutines. -/
structure Lifetime (log : List Event) (m : Machine) : Prop where
  noUse : NoUseAfterFree log
  current : .freed m.current ∉ log
  waited : ∀ {a}, .freed a ∈ log → ∃ caller, .waits caller a ∈ log
  once : ∀ {a b target}, .waits a target ∈ log → .waits b target ∈ log → a = b
  known : ∀ {a target}, .waits a target ∈ log → target ∈ startedCos log
  handle : ∀ {v a}, m.handles v = some a → a ∈ startedCos log
  running : ∀ {target pc}, m.running.point = .waitLoop target pc →
    .waits m.running.owner target ∈ log ∧ .freed target ∉ log
  parked : ∀ {a target pc}, a < m.brk → .funcReturn a ∉ log → a ≠ m.current →
    (m.heap a).context = some ⟨a, .waitLoop target pc⟩ →
    .waits a target ∈ log ∧ .freed target ∉ log
  link : ∀ {creator co}, .started creator co ∈ log → .funcReturn co ∉ log →
    (m.heap co).ucLink = some creator ∧ .freed creator ∉ log
  creator : ∀ {co}, mainCo < co → co < m.brk → ∃ creator, .started creator co ∈ log

theorem coInit_lifetime : Lifetime [] coInit where
  noUse := .nil
  current := by simp
  waited := by simp
  once := by simp
  known := by simp
  handle := by intro v a h; simp [coInit] at h
  running := by intro target pc h; simp [coInit] at h
  parked := by intro a target pc _ _ _ h; simp [coInit] at h
  link := by simp
  creator := by
    intro co hpos hlt
    exact absurd hpos (Nat.not_lt.2 (Nat.lt_succ_iff.1 hlt))

theorem Lifetime.quiet (inv : Lifetime log m) (es : List Event) (hes : ∀ e ∈ es, e.Inert)
    (safe : ∀ e ∈ es, ∀ a, e.Touches a → .freed a ∉ log) : Lifetime (log ++ es) m := by
  have hfreed : ∀ a, .freed a ∈ log ++ es ↔ .freed a ∈ log :=
    fun a => mem_append_of_inert hes id
  have hwaits : ∀ a b, .waits a b ∈ log ++ es ↔ .waits a b ∈ log :=
    fun a b => mem_append_of_inert hes id
  have hstart : ∀ a b, .started a b ∈ log ++ es ↔ .started a b ∈ log :=
    fun a b => mem_append_of_inert hes id
  have hret : ∀ a, .funcReturn a ∈ log ++ es ↔ .funcReturn a ∈ log :=
    fun a => mem_append_of_inert hes id
  have hcos : startedCos (log ++ es) = startedCos log := startedCos_append_of_inert hes
  have hnone : ∀ a, .freed a ∉ es := fun a h => hes _ h
  exact
    { noUse := inv.noUse.append (noUseAfterFree_of_no_freed hnone) safe
      current := by rw [hfreed]; exact inv.current
      waited := by
        intro a h
        rw [hfreed] at h
        rcases inv.waited h with ⟨caller, h⟩
        exact ⟨caller, (hwaits _ _).2 h⟩
      once := by
        intro a b target ha hb
        rw [hwaits] at ha hb
        exact inv.once ha hb
      known := by
        intro a target h
        rw [hwaits] at h
        rw [hcos]
        exact inv.known h
      handle := by rw [hcos]; exact inv.handle
      running := by
        intro target pc h
        rw [hwaits, hfreed]
        exact inv.running h
      parked := by
        intro a target pc hlt hnot hne h
        rw [hret] at hnot
        rw [hwaits, hfreed]
        exact inv.parked hlt hnot hne h
      link := by
        intro creator co h hnot
        rw [hstart] at h
        rw [hret] at hnot
        rw [hfreed]
        exact inv.link h hnot
      creator := by
        intro co hpos hlt
        rcases inv.creator hpos hlt with ⟨creator, h⟩
        exact ⟨creator, (hstart _ _).2 h⟩ }

theorem Lifetime.goto (inv : Lifetime log m) {p : Point}
    (hp : ∀ target pc, p = .waitLoop target pc →
      .waits m.running.owner target ∈ log ∧ .freed target ∉ log) :
    Lifetime log (m.goto p) where
  noUse := inv.noUse
  current := inv.current
  waited := inv.waited
  once := inv.once
  known := inv.known
  handle := inv.handle
  running := fun h => hp _ _ h
  parked := inv.parked
  link := inv.link
  creator := inv.creator

theorem Lifetime.setStatus (inv : Lifetime log m) (co : Addr) (s : CoState) :
    Lifetime log (m.setStatus co s) where
  noUse := inv.noUse
  current := inv.current
  waited := inv.waited
  once := inv.once
  known := inv.known
  handle := inv.handle
  running := inv.running
  parked := by
    intro a target pc hlt hnot hne h
    rw [Machine.setStatus_context] at h
    exact inv.parked hlt hnot hne h
  link := by
    intro creator co' h hnot
    rw [Machine.setStatus_ucLink]
    exact inv.link h hnot
  creator := inv.creator

/-- A handle that nobody has waited for is passed to `co_wait`. -/
theorem Lifetime.waits (inv : Lifetime log m) {target : Addr}
    (fresh : ∀ caller, .waits caller target ∉ log) (hstart : target ∈ startedCos log)
    (caller : Addr) : Lifetime (log ++ [.waits caller target]) m := by
  have hwaits : ∀ a b, .waits a b ∈ log ++ [.waits caller target] ↔
      .waits a b ∈ log ∨ a = caller ∧ b = target := by
    intro a b; simp
  have hcos : startedCos (log ++ [.waits caller target]) = startedCos log := by
    rw [startedCos_append]; simp [startedCos]
  have hfreed : ∀ a, .freed a ∈ log ++ [.waits caller target] ↔ .freed a ∈ log := by
    intro a; simp
  exact
    { noUse := inv.noUse.append (noUseAfterFree_of_no_freed (by simp))
        (by simp [Event.Touches])
      current := by rw [hfreed]; exact inv.current
      waited := by
        intro a h
        rw [hfreed] at h
        rcases inv.waited h with ⟨b, h⟩
        exact ⟨b, (hwaits _ _).2 (.inl h)⟩
      once := by
        intro a b t ha hb
        rw [hwaits] at ha hb
        rcases ha with ha | ⟨rfl, rfl⟩ <;> rcases hb with hb | ⟨rfl, hbt⟩
        · exact inv.once ha hb
        · subst hbt; exact (fresh _ ha).elim
        · exact (fresh _ hb).elim
        · rfl
      known := by
        intro a t h
        rw [hwaits] at h
        rw [hcos]
        rcases h with h | ⟨_, rfl⟩
        · exact inv.known h
        · exact hstart
      handle := by rw [hcos]; exact inv.handle
      running := by
        intro t pc h
        rw [hwaits, hfreed]
        exact ⟨.inl (inv.running h).1, (inv.running h).2⟩
      parked := by
        intro a t pc hlt hnot hne h
        rw [hwaits, hfreed]
        have hpark := inv.parked hlt (by simpa using hnot) hne h
        exact ⟨.inl hpark.1, hpark.2⟩
      link := by
        intro creator co h hnot
        rw [hfreed]
        exact inv.link (by simpa using h) (by simpa using hnot)
      creator := by
        intro co hpos hlt
        rcases inv.creator hpos hlt with ⟨creator, h⟩
        exact ⟨creator, List.mem_append_left _ h⟩ }

theorem Lifetime.started (inv : Lifetime log m) (reg : Registry log m)
    (handle func arg : Nat) :
    Lifetime (log ++ [.started m.current m.brk]) (m.started handle func arg) := by
  have hcos : startedCos (log ++ [.started m.current m.brk]) = startedCos log ++ [m.brk] := by
    rw [startedCos_append]; rfl
  have hfreed : ∀ a, .freed a ∈ log ++ [.started m.current m.brk] ↔ .freed a ∈ log := by
    intro a; simp
  have hwaits : ∀ a b, .waits a b ∈ log ++ [.started m.current m.brk] ↔
      .waits a b ∈ log := by
    intro a b; simp
  have hret : ∀ a, .funcReturn a ∈ log ++ [.started m.current m.brk] ↔
      .funcReturn a ∈ log := by
    intro a; simp
  exact
    { noUse := inv.noUse.append (noUseAfterFree_of_no_freed (by simp))
        (by simp [Event.Touches])
      current := by rw [hfreed]; exact inv.current
      waited := by
        intro a h
        rw [hfreed] at h
        rcases inv.waited h with ⟨caller, h⟩
        exact ⟨caller, List.mem_append_left _ h⟩
      once := by
        intro a b t ha hb
        rw [hwaits] at ha hb
        exact inv.once ha hb
      known := by
        intro a t h
        rw [hwaits] at h
        rw [hcos]
        exact List.mem_append_left _ (inv.known h)
      handle := by
        intro v a h
        rw [hcos]
        by_cases hv : v = handle
        · subst hv
          simp only [Machine.started, Function.update_self, Option.some.injEq] at h
          subst h
          exact List.mem_append_right _ (by simp)
        · simp only [Machine.started, Function.update_of_ne hv] at h
          exact List.mem_append_left _ (inv.handle h)
      running := by
        intro t pc h
        rw [hwaits, hfreed]
        exact inv.running h
      parked := by
        intro a t pc hlt hnot hne h
        rw [hret] at hnot
        rw [hwaits, hfreed]
        by_cases ha : a = m.brk
        · subst ha; simp at h
        · rw [Machine.started_heap _ _ _ _ ha] at h
          exact inv.parked (Nat.lt_of_le_of_ne (Nat.lt_succ_iff.1 hlt) ha) hnot hne h
      link := by
        intro creator co h hnot
        rw [hret] at hnot
        rw [hfreed]
        rcases List.mem_append.1 h with h | h
        · have hco : co ≠ m.brk := Nat.ne_of_lt (reg.low (mem_startedCos h)).2
          rw [Machine.started_heap _ _ _ _ hco]
          exact inv.link h hnot
        · simp only [List.mem_cons, Event.started.injEq, List.not_mem_nil, or_false] at h
          rcases h with ⟨rfl, rfl⟩
          exact ⟨by simp, inv.current⟩
      creator := by
        intro co hpos hlt
        by_cases hco : co = m.brk
        · subst hco
          exact ⟨m.current, List.mem_append_right _ (by simp)⟩
        · have hlt' : co < m.brk := Nat.lt_of_le_of_ne (Nat.lt_succ_iff.1 hlt) hco
          rcases inv.creator hpos hlt' with ⟨creator, h⟩
          exact ⟨creator, List.mem_append_left _ h⟩ }

/-! ## Library calls -/

theorem Registry.not_freed (reg : Registry log m) {i : Nat} {a : Addr}
    (stat : StatusOk log m) (hi : i < m.coStackCount) (hslot : m.coStack i = some a) :
    .freed a ∉ log := by
  have hmem : a ∈ registered log := reg.mem_iff.1 ⟨i, hi, hslot⟩
  rcases List.mem_cons.1 hmem with rfl | hmem
  · intro h
    exact stat.main (reg.reaped h)
  · simpa using (List.mem_filter.1 hmem).2

theorem Registry.found (reg : Registry log m) {co : Addr} (hstart : co ∈ startedCos log)
    (hfree : .freed co ∉ log) : some co ∈ slots m.coStack m.coStackCount := by
  rw [reg.table]
  apply List.mem_map_of_mem
  apply List.mem_cons_of_mem
  simp [hstart, hfree]

/-- After the running coroutine has stored its continuation, a coroutine parked in a
`co_wait` loop is one that waits for an object which is not freed. -/
theorem Lifetime.yieldTo_parked (inv : Lifetime log m) (next : Addr) (k : Cont)
    {a target : Addr} {pc : Nat} (hlt : a < m.brk) (hnot : .funcReturn a ∉ log)
    (hctx : ((m.yieldTo m.running.point next k).heap a).context =
      some ⟨a, .waitLoop target pc⟩) :
    .waits a target ∈ log ∧ .freed target ∉ log := by
  rw [Machine.yieldTo_context] at hctx
  by_cases ha : a = m.current
  · rw [if_pos ha] at hctx
    have hrun : m.running = ⟨a, .waitLoop target pc⟩ := Option.some.inj hctx
    have hpoint : m.running.point = .waitLoop target pc := by rw [hrun]
    have hloop := inv.running hpoint
    rwa [hrun] at hloop
  · rw [if_neg ha] at hctx
    exact inv.parked hlt hnot ha hctx

/-- The context of the unfinished coroutine that is resumed is its own continuation. -/
theorem Agreement.resumed_owner (agree : Agreement log m) {next : Addr} {k : Cont}
    (hlt : next < m.brk) (hnext : .funcReturn next ∉ log)
    (hk : ((m.yieldTo m.running.point next k).heap next).context = some k) :
    k.owner = next := by
  rcases agree.yieldTo_parked next k hlt hnext with ⟨-, h⟩ | ⟨p, -, h⟩
  · rw [Option.some.inj (hk.symm.trans h)]
  · rw [Option.some.inj (hk.symm.trans h)]

theorem Lifetime.yielded (inv : Lifetime log m) (agree : Agreement log m)
    (reg : Registry log m) (stat : StatusOk log m) (alloc : Allocated m)
    (h : Yielded m m.running.point es m') : Lifetime (log ++ es) m' := by
  have hslotFree : ∀ {i a}, i < m.coStackCount → m.coStack i = some a → .freed a ∉ log :=
    fun hi hslot => reg.not_freed stat hi hslot
  have safe : ∀ e ∈ es, ∀ a, e.Touches a → .freed a ∉ log := by
    intro e he a ha
    rcases h.touches he ha with rfl | ⟨i, hi, hslot⟩
    · exact inv.current
    · exact hslotFree hi hslot
  suffices hm' : Lifetime log m' from hm'.quiet es h.inert safe
  rcases h with ⟨next, k, reads, ⟨i, hi, hslot⟩, halive, hk, -, -, rfl, -⟩
  have hnext : .funcReturn next ∉ log := by rwa [← stat.dead]
  exact
    { noUse := inv.noUse
      current := hslotFree hi hslot
      waited := inv.waited
      once := inv.once
      known := inv.known
      handle := by intro v a h; exact inv.handle (by simpa using h)
      running := by
        intro target pc hloop
        have hloop' : k.point = .waitLoop target pc := hloop
        have howner := agree.resumed_owner (alloc.slot hslot) hnext hk
        have hown : k = ⟨next, .waitLoop target pc⟩ := by rw [← howner, ← hloop']
        have hres := inv.yieldTo_parked next k (alloc.slot hslot) hnext (hk.trans (by rw [← hown]))
        change .waits k.owner target ∈ log ∧ _
        rwa [howner]
      parked := by
        intro a target pc hlt hnot _ hctx
        exact inv.yieldTo_parked next k (by simpa using hlt) hnot hctx
      link := by
        intro creator co h hnot
        rw [Machine.yieldTo_ucLink]
        exact inv.link h hnot
      creator := by
        intro co hpos hlt
        exact inv.creator hpos (by simpa using hlt) }

theorem Lifetime.freed {co : Addr} (inv : Lifetime log m)
    (owner : m.running.owner = m.current) (hcur : co ≠ m.current)
    (waits : .waits m.running.owner co ∈ log) (hfree : .freed co ∉ log)
    (childless : ∀ child, .started co child ∈ log → .funcReturn child ∈ log)
    (out : ∀ target pc, m.running.point ≠ .waitLoop target pc) :
    Lifetime (log ++ [.access .read co, .freed co]) m := by
  have hfreed : ∀ a, .freed a ∈ log ++ [.access .read co, .freed co] ↔
      .freed a ∈ log ∨ a = co := by
    intro a; simp
  have hwaits : ∀ a b, .waits a b ∈ log ++ [.access .read co, .freed co] ↔
      .waits a b ∈ log := by
    intro a b; simp
  have hcos : startedCos (log ++ [.access .read co, .freed co]) = startedCos log := by
    rw [startedCos_append]; simp [startedCos]
  exact
    { noUse := by
        apply inv.noUse.append
        · simp [NoUseAfterFree]
        · intro e he a ha
          simp only [List.mem_cons, List.not_mem_nil, or_false] at he
          rcases he with rfl | rfl
          · exact (show co = a from ha) ▸ hfree
          · exact (show co = a from ha) ▸ hfree
      current := by
        rw [hfreed]
        intro h
        rcases h with h | h
        · exact inv.current h
        · exact hcur h.symm
      waited := by
        intro a h
        rw [hfreed] at h
        rcases h with h | rfl
        · rcases inv.waited h with ⟨caller, h⟩
          exact ⟨caller, List.mem_append_left _ h⟩
        · exact ⟨_, List.mem_append_left _ waits⟩
      once := by
        intro a b t ha hb
        rw [hwaits] at ha hb
        exact inv.once ha hb
      known := by
        intro a t h
        rw [hwaits] at h
        rw [hcos]
        exact inv.known h
      handle := by rw [hcos]; exact inv.handle
      running := by
        intro t pc h
        exact (out t pc h).elim
      parked := by
        intro a t pc hlt hnot hne h
        have hpark := inv.parked hlt (by simpa using hnot) hne h
        rw [hwaits, hfreed]
        refine ⟨hpark.1, ?_⟩
        intro h
        rcases h with h | rfl
        · exact hpark.2 h
        · -- only one coroutine waits for `co`, and that one runs
          exact hne ((inv.once hpark.1 waits).trans owner)
      link := by
        intro creator child h hnot
        have h' : .started creator child ∈ log := by simpa using h
        have hnot' : .funcReturn child ∉ log := by simpa using hnot
        rw [hfreed]
        refine ⟨(inv.link h' hnot').1, ?_⟩
        intro hf
        rcases hf with hf | rfl
        · exact (inv.link h' hnot').2 hf
        · exact hnot' (childless _ h')
      creator := by
        intro child hpos hlt
        rcases inv.creator hpos hlt with ⟨creator, h⟩
        exact ⟨creator, List.mem_append_left _ h⟩ }

theorem Lifetime.dropSlot (inv : Lifetime log m) (i : Nat) : Lifetime log (m.dropSlot i) where
  noUse := inv.noUse
  current := inv.current
  waited := inv.waited
  once := inv.once
  known := inv.known
  handle := inv.handle
  running := inv.running
  parked := inv.parked
  link := inv.link
  creator := inv.creator

/-- `refresh_co_stack` of the coroutine that the running one has waited for. -/
theorem Lifetime.refreshed {co : Addr} {pc : Nat} (inv : Lifetime log m)
    (agree : Agreement log m) (reg : Registry log m) (stat : StatusOk log m)
    (out : m.OutOfLoop log) (dead : (m.heap co).status = .coDead)
    (waits : .waits m.running.owner co ∈ log) (hfree : .freed co ∉ log)
    (childless : ∀ child, .started co child ∈ log → .funcReturn child ∈ log)
    (h : Refreshed m co pc es m') : Lifetime (log ++ es) m' := by
  have found := findSlot_of_mem (reg.found (inv.known waits) hfree)
  have hret : .funcReturn co ∈ log := (stat.dead co).1 dead
  rcases agree.own out with ⟨alive, owner⟩
  have hcur : co ≠ m.current := by
    rintro rfl
    exact alive hret
  rcases h with ⟨tmp, -, hslot, hcase⟩
  have htmp : tmp = co := Option.some.inj (hslot.symm.trans found.2)
  subst htmp
  rcases hcase with ⟨-, rfl, rfl⟩ | ⟨halive, -, -⟩
  · have hgo : Lifetime log (m.goto (.refreshYield tmp pc)) := inv.goto (by simp)
    exact (hgo.freed owner hcur waits hfree childless (by simp)).dropSlot _
  · exact (halive dead).elim

theorem Lifetime.returned (inv : Lifetime log m) (agree : Agreement log m)
    (alloc : Allocated m) (out : m.OutOfLoop log) {link target : Addr}
    {k : Cont} {pc : Nat} (notMain : m.running.owner ≠ mainCo)
    (hlink : (m.heap m.running.owner).ucLink = some link)
    (hk : (m.heap link).context = some k) (loop : k.point = .waitLoop target pc)
    (pending : .funcReturn target ∉ log) :
    Lifetime (log ++ [.funcReturn m.running.owner, .access .write m.running.owner,
      .access .resume link]) { m.setStatus m.running.owner .coDead with running := k } := by
  rcases agree.own out with ⟨alive, owner⟩
  have hpos : mainCo < m.running.owner := Nat.pos_of_ne_zero notMain
  rcases inv.creator hpos alloc.running with ⟨creator, hstart⟩
  rcases inv.link hstart (by rwa [owner]) with ⟨hlink', hcreator⟩
  have hlinkFree : .freed link ∉ log := by
    rwa [Option.some.inj (hlink.symm.trans hlink')]
  -- the loop is the own one of a coroutine that is suspended in it
  have hk' : k = ⟨k.owner, .waitLoop target pc⟩ := by rw [← loop]
  rw [hk'] at hk
  have hne := agree.loops_ne out hk pending
  rcases agree.loops hk pending with ⟨hunfinished, -, hctx⟩
  have hloop := inv.parked (alloc.context hk) hunfinished hne (hctx hne)
  have safe : ∀ e ∈ [Event.funcReturn m.running.owner, .access .write m.running.owner,
      .access .resume link], ∀ a, e.Touches a → .freed a ∉ log := by
    intro e he a ha
    simp only [List.mem_cons, List.not_mem_nil, or_false] at he
    rcases he with rfl | rfl | rfl
    · exact ha.elim
    · have hown : m.running.owner = a := ha
      rw [← hown, owner]
      exact inv.current
    · exact (show link = a from ha) ▸ hlinkFree
  exact
    { noUse := inv.noUse.append (noUseAfterFree_of_no_freed (by simp)) safe
      current := by simpa using inv.current
      waited := by
        intro a h
        rcases inv.waited (a := a) (by simpa using h) with ⟨caller, h⟩
        exact ⟨caller, List.mem_append_left _ h⟩
      once := by
        intro a b t ha hb
        exact inv.once (by simpa using ha) (by simpa using hb)
      known := by
        intro a t h
        rw [startedCos_append]
        exact List.mem_append_left _ (inv.known (a := a) (by simpa using h))
      handle := by
        intro v a h
        rw [startedCos_append]
        exact List.mem_append_left _ (inv.handle h)
      running := by
        intro t pc' h
        have h' : k.point = .waitLoop t pc' := h
        rw [loop] at h'
        simp only [Point.waitLoop.injEq] at h'
        rcases h' with ⟨rfl, rfl⟩
        simpa using hloop
      parked := by
        intro a t pc' hlt hnot hne' h
        rw [Machine.setStatus_context] at h
        simpa using inv.parked hlt (fun hr => hnot (List.mem_append_left _ hr)) hne' h
      link := by
        intro creator child h hnot
        rw [Machine.setStatus_ucLink]
        have h' : .started creator child ∈ log := by simpa using h
        simpa using inv.link h' (fun hr => hnot (List.mem_append_left _ hr))
      creator := by
        intro child hpos hlt
        rcases inv.creator hpos hlt with ⟨creator, h⟩
        exact ⟨creator, List.mem_append_left _ h⟩ }

/-! ## Steps -/

/-- The next step of a safe run reaps, if at all, a coroutine that is registered. -/
theorem Lifetime.reapSafe (inv : Lifetime log m) (reg : Registry log m)
    (ok : LifetimeSafe P log m) : reapSafe P m = true := by
  have found : ∀ {co}, co ∈ startedCos log → .freed co ∉ log → searchSafe m co = true := by
    intro co hstart hfree
    unfold searchSafe
    rw [Bool.or_eq_true_iff]
    exact .inl (decide_eq_true (reg.found hstart hfree))
  unfold Libco.reapSafe
  cases hreap : reaps P m with
  | none => rfl
  | some target =>
      rw [Option.all_some]
      unfold reaps at hreap
      split at hreap
      next pc at_ =>
        split at hreap
        next handle op =>
          have var : m.handles handle = some target := (Option.filter_eq_some_iff.1 hreap).1
          refine found (inv.handle var) ?_
          intro hfree
          rcases inv.waited hfree with ⟨caller, h⟩
          exact ok.at_wait at_ op var caller h
        next => simp at hreap
      next co pc at_ =>
        split at hreap
        next dead =>
          have hco : co = target := Option.some.inj hreap
          subst hco
          exact found (inv.known (inv.running at_).1) (inv.running at_).2
        next => simp at hreap
      next => simp at hreap

/-- The invariants that a step of a safe run relies on. -/
structure Sound (log : List Event) (m : Machine) : Prop where
  alloc : Allocated m
  stat : StatusOk log m
  agree : Agreement log m
  reg : Registry log m
  life : Lifetime log m

theorem Sound.not_freed (inv : Sound log m) {a : Addr} (alive : (m.heap a).status ≠ .coDead) :
    .freed a ∉ log :=
  fun h => alive ((inv.stat.dead _).2 (inv.reg.reaped h))

theorem Sound.quiet (inv : Sound log m) (es : List Event) (hes : ∀ e ∈ es, e.Inert)
    (safe : ∀ e ∈ es, ∀ a, e.Touches a → .freed a ∉ log) (henter : ∀ a, .enter a ∉ es)
    (hsusp : ∀ a p, .suspended a p ∉ es) : Sound (log ++ es) m where
  alloc := inv.alloc
  stat := inv.stat.quiet fun _ h => hes _ h
  agree := inv.agree.quiet es (fun _ h => hes _ h) henter hsusp
  reg := inv.reg.quiet es (fun _ _ h => hes _ h) (fun _ h => hes _ h)
  life := inv.life.quiet es hes safe

theorem Sound.goto (inv : Sound log m) (out : m.OutOfLoop log) {p : Point}
    (hloop : ∀ target pc, p ≠ .waitLoop target pc)
    (hpast : ∀ co, p.PastWait co → .funcReturn co ∈ log) : Sound log (m.goto p) where
  alloc := inv.alloc.goto p
  stat := inv.stat.goto hpast
  agree := inv.agree.goto out p
  reg :=
    { table := inv.reg.table
      room := inv.reg.room
      low := inv.reg.low
      distinct := inv.reg.distinct
      reaped := inv.reg.reaped }
  life := inv.life.goto fun target pc h => (hloop target pc h).elim

theorem Sound.yielded (inv : Sound log m) (h : Yielded m m.running.point es m') :
    Lifetime (log ++ es) m' :=
  inv.life.yielded inv.agree inv.reg inv.stat inv.alloc h

theorem Sound.waits (inv : Sound log m) {target : Addr}
    (fresh : ∀ caller, .waits caller target ∉ log) (hstart : target ∈ startedCos log)
    (caller : Addr) : Sound (log ++ [.waits caller target]) m where
  alloc := inv.alloc
  stat := inv.stat.quiet (by simp)
  agree := inv.agree.quiet _ (by simp) (by simp) (by simp)
  reg := inv.reg.quiet _ (by simp) (by simp)
  life := inv.life.waits fresh hstart caller

theorem Sound.refreshed {co : Addr} {pc : Nat} (inv : Sound log m) (out : m.OutOfLoop log)
    (dead : (m.heap co).status = .coDead) (waits : .waits m.running.owner co ∈ log)
    (hfree : .freed co ∉ log)
    (childless : ∀ child, .started co child ∈ log → .funcReturn child ∈ log)
    (h : Refreshed m co pc es m') : Lifetime (log ++ es) m' :=
  inv.life.refreshed inv.agree inv.reg inv.stat out dead waits hfree childless h

/-- A call made by the body starts with the step that makes it. -/
theorem Sound.exec (inv : Sound log m) {pc : Nat} (at_ : m.running.point = .user pc) :
    Sound (log ++ [.exec m.running.owner pc]) (m.goto (.user (pc + 1))) := by
  have hgo : Sound log (m.goto (.user (pc + 1))) :=
    inv.goto (Machine.outOfLoop_of_ne (by simp [at_])) (by simp) (fun co hp => hp.elim)
  exact hgo.quiet _ (by simp [Event.Inert]) (by simp [Event.Touches]) (by simp) (by simp)

theorem Sound.start (inv : Sound log m) {pc : Nat} (at_ : m.running.point = .user pc)
    (handle func arg : Nat) :
    Lifetime (log ++ [.exec m.running.owner pc, .started m.running.owner m.brk,
      .access .write m.brk]) ((m.started handle func arg).goto (.user (pc + 1))) := by
  have hcall := inv.exec at_
  have howner := (inv.agree.own (Machine.outOfLoop_of_ne (by simp [at_]))).2
  have hnew : Lifetime (log ++ [.exec m.running.owner pc] ++
      [.started m.running.owner m.brk] ++ [.access .write m.brk])
      ((m.started handle func arg).goto (.user (pc + 1))) := by
    have hstart := hcall.life.started hcall.reg handle func arg
    rw [howner] at hstart ⊢
    refine Lifetime.quiet hstart _ (by simp [Event.Inert]) ?_
    intro e he a ha hfreed
    rw [List.mem_singleton.1 he] at ha
    have hbrk : m.brk = a := ha
    subst hbrk
    have hold : .freed m.brk ∈ log := by simpa using hfreed
    exact Nat.lt_irrefl _ (inv.stat.old (inv.reg.reaped hold))
  simpa using hnew

/-- A `co_wait` on a handle that nobody has waited for, up to the test of the status. -/
theorem Sound.waitCall (inv : Sound log m) (ok : LifetimeSafe P log m) {pc handle : Nat}
    {target : Addr} (at_ : m.running.point = .user pc)
    (op : bodyOf P m m.running.owner pc = some (.coWait handle))
    (var : m.handles handle = some target) :
    .freed target ∉ log ∧
      Sound (log ++ [.exec m.running.owner pc] ++ [.waits m.running.owner target] ++
        [.access .read target]) (m.goto (.user (pc + 1))) := by
  have hcall := inv.exec at_
  have fresh : ∀ caller, .waits caller target ∉ log := ok.at_wait at_ op var
  have hfree : .freed target ∉ log := by
    intro h
    rcases inv.life.waited h with ⟨caller, h⟩
    exact fresh caller h
  have hwait := hcall.waits (by simpa using fresh) (hcall.life.handle var) m.running.owner
  exact ⟨hfree, hwait.quiet [.access .read target] (by simp [Event.Inert])
    (by simpa [Event.Touches] using hfree) (by simp) (by simp)⟩

theorem Sound.step (inv : Sound log m) (ok : LifetimeSafe P log m) (h : StepCase P m es m') :
    Lifetime (log ++ es) m' := by
  have outUser : ∀ {pc}, m.running.point = .user pc → m.OutOfLoop log :=
    fun at_ => Machine.outOfLoop_of_ne (by simp [at_])
  cases h with
  | localStep at_ => exact (inv.exec at_).life
  | @start pc handle func arg at_ => exact inv.start at_ handle func arg
  | yield at_ _ spec => simpa using (inv.exec at_).yielded (spec.of_goto _)
  | @waitAlive pc handle target at_ op var =>
      rcases inv.waitCall ok at_ op var with ⟨hfree, hread⟩
      have hwrite := hread.life.quiet [.access .write target] (by simp [Event.Inert])
        (by simpa [Event.Touches] using hfree)
      have hloop : Lifetime (log ++ [.exec m.running.owner pc] ++
          [.waits m.running.owner target] ++ [.access .read target] ++ [.access .write target])
          ((m.setStatus target .coWaiting).goto (.waitLoop target (pc + 1))) := by
        refine (hwrite.setStatus target .coWaiting).goto ?_
        intro t pc' h
        simp only [Point.waitLoop.injEq] at h
        rcases h with ⟨rfl, rfl⟩
        simpa using hfree
      simpa using hloop
  | @waitDead pc handle target _ _ at_ op var dead spec =>
      rcases inv.waitCall ok at_ op var with ⟨hfree, hread⟩
      have hrefresh := hread.refreshed (Machine.outOfLoop_of_ne (by simp)) dead
        (by simp) (by simpa using hfree)
        (by simpa using fun child => ok.childless (reaps_at_wait at_ op var dead))
        (spec.of_goto _)
      simpa using hrefresh
  | @ret pc link k at_ op notMain hlink hk =>
      rcases ok.agreementSafe.returnsIntoLoop.at_return at_ op notMain hlink hk with
        ⟨target, pc', loop, -, pending⟩
      exact inv.life.returned inv.agree inv.alloc (outUser at_) notMain hlink hk loop
        (by rwa [← inv.stat.dead])
  | enter at_ =>
      rcases inv.agree.own (Machine.outOfLoop_of_ne (by simp [at_])) with ⟨_, owner⟩
      have hgo : Lifetime log (m.goto (.user 0)) := inv.life.goto (by simp)
      refine hgo.quiet _ (by simp [Event.Inert]) ?_
      simpa [Event.Touches, owner] using inv.life.current
  | @loopYield target pc _ _ at_ alive spec =>
      have hread := inv.quiet [.access .read target] (by simp [Event.Inert])
        (by simpa [Event.Touches] using inv.not_freed alive) (by simp) (by simp)
      rw [← at_] at spec
      simpa using hread.yielded spec
  | @loopExit target pc _ _ at_ dead spec =>
      rcases inv.life.running at_ with ⟨hwaits, hfree⟩
      have hread := inv.quiet [.access .read target] (by simp [Event.Inert])
        (by simpa [Event.Touches] using hfree) (by simp) (by simp)
      have out := Machine.outOfLoop_of_dead at_ ((inv.stat.dead _).1 dead)
      have hrefresh := hread.refreshed out.append dead (List.mem_append_left _ hwaits)
        (by simpa using hfree)
        (by simpa using fun child => ok.childless (reaps_at_loop at_ dead)) spec
      simpa using hrefresh
  | @refreshYield target pc _ _ at_ spec =>
      have out : m.OutOfLoop log := Machine.outOfLoop_of_ne (by simp [at_])
      have hpast : ∀ co, Point.PastWait co (.waitReturn target pc) → .funcReturn co ∈ log := by
        intro co hp
        refine inv.stat.past (.inl rfl) ?_
        rw [at_]
        exact hp
      have hgo : Sound log (m.goto (.waitReturn target pc)) := inv.goto out (by simp) hpast
      exact hgo.yielded (spec.of_goto _)
  | @waitReturn target pc at_ =>
      have hgo : Lifetime log (m.goto (.user pc)) := inv.life.goto (by simp)
      exact hgo.quiet _ (by simp [Event.Inert]) (by simp [Event.Touches])

theorem run_sound (run : Run (LifetimeSafe P) (Step P) coInit log m) : Sound log m := by
  refine run.invariant Sound
    ⟨coInit_allocated, coInit_statusOk, coInit_agreement, coInit_registry, coInit_lifetime⟩ ?_
  intro log es m m' _ ok inv hstep
  have hcase := step_cases hstep
  exact
    { alloc := inv.alloc.step hcase
      stat := inv.stat.step inv.alloc hcase
      agree := inv.agree.step inv.stat inv.alloc ok.agreementSafe.returnsIntoLoop hcase
      reg := inv.reg.step inv.stat inv.alloc (inv.life.reapSafe inv.reg ok) hcase
      life := inv.step ok hcase }

/-- In a run whose functions return into loops that have to go on waiting, which starts
no coroutine into a full table and which reaps a coroutine, once, after those that it
started, nothing touches a freed object, and neither `current` nor the table nor the
`uc_link` of an unfinished coroutine leads to one. -/
theorem lifetime_safety (P : Program) {log : List Event} {m : Machine}
    (run : Run (LifetimeSafe P) (Step P) coInit log m) :
    NoUseAfterFree log ∧ ∀ a, .freed a ∈ log →
      m.current ≠ a ∧ some a ∉ slots m.coStack m.coStackCount ∧
      ∀ co, mainCo < co → co < m.brk → .funcReturn co ∉ log → (m.heap co).ucLink ≠ some a := by
  have inv := run_sound run
  refine ⟨inv.life.noUse, ?_⟩
  intro a hfree
  refine ⟨?_, ?_, ?_⟩
  · rintro rfl
    exact inv.life.current hfree
  · intro h
    rcases mem_slots.1 h with ⟨i, hi, hslot⟩
    exact inv.reg.not_freed inv.stat hi hslot hfree
  · intro co hpos hlt hnot h
    rcases inv.life.creator hpos hlt with ⟨creator, hstart⟩
    rcases inv.life.link hstart hnot with ⟨hlink, hlive⟩
    rw [h] at hlink
    rw [← Option.some.inj hlink] at hlive
    exact hlive hfree

/-- `main` waits for a coroutine that the first worker has started; the worker then
waits for the second one. -/
def nestedStart : Program where
  main := fun pc => [.coStart 0 0 0, .coStart 1 1 0, .coYield, .coWait 2][pc]?
  func := fun func _ pc => if func = 0 then [.coStart 2 2 0, .coWait 1][pc]? else none

/-- The awaited coroutine returns into the loop of the worker, which gives way to
`main`: it is reaped while `main` is current. -/
theorem lifetime_safety_nestedStart :
    ∃ log m, Run (LifetimeSafe nestedStart) (Step nestedStart) coInit log m ∧
      .freed 3 ∈ log ∧ m.running = ⟨mainCo, .user 4⟩ ∧ NoUseAfterFree log ∧ m.current ≠ 3 := by
  obtain ⟨log, m, run, hp⟩ := exists_run_of_replay (LifetimeSafe nestedStart)
    (Step nestedStart) coInit (fun log m => lifetimeSafe nestedStart log m) (fun _ _ h => h)
    (step_of_stepDone nestedStart)
    [[], [], [1], [], [], [], [0], [], [3], [], [], [0], [], [0], []]
    (fun log m => decide (.freed 3 ∈ log ∧ m.running = ⟨mainCo, .user 4⟩)) (by decide +kernel)
  rcases of_decide_eq_true hp with ⟨hfree, hrun⟩
  rcases lifetime_safety nestedStart run with ⟨hlog, hrefs⟩
  exact ⟨log, m, run, hfree, hrun, hlog, (hrefs 3 hfree).1⟩

/-- `main` waits for its only coroutine, whose function does nothing. -/
def waitForEmpty : Program where
  main := fun pc => [.coStart 0 0 0, .coWait 0][pc]?
  func := fun _ _ _ => none

/-- `main` waits, once, for its only coroutine. The empty function returns into the loop
of `main`, which frees the coroutine while `current` is still that coroutine, and then
yields from it. -/
theorem waitForEmpty_uses_freed :
    (∃ log m, Run (WaitsOnce waitForEmpty) (Step waitForEmpty) coInit log m ∧
      .freed 1 ∈ log ∧ m.current = 1) ∧
    ∃ log m, Run (WaitsOnce waitForEmpty) (Step waitForEmpty) coInit log m ∧
      ¬ NoUseAfterFree log := by
  constructor
  · obtain ⟨log, m, run, hp⟩ := exists_run_of_replay (WaitsOnce waitForEmpty)
      (Step waitForEmpty) coInit (fun log m => waitsOnce waitForEmpty log m) (fun _ _ h => h)
      (step_of_stepDone waitForEmpty) [[], [], [1], [], [], []]
      (fun log m => decide (.freed 1 ∈ log ∧ m.current = 1)) (by decide +kernel)
    exact ⟨log, m, run, of_decide_eq_true hp⟩
  · obtain ⟨log, m, run, hp⟩ := exists_run_of_replay (WaitsOnce waitForEmpty)
      (Step waitForEmpty) coInit (fun log m => waitsOnce waitForEmpty log m) (fun _ _ h => h)
      (step_of_stepDone waitForEmpty) [[], [], [1], [], [], [], [0]]
      (fun log _ => decide
        (log[23]? = some (Event.freed 1) ∧ log[25]? = some (Event.access .read 1)))
      (by decide +kernel)
    rcases of_decide_eq_true hp with ⟨hfree, hread⟩
    rcases List.getElem?_eq_some_iff.1 hfree with ⟨hi, hfree⟩
    rcases List.getElem?_eq_some_iff.1 hread with ⟨hj, hread⟩
    refine ⟨log, m, run, ?_⟩
    intro h
    refine List.pairwise_iff_getElem.1 h 23 25 hi hj (by decide) 1 hfree ?_
    rw [hread]
    rfl

end OSLabs.Libco
