import OSLabs.Lib.SlotArray
import OSLabs.Libco.Status

/-! # The coroutine registry

`co_stack` holds the main coroutine followed by the coroutines that were started and
not yet freed, in start order, as long as no `co_start` meets a full table and no
`refresh_co_stack` that misses its coroutine finds a dead one behind the last slot.
-/

namespace OSLabs.Libco

open Lib

variable {P : Program} {m m' : Machine} {ret : Point} {log es : List Event}

def startedCos (log : List Event) : List Addr :=
  log.filterMap fun
    | .started _ co => some co
    | _ => none

theorem startedCos_append (log es : List Event) :
    startedCos (log ++ es) = startedCos log ++ startedCos es :=
  List.filterMap_append

theorem startedCos_eq_nil (h : ∀ a co, .started a co ∉ es) : startedCos es = [] := by
  refine List.filterMap_eq_nil_iff.2 fun e he => ?_
  cases e with
  | started a co => exact (h a co he).elim
  | _ => rfl

/-- Main and the coroutines that were started and not yet reaped by `co_wait`. -/
def registered (log : List Event) : List Addr :=
  mainCo :: (startedCos log).filter fun co => .freed co ∉ log

/-! ## When the registry is safe -/

/-- The search of `refresh_co_stack(co)` succeeds, or the slot it stops at is in the
array and holds an object that is not dead. -/
def searchSafe (m : Machine) (co : Addr) : Bool :=
  some co ∈ slots m.coStack m.coStackCount ||
    match m.coStack m.coStackCount with
    | some slot => m.coStackCount < coStackSize ∧ (m.heap slot).status ≠ .coDead
    | none => false

/-- The coroutine on which the next step calls `refresh_co_stack`, if it does. -/
def reaps (P : Program) (m : Machine) : Option Addr :=
  match m.running.point with
  | .user pc =>
    match bodyOf P m m.running.owner pc with
    | some (.coWait handle) =>
      (m.handles handle).filter fun target => (m.heap target).status = .coDead
    | _ => none
  | .waitLoop target _ => if (m.heap target).status = .coDead then some target else none
  | _ => none

def reapSafe (P : Program) (m : Machine) : Bool := (reaps P m).all (searchSafe m)

def startHasRoom (P : Program) (m : Machine) : Bool :=
  match m.running.point with
  | .user pc =>
    match bodyOf P m m.running.owner pc with
    | some (.coStart _ _ _) => m.coStackCount < coStackSize
    | _ => true
  | _ => true

/-- The next step keeps to `co_stack`: `co_start` finds a free slot, and so does the search of
`refresh_co_stack` if it fails. -/
def insideTable (P : Program) (m : Machine) : Bool :=
  startHasRoom P m &&
    (reaps P m).all fun co => findSlot m.coStack co m.coStackCount 0 < coStackSize

/-- `co_start` finds a free slot, and `refresh_co_stack` is called safely. -/
def registrySafe (P : Program) (m : Machine) : Bool := startHasRoom P m && reapSafe P m

def RegistrySafe (P : Program) (_ : List Event) (m : Machine) : Prop :=
  registrySafe P m = true

theorem RegistrySafe.reapSafe (ok : RegistrySafe P log m) : reapSafe P m = true :=
  (Bool.and_eq_true_iff.1 ok).2

theorem RegistrySafe.at_start (ok : RegistrySafe P log m) {pc handle func arg : Nat}
    (at_ : m.running.point = .user pc)
    (op : bodyOf P m m.running.owner pc = some (.coStart handle func arg)) :
    m.coStackCount < coStackSize := by
  have h := (Bool.and_eq_true_iff.1 ok).1
  unfold startHasRoom at h
  simpa only [at_, op, decide_eq_true_eq] using h

theorem reaps_at_wait {pc handle : Nat} {target : Addr} (at_ : m.running.point = .user pc)
    (op : bodyOf P m m.running.owner pc = some (.coWait handle))
    (var : m.handles handle = some target) (dead : (m.heap target).status = .coDead) :
    reaps P m = some target := by
  unfold reaps
  simp [at_, op, var, dead, Option.filter]

theorem reaps_at_loop {pc : Nat} {target : Addr} (at_ : m.running.point = .waitLoop target pc)
    (dead : (m.heap target).status = .coDead) : reaps P m = some target := by
  unfold reaps
  simp [at_, dead]

theorem reapSafe_spec {target : Addr} (safe : reapSafe P m = true)
    (h : reaps P m = some target) : searchSafe m target = true := by
  unfold reapSafe at safe
  rwa [h, Option.all_some] at safe

theorem searchSafe_spec {co : Addr} (h : searchSafe m co = true) :
    some co ∈ slots m.coStack m.coStackCount ∨
      m.coStackCount < coStackSize ∧ ∃ slot, m.coStack m.coStackCount = some slot ∧
        (m.heap slot).status ≠ .coDead := by
  unfold searchSafe at h
  rcases Bool.or_eq_true_iff.1 h with h | h
  · exact .inl (of_decide_eq_true h)
  · split at h
    next slot hslot =>
      obtain ⟨hcount, alive⟩ := of_decide_eq_true h
      exact .inr ⟨hcount, slot, hslot, alive⟩
    next => simp at h

/-! ## The search loop -/

theorem findSlot_spec (coStack : Nat → Option Addr) (co : Addr) (n i : Nat) :
    (i ≤ findSlot coStack co n i ∧ findSlot coStack co n i < i + n ∧
        coStack (findSlot coStack co n i) = some co) ∨
      findSlot coStack co n i = i + n ∧ ∀ j, i ≤ j → j < i + n → coStack j ≠ some co := by
  induction n generalizing i with
  | zero => exact .inr ⟨rfl, fun j h₁ h₂ => by omega⟩
  | succ n ih =>
      rw [findSlot]
      by_cases hi : coStack i = some co
      · rw [if_pos hi]
        exact .inl ⟨Nat.le_refl _, by omega, hi⟩
      · rw [if_neg hi]
        rcases ih (i + 1) with ⟨hle, hlt, hget⟩ | ⟨heq, hnone⟩
        · exact .inl ⟨by omega, by omega, hget⟩
        · refine .inr ⟨by omega, fun j h₁ h₂ => ?_⟩
          rcases Nat.eq_or_lt_of_le h₁ with rfl | hlt
          · exact hi
          · exact hnone j hlt (by omega)

theorem findSlot_of_mem {coStack : Nat → Option Addr} {co : Addr} {n : Nat}
    (h : some co ∈ slots coStack n) :
    findSlot coStack co n 0 < n ∧ coStack (findSlot coStack co n 0) = some co := by
  obtain ⟨i, hi, hget⟩ := mem_slots.1 h
  rcases findSlot_spec coStack co n 0 with ⟨-, hlt, hfound⟩ | ⟨-, hnone⟩
  · exact ⟨by omega, hfound⟩
  · exact (hnone i (Nat.zero_le _) (by omega) hget).elim

theorem findSlot_of_not_mem {coStack : Nat → Option Addr} {co : Addr} {n : Nat}
    (h : some co ∉ slots coStack n) : findSlot coStack co n 0 = n := by
  rcases findSlot_spec coStack co n 0 with ⟨-, hlt, hfound⟩ | ⟨heq, -⟩
  · exact (h (mem_slots.2 ⟨_, by omega, hfound⟩)).elim
  · omega

/-! ## The invariant -/

structure Registry (log : List Event) (m : Machine) : Prop where
  table : slots m.coStack m.coStackCount = (registered log).map some
  room : m.coStackCount ≤ coStackSize
  low : ∀ {co}, co ∈ startedCos log → mainCo < co ∧ co < m.brk
  distinct : (startedCos log).Nodup
  reaped : ∀ {co}, .freed co ∈ log → .funcReturn co ∈ log

theorem coInit_registry : Registry [] coInit where
  table := by decide
  room := by decide
  low := by simp [startedCos]
  distinct := by simp [startedCos]
  reaped := by simp

theorem Registry.nodup (inv : Registry log m) : (registered log).Nodup := by
  refine List.nodup_cons.2 ⟨?_, inv.distinct.filter _⟩
  intro h
  exact Nat.lt_irrefl _ (inv.low (List.mem_filter.1 h).1).1

theorem Registry.count (inv : Registry log m) :
    m.coStackCount = (registered log).length := by
  have := congrArg List.length inv.table
  simpa using this

theorem Registry.mem_iff (inv : Registry log m) {co : Addr} :
    (∃ i < m.coStackCount, m.coStack i = some co) ↔ co ∈ registered log := by
  rw [← mem_slots, inv.table]
  simp

theorem Registry.main (inv : Registry log m) : m.coStack 0 = some mainCo := by
  have hpos : 0 < m.coStackCount := by rw [inv.count]; exact Nat.succ_pos _
  have h := slots_getElem? m.coStack m.coStackCount 0
  rw [if_pos hpos, inv.table] at h
  exact (Option.some.inj h).symm

/-- A step that starts nothing, frees nothing and leaves the table alone. -/
theorem Registry.keep (inv : Registry log m) (es : List Event) (hstart : ∀ a co, .started a co ∉ es)
    (hfree : ∀ co, .freed co ∉ es) (stack : m'.coStack = m.coStack)
    (count : m'.coStackCount = m.coStackCount) (brk : m'.brk = m.brk) :
    Registry (log ++ es) m' := by
  have hcos : startedCos (log ++ es) = startedCos log := by
    rw [startedCos_append, startedCos_eq_nil hstart, List.append_nil]
  have hreg : registered (log ++ es) = registered log := by
    simp [registered, hcos, hfree]
  exact
    { table := by rw [stack, count, hreg]; exact inv.table
      room := by rw [count]; exact inv.room
      low := by intro co h; rw [hcos] at h; rw [brk]; exact inv.low h
      distinct := by rw [hcos]; exact inv.distinct
      reaped := by
        intro co h
        exact List.mem_append_left _ (inv.reaped (by simpa [hfree] using h)) }

theorem Registry.quiet (inv : Registry log m) (es : List Event)
    (hstart : ∀ a co, .started a co ∉ es) (hfree : ∀ co, .freed co ∉ es) :
    Registry (log ++ es) m :=
  inv.keep es hstart hfree rfl rfl rfl

theorem Registry.yielded (inv : Registry log m) (h : Yielded m ret es m') :
    Registry (log ++ es) m' := by
  have hstart : ∀ a co, .started a co ∉ es := by
    intro a co
    rw [h.mem_events (by simp [Event.quiet])]
    simp
  have hfree : ∀ co, .freed co ∉ es := by
    intro co
    rw [h.mem_events (by simp [Event.quiet])]
    simp
  obtain ⟨next, k, reads, -, -, -, -, -, rfl, -⟩ := h
  exact inv.keep _ hstart hfree (by simp) (by simp) (by simp)

theorem Registry.started (inv : Registry log m) (stat : StatusOk log m) (alloc : Allocated m)
    (room : m.coStackCount < coStackSize) (handle func arg : Nat) :
    Registry (log ++ [.started m.running.owner m.brk]) (m.started handle func arg) := by
  have hcos : startedCos (log ++ [.started m.running.owner m.brk]) =
      startedCos log ++ [m.brk] := by
    rw [startedCos_append]; rfl
  have hnew : .freed m.brk ∉ log := fun h => Nat.lt_irrefl _ (stat.old (inv.reaped h))
  have hreg : registered (log ++ [.started m.running.owner m.brk]) =
      registered log ++ [m.brk] := by
    simp [registered, hcos, hnew]
  exact
    { table := by
        rw [hreg, List.map_append, ← inv.table]
        exact slots_push _ _ _
      room := room
      low := by
        intro co h
        rw [hcos] at h
        rcases List.mem_append.1 h with h | h
        · exact ⟨(inv.low h).1, Nat.lt_succ_of_lt (inv.low h).2⟩
        · rw [List.mem_singleton.1 h]
          exact ⟨alloc.main, Nat.lt_succ_self _⟩
      distinct := by
        rw [hcos]
        refine List.nodup_append.2 ⟨inv.distinct, List.nodup_singleton _, ?_⟩
        intro a ha b hb
        rw [List.mem_singleton.1 hb]
        exact Nat.ne_of_lt (inv.low ha).2
      reaped := by
        intro co h
        exact List.mem_append_left _ (inv.reaped (by simpa using h)) }

/-- Dropping the slot that the search found. -/
theorem Registry.dropped (inv : Registry log m) (stat : StatusOk log m) {co : Addr}
    (found : some co ∈ slots m.coStack m.coStackCount) (dead : .funcReturn co ∈ log)
    (p : Point) :
    Registry (log ++ [.freed co])
      ((m.dropSlot (findSlot m.coStack co m.coStackCount 0)).goto p) := by
  obtain ⟨hlt, hget⟩ := findSlot_of_mem found
  generalize findSlot m.coStack co m.coStackCount 0 = i at hlt hget
  have hne : co ≠ mainCo := by
    rintro rfl
    exact stat.main dead
  have hcos : startedCos (log ++ [.freed co]) = startedCos log := by
    rw [startedCos_append]; simp [startedCos]
  have hreg : registered (log ++ [.freed co]) = (registered log).filter (· ≠ co) := by
    have hmain : decide (mainCo ≠ co) = true := decide_eq_true hne.symm
    rw [registered, registered, hcos, List.filter_cons, if_pos hmain, List.filter_filter]
    congr 1
    apply List.filter_congr
    intro a _
    by_cases ha : a = co <;> simp [ha]
  have hslot : (registered log)[i]? = some co := by
    have h := slots_getElem? m.coStack m.coStackCount i
    rw [if_pos hlt, inv.table, List.getElem?_map, hget] at h
    simpa using h
  exact
    { table := by
        rw [hreg, ← eraseIdx_eq_filter inv.nodup hslot, ← List.eraseIdx_map, ← inv.table]
        refine slots_drop hlt ?_ ?_
        · intro j hj
          change shiftDown _ _ _ _ = _
          rw [shiftDown_apply, if_neg (by omega)]
        · intro j hij hj
          change shiftDown _ _ _ _ = _
          rw [shiftDown_apply, if_pos (by omega)]
      room := Nat.le_trans (Nat.sub_le _ _) inv.room
      low := by intro a h; rw [hcos] at h; exact inv.low h
      distinct := by rw [hcos]; exact inv.distinct
      reaped := by
        intro a h
        rcases List.mem_append.1 h with h | h
        · exact List.mem_append_left _ (inv.reaped h)
        · rw [Event.freed.inj (List.mem_singleton.1 h)]
          exact List.mem_append_left _ dead }

theorem Registry.refreshed {co : Addr} {pc : Nat} (inv : Registry log m)
    (stat : StatusOk log m) (dead : (m.heap co).status = .coDead)
    (safe : searchSafe m co = true) (h : Refreshed m co pc es m') :
    Registry (log ++ es) m' := by
  obtain ⟨tmp, -, hslot, ⟨htmp, rfl, rfl⟩ | ⟨-, rfl, rfl⟩⟩ := h
  · by_cases found : some co ∈ slots m.coStack m.coStackCount
    · have hco : tmp = co := Option.some.inj (hslot.symm.trans (findSlot_of_mem found).2)
      subst hco
      have hread := inv.quiet [.access .read tmp] (by simp) (by simp)
      have hdead : .funcReturn tmp ∈ log ++ [.access .read tmp] :=
        List.mem_append_left _ ((stat.dead _).1 dead)
      simpa using hread.dropped (stat.quiet (by simp)) found hdead (.refreshYield tmp pc)
    · -- the guard excludes a dead object behind the last slot
      rcases searchSafe_spec safe with h | ⟨-, slot, hlast, alive⟩
      · exact (found h).elim
      · rw [findSlot_of_not_mem found, hlast] at hslot
        exact (alive (Option.some.inj hslot ▸ htmp)).elim
  · exact inv.keep _ (by simp) (by simp) rfl rfl rfl

theorem Registry.step (inv : Registry log m) (stat : StatusOk log m) (alloc : Allocated m)
    (safe : reapSafe P m = true) (h : StepCase P m es m') : Registry (log ++ es) m' := by
  cases h with
  | localStep => exact inv.keep _ (by simp) (by simp) rfl rfl rfl
  | @start pc handle func arg _ _ room =>
      have hexec := inv.quiet [.exec m.running.owner pc] (by simp) (by simp)
      have hnew := hexec.started (stat.quiet (by simp)) alloc room handle func arg
      have hgo : Registry (log ++ [.exec m.running.owner pc] ++
          [.started m.running.owner m.brk] ++ [.access .write m.brk])
          ((m.started handle func arg).goto (.user (pc + 1))) :=
        hnew.keep _ (by simp) (by simp) rfl rfl rfl
      simpa using hgo
  | @yield pc _ _ _ _ spec =>
      have hexec := inv.quiet [.exec m.running.owner pc] (by simp) (by simp)
      simpa using hexec.yielded spec
  | waitAlive => exact inv.keep _ (by simp) (by simp) rfl rfl rfl
  | @waitDead pc handle target _ _ at_ op var dead spec =>
      have hcall := inv.quiet [.exec m.running.owner pc, .waits m.running.owner target,
        .access .read target] (by simp) (by simp)
      simpa using hcall.refreshed (stat.quiet (by simp)) dead
        (reapSafe_spec safe (reaps_at_wait at_ op var dead)) spec
  | ret => exact inv.keep _ (by simp) (by simp) rfl rfl rfl
  | enter => exact inv.keep _ (by simp) (by simp) rfl rfl rfl
  | @loopYield target _ _ _ _ _ spec =>
      have hread := inv.quiet [.access .read target] (by simp) (by simp)
      simpa using hread.yielded spec
  | @loopExit target pc _ _ at_ dead spec =>
      have hread := inv.quiet [.access .read target] (by simp) (by simp)
      simpa using hread.refreshed (stat.quiet (by simp)) dead
        (reapSafe_spec safe (reaps_at_loop at_ dead)) spec
  | refreshYield _ spec => exact inv.yielded spec
  | waitReturn => exact inv.keep _ (by simp) (by simp) rfl rfl rfl

theorem run_registry (run : Run (RegistrySafe P) (Step P) coInit log m) :
    (Allocated m ∧ StatusOk log m) ∧ Registry log m := by
  refine run.invariant (fun log m => (Allocated m ∧ StatusOk log m) ∧ Registry log m)
    ⟨⟨coInit_allocated, coInit_statusOk⟩, coInit_registry⟩ ?_
  intro log es m m' _ ok inv hstep
  rcases inv with ⟨⟨alloc, stat⟩, inv⟩
  exact ⟨⟨alloc.step (step_cases hstep), stat.step alloc (step_cases hstep)⟩,
    inv.step stat alloc ok.reapSafe (step_cases hstep)⟩

/-! ## What the registry promises -/

theorem Registry.coStackCount_pos (inv : Registry log m) : 0 < m.coStackCount := by
  rw [inv.count]
  exact Nat.succ_pos _

/-- A registry without holes never makes `next_co` fail. -/
theorem nextCo_ne_fault (hpos : 0 < m.coStackCount)
    (full : ∀ i < m.coStackCount, m.coStack i ≠ none) (draws : List Nat) (f : Fault) :
    nextCo m draws ≠ .fault f := by
  induction draws with
  | nil => simp [nextCo]
  | cons r draws ih =>
      unfold nextCo
      rw [if_neg (Nat.ne_of_gt hpos)]
      cases hslot : m.coStack (r % m.coStackCount) with
      | none => exact (full _ (Nat.mod_lt _ hpos) hslot).elim
      | some co =>
          by_cases hdead : (m.heap co).status = .coDead
          · simp only [hdead, if_true]
            intro h
            rcases Outcome.bind_eq_fault.1 h with h | ⟨res, _, h⟩
            · exact ih h
            · contradiction
          · simp [hdead]

theorem Registry.full (inv : Registry log m) : ∀ i < m.coStackCount, m.coStack i ≠ none := by
  intro i hi hnone
  have h := slots_getElem? m.coStack m.coStackCount i
  rw [if_pos hi, inv.table, hnone, List.getElem?_map] at h
  cases hreg : (registered log)[i]? with
  | none => simp [hreg] at h
  | some co => simp [hreg] at h

theorem swapcontext_fault {oucp ucp : Addr} {f : Fault}
    (h : swapcontext m oucp ucp ret = .fault f) : f = .badContext := by
  unfold swapcontext at h
  dsimp only at h
  split at h
  · exact (Outcome.fault.inj h).symm
  · contradiction

theorem coYield_fault (hpos : 0 < m.coStackCount)
    (full : ∀ i < m.coStackCount, m.coStack i ≠ none) {draws : List Nat} {f : Fault}
    (h : coYield m ret draws = .fault f) : f = .badContext := by
  have hpos' : 0 < (parkCurrent m).coStackCount := by rwa [parkCurrent_coStackCount]
  have full' : ∀ i < (parkCurrent m).coStackCount, (parkCurrent m).coStack i ≠ none := by
    rwa [parkCurrent_coStack, parkCurrent_coStackCount]
  rcases Outcome.bind_eq_fault.1 h with h | ⟨next, _, h⟩
  · exact (nextCo_ne_fault hpos' full' draws f h).elim
  · rcases Outcome.bind_eq_fault.1 h with h | ⟨res, _, h⟩
    · exact swapcontext_fault h
    · contradiction

theorem refreshCoStack_ne_fault (inv : Registry log m) {co : Addr} (safe : searchSafe m co = true)
    (pc : Nat) (f : Fault) : refreshCoStack m co pc ≠ .fault f := by
  have hslot : findSlot m.coStack co m.coStackCount 0 < coStackSize ∧
      ∃ tmp, m.coStack (findSlot m.coStack co m.coStackCount 0) = some tmp := by
    by_cases found : some co ∈ slots m.coStack m.coStackCount
    · exact ⟨Nat.lt_of_lt_of_le (findSlot_of_mem found).1 inv.room, co, (findSlot_of_mem found).2⟩
    · rcases searchSafe_spec safe with h | ⟨hcount, slot, hlast, -⟩
      · exact (found h).elim
      · rw [findSlot_of_not_mem found]
        exact ⟨hcount, slot, hlast⟩
  rcases hslot with ⟨hrange, tmp, htmp⟩
  unfold refreshCoStack
  rw [if_neg (Nat.not_le.2 hrange), htmp]
  by_cases hdead : (m.heap tmp).status = .coDead
  · simp [hdead]
  · simp [hdead]

/-- The guard keeps a step from leaving the array, from dividing by zero and from
reading an empty slot. -/
theorem step_fault (inv : Registry log m) (ok : RegistrySafe P log m) {draws : List Nat}
    {f : Fault} (h : step P m draws = .fault f) : f = .badContext ∨ f = .assertFail := by
  have yield : ∀ {ret}, coYield m ret draws = .fault f → f = .badContext ∨ f = .assertFail :=
    fun h => .inl (coYield_fault inv.coStackCount_pos inv.full h)
  have safe : ∀ {target}, reaps P m = some target → searchSafe m target = true :=
    fun h => reapSafe_spec ok.reapSafe h
  unfold step at h
  dsimp only at h
  split at h
  · contradiction
  next pc at_ =>
    unfold userStep at h
    dsimp only at h
    split at h
    next op =>
      split at h
      · contradiction
      · unfold wrapperReturn at h
        dsimp only at h
        split at h
        · contradiction
        · split at h
          · exact .inl (Outcome.fault.inj h).symm
          · contradiction
    · contradiction
    next handle func arg op =>
      have room := ok.at_start at_ op
      rcases Outcome.bind_eq_fault.1 h with h | ⟨res, _, h⟩
      · unfold coStart at h
        rw [if_neg (Nat.not_le.2 room)] at h
        contradiction
      · contradiction
    next op =>
      rcases Outcome.bind_eq_fault.1 h with h | ⟨res, _, h⟩
      · exact yield h
      · contradiction
    next handle op =>
      split at h
      · exact .inr (Outcome.fault.inj h).symm
      next target var =>
        rcases Outcome.bind_eq_fault.1 h with h | ⟨res, _, h⟩
        · unfold coWait at h
          split at h
          next dead =>
            exact (refreshCoStack_ne_fault inv (safe (reaps_at_wait at_ op var dead)) _ _ h).elim
          · contradiction
        · contradiction
  next target pc at_ =>
    split at h
    next dead =>
      rcases Outcome.bind_eq_fault.1 h with h | ⟨res, _, h⟩
      · exact (refreshCoStack_ne_fault inv (safe (reaps_at_loop at_ dead)) _ _ h).elim
      · contradiction
    · rcases Outcome.bind_eq_fault.1 h with h | ⟨res, _, h⟩
      · exact yield h
      · contradiction
  · exact yield h
  · contradiction

/-- In every state of a run that starts no coroutine into a full table and reaps only
safely, the table holds `main` and the coroutines started and not yet reaped, once and
in start order; `next_co` has a candidate and misses no unfinished coroutine, and no
access to the table goes wrong. -/
theorem registry_invariant (P : Program) {log : List Event} {m : Machine}
    (run : Run (RegistrySafe P) (Step P) coInit log m) :
    (1 ≤ m.coStackCount ∧ m.coStackCount ≤ coStackSize) ∧
      (m.coStack 0 = some mainCo ∧ (m.heap mainCo).status ≠ .coDead) ∧
      (slots m.coStack m.coStackCount = (registered log).map some ∧ (registered log).Nodup) ∧
      (∀ draws f, nextCo m draws ≠ .fault f) ∧
      (∃ i co, i < m.coStackCount ∧ m.coStack i = some co ∧ (m.heap co).status ≠ .coDead) ∧
      (∀ co ∈ startedCos log, .funcReturn co ∉ log →
        some co ∈ slots m.coStack m.coStackCount) ∧
      (RegistrySafe P log m → ∀ draws f, step P m draws = .fault f →
        f = .badContext ∨ f = .assertFail) := by
  rcases run_registry run with ⟨⟨_, stat⟩, inv⟩
  have hmain : (m.heap mainCo).status ≠ .coDead := by
    intro h
    exact stat.main ((stat.dead _).1 h)
  refine ⟨⟨inv.coStackCount_pos, inv.room⟩, ⟨inv.main, hmain⟩, ⟨inv.table, inv.nodup⟩,
    nextCo_ne_fault inv.coStackCount_pos inv.full,
    ⟨0, mainCo, inv.coStackCount_pos, inv.main, hmain⟩, ?_, ?_⟩
  · intro co hco hret
    have hfree : .freed co ∉ log := fun h => hret (inv.reaped h)
    rw [inv.table]
    refine List.mem_map_of_mem (List.mem_cons_of_mem _ ?_)
    simp [hco, hfree]
  · intro ok draws f h
    exact step_fault inv ok h

/-- `main` starts two coroutines and waits for the first. -/
def reapFirst : Program where
  main := fun pc => [.coStart 0 0 0, .coStart 1 1 0, .coWait 0][pc]?
  func := fun _ _ _ => none

theorem registry_invariant_reapFirst :
    ∃ log m, Run (RegistrySafe reapFirst) (Step reapFirst) coInit log m ∧ .freed 1 ∈ log ∧
      slots m.coStack m.coStackCount = (registered log).map some := by
  obtain ⟨log, m, run, hp⟩ := exists_run_of_replay (RegistrySafe reapFirst)
    (Step reapFirst) coInit (fun _ m => registrySafe reapFirst m) (fun _ _ h => h)
    (step_of_stepDone reapFirst) [[], [], [], [1], [], [], []]
    (fun log _ => decide (.freed 1 ∈ log)) (by decide +kernel)
  exact ⟨log, m, run, of_decide_eq_true hp, (registry_invariant reapFirst run).2.2.1.1⟩

/-- `main` never stops starting coroutines. -/
def startForever : Program where
  main := fun _ => some (.coStart 0 0 0)
  func := fun _ _ _ => none

theorem startForever_run (n : Nat) (hn : n < coStackSize) :
    ∃ log m, Run anyStep (Step startForever) coInit log m ∧
      m.running = ⟨mainCo, .user n⟩ ∧ m.coStackCount = n + 1 := by
  induction n with
  | zero => exact ⟨[], coInit, .start, rfl, rfl⟩
  | succ n ih =>
      rcases ih (Nat.lt_of_succ_lt hn) with ⟨log, m, run, hrun, hcount⟩
      have room : ¬ coStackSize ≤ m.coStackCount := by omega
      have hstep : step startForever m [] = .done
          ((m.started 0 0 0).goto (.user (n + 1)), [.exec mainCo n, .started mainCo m.brk,
            .access .write m.brk]) := by
        simp only [step, hrun, userStep, bodyOf, startForever, if_true, coStart, if_neg room,
          Outcome.bind, Machine.goto, Machine.started]
      refine ⟨_, _, run.snoc trivial ⟨[], hstep⟩, ?_, ?_⟩
      · change Cont.mk m.running.owner _ = _
        rw [hrun]
      · change m.coStackCount + 1 = _
        rw [hcount]

/-- `main` waits twice for its only coroutine, whose function does nothing. -/
def waitTwice : Program where
  main := fun pc => [.coStart 0 0 0, .coYield, .coWait 0, .coWait 0][pc]?
  func := fun _ _ _ => none

/-- The start of the 64th coroutine writes behind the array. And `main`, waiting for its
only coroutine a second time, finds the stale copy behind the last slot and reaps it
again: the count is zero. -/
theorem registry_overflows_and_empties :
    (∃ log m, Run anyStep (Step startForever) coInit log m ∧
      ∀ draws, step startForever m draws = .fault .outOfRange) ∧
    ∃ log m, Run anyStep (Step waitTwice) coInit log m ∧ m.coStackCount = 0 ∧
      ∀ r, step waitTwice m [r] = .fault .divByZero := by
  constructor
  · rcases startForever_run 63 (by decide) with ⟨log, m, run, hrun, hcount⟩
    refine ⟨log, m, run, fun draws => ?_⟩
    simp [step, hrun, userStep, bodyOf, startForever, coStart, hcount, coStackSize, Outcome.bind]
  · obtain ⟨log, m, run, hp⟩ := exists_run_of_replay anyStep (Step waitTwice) coInit
      (fun _ _ => true) (fun _ _ _ => trivial) (step_of_stepDone waitTwice)
      [[], [1], [], [], [], [0], []]
      (fun _ m => decide (m.running = ⟨mainCo, .refreshYield 1 3⟩ ∧ m.coStackCount = 0))
      (by decide +kernel)
    rcases of_decide_eq_true hp with ⟨hrun, hcount⟩
    refine ⟨log, m, run, hcount, fun r => ?_⟩
    have hempty : (parkCurrent m).coStackCount = 0 := by rw [parkCurrent_coStackCount, hcount]
    simp [step, hrun, coYield, nextCo, hempty, Outcome.bind]

end OSLabs.Libco
