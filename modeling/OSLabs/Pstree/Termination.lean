import OSLabs.Pstree.Ordered

/-! # Where ConstructTree ends

On a table with distinct pids, whatever its order and its links, `ConstructTree` and
`ConstructTree_name` end exactly if the root is not below itself. With a log of the rows
that `NewNode` was called for they do the same, and no row is logged twice.
-/

namespace OSLabs.Pstree

open Lib

variable {sys : Sys} {pids rows : List Row} {h h' h₀ : Heap} {F : Forest Nat} {a n : Nat}
  {r pid : Int} {p : Ptr} {go : PsNode → PsNode → Bool} {cmp : Int × Name → Int × Name → Bool}
  {log log' : List Row}

def Succeeds (sys : Sys) (pid : Int) : Prop := ∀ n, ∃ node, freshNode sys n pid = .ok (some node)

/-- From some amount of fuel on, the run does not run out of it. -/
def Terminates {α : Type} (run : Nat → Except Fault α) : Prop :=
  ∃ bound, ∀ fuel > bound, run fuel ≠ .error .endless

/-! ## The calls of NewNode -/

/-- `constructRow`, which keeps the rows that `NewNode` was called for. -/
def logRow (go : PsNode → PsNode → Bool) (sys : Sys)
    (construct : Heap × List Row → Ptr → Int → Except Fault (Heap × List Row)) (p : Ptr)
    (pid : Int) (s : Heap × List Row) (row : Row) : Except Fault (Heap × List Row) :=
  if row.ppid = pid then do
    let son ← addSon go sys s.1 p row
    construct (son.2, s.2 ++ [row]) son.1 row.pid
  else .ok s

def logTreeBy (go : PsNode → PsNode → Bool) (sys : Sys) (pids : List Row) :
    Nat → Heap × List Row → Ptr → Int → Except Fault (Heap × List Row)
  | 0, _, _, _ => .error .endless
  | fuel + 1, s, p, pid =>
    pids.foldlM (logRow go sys (logTreeBy go sys pids fuel) p pid) s

/-- Without its log, the run is the one of the source. -/
theorem logTreeBy_erase (s : Heap × List Row) (p : Ptr) (pid : Int) :
    (logTreeBy go sys pids n s p pid).map Prod.fst = constructTreeBy go sys pids n s.1 p pid := by
  induction n generalizing s p pid with
  | zero => rfl
  | succ n ih =>
      have hrow : ∀ (s : Heap × List Row) (row : Row),
          (logRow go sys (logTreeBy go sys pids n) p pid s row).map Prod.fst =
            constructRow go sys (constructTreeBy go sys pids n) p pid s.1 row := by
        intro s row
        rw [logRow, constructRow]
        by_cases hppid : row.ppid = pid
        · rw [if_pos hppid, if_pos hppid]
          cases addSon go sys s.1 p row with
          | error e => rfl
          | ok son => exact ih _ _ _
        · rw [if_neg hppid, if_neg hppid]
          rfl
      have hrows : ∀ (rows : List Row) (s : Heap × List Row),
          (rows.foldlM (logRow go sys (logTreeBy go sys pids n) p pid) s).map Prod.fst =
            rows.foldlM (constructRow go sys (constructTreeBy go sys pids n) p pid) s.1 := by
        intro rows
        induction rows with
        | nil => exact fun s => rfl
        | cons row rows ih =>
            intro s
            rw [List.foldlM_cons, List.foldlM_cons, ← hrow]
            cases logRow go sys (logTreeBy go sys pids n) p pid s row with
            | error e => rfl
            | ok t => exact ih t
      exact hrows pids s

/-! ## The run follows the unfolding -/

/-- What the unfolding says about a run with a log: it returns with a row for each process
of the unfolding, and where there is no unfolding it does not end. -/
def Follows (pids : List Row) (V : Option (Forest Int)) (h₀ : Heap) (a : Nat) (log : List Row)
    (res : Except Fault (Heap × List Row)) : Prop :=
  match V with
  | none => res = .error .endless
  | some V => ∃ h' F called, res = .ok (h', log ++ called) ∧ Grown h₀ a h' F ∧
    called.map Row.pid = V.toList ∧ called ⊆ pids

def AllFollow (pids : List Row)
    (construct : Heap × List Row → Ptr → Int → Except Fault (Heap × List Row)) (n : Nat) : Prop :=
  ∀ {h : Heap} {a : Nat} (pid : Int) (log : List Row), a < h.size → (h.node a).firstSon = none →
    Follows pids (Forest.unfold (childPids pids) n pid) h a log (construct (h, log) (some a) pid)

theorem logRows_spec {construct : Heap × List Row → Ptr → Int → Except Fault (Heap × List Row)}
    (call : AllFollow pids construct n) (succeeds : ∀ row ∈ pids, Succeeds sys row.pid)
    (ha : a < h₀.size) (inv : Grown h₀ a h F) (hrows : rows ⊆ pids) (log : List Row) :
    Follows pids (Forest.graft (Forest.unfold (childPids pids) n) (childPids rows pid)) h₀ a log
      (rows.foldlM (logRow (byKey cmp) sys construct (some a) pid) (h, log)) := by
  induction rows generalizing h F log with
  | nil => exact ⟨h, F, [], by rw [List.append_nil]; rfl, inv, rfl, List.nil_subset _⟩
  | cons row rows ih =>
      rcases List.cons_subset.1 hrows with ⟨hmem, hrest⟩
      rw [List.foldlM_cons, logRow]
      by_cases hrow : row.ppid = pid
      · rw [if_pos hrow, childPids_cons_of_eq hrow, Forest.graft]
        rcases addSon_spec cmp inv ha (succeeds row hmem h.size) with
          ⟨h₁, hadd, hsize, hgrown, _, hson, _⟩
        have hq : h.size < h₁.size := by rw [hsize]; exact Nat.lt_succ_self _
        have hsub := call row.pid (log ++ [row]) hq hson
        simp only [hadd, bind, Except.bind]
        cases hV : Forest.unfold (childPids pids) n row.pid with
        | none =>
            rw [hV] at hsub
            have hendless : construct (h₁, log ++ [row]) (some h.size) row.pid =
              .error .endless := hsub
            rw [hendless]
            rfl
        | some sons =>
            rw [hV] at hsub
            rcases hsub with ⟨h₂, G, called, hcall, hG, hpids, hcalled⟩
            have hlater := ih (hgrown.fill ha hG) hrest (log ++ [row] ++ called)
            rw [hcall]
            cases hW : Forest.graft (Forest.unfold (childPids pids) n) (childPids rows pid) with
            | none =>
                rw [hW] at hlater
                exact hlater
            | some siblings =>
                rw [hW] at hlater
                rcases hlater with ⟨h₃, G', called', hrun, hG', hpids', hcalled'⟩
                refine ⟨h₃, G', row :: (called ++ called'), ?_, hG', ?_, ?_⟩
                · have hlog : log ++ [row] ++ called ++ called' =
                      log ++ row :: (called ++ called') := by simp
                  rw [← hlog]
                  exact hrun
                · rw [List.map_cons, List.map_append, hpids, hpids', Forest.toList_cons]
                · exact List.cons_subset.2 ⟨hmem, List.append_subset.2 ⟨hcalled, hcalled'⟩⟩
      · rw [if_neg hrow, childPids_cons_of_ne hrow]
        exact ih inv hrest log

theorem logTreeBy_spec (cmp : Int × Name → Int × Name → Bool)
    (succeeds : ∀ row ∈ pids, Succeeds sys row.pid) (n : Nat) :
    AllFollow pids (logTreeBy (byKey cmp) sys pids n) n := by
  induction n with
  | zero => exact fun _ _ _ _ => rfl
  | succ n ih =>
      intro h a pid log ha hson
      exact logRows_spec ih succeeds ha (Grown.refl hson) (List.Subset.refl pids) log

/-! ## Termination -/

def logTree : Sys → List Row → Nat → Heap × List Row → Ptr → Int →
    Except Fault (Heap × List Row) :=
  logTreeBy fun temp q => temp.pid < q.pid

def logTreeName : Sys → List Row → Nat → Heap × List Row → Ptr → Int →
    Except Fault (Heap × List Row) :=
  logTreeBy fun temp q => temp.name.addr < q.name.addr

/-- Where the run ends, it returns, and `NewNode` was called for rows of the table, at most
once for each. -/
def CallsOnce (pids : List Row) (run : Nat → Except Fault Heap)
    (logged : Nat → Except Fault (Heap × List Row)) : Prop :=
  ∀ fuel, run fuel ≠ .error .endless → ∃ h' called, run fuel = .ok h' ∧
    logged fuel = .ok (h', called) ∧ called.Nodup ∧ called ⊆ pids

section Table

variable (distinct : (pids.map Row.pid).Nodup) (succeeds : ∀ row ∈ pids, Succeeds sys row.pid)
  (ha : a < h.size) (hson : (h.node a).firstSon = none)

include succeeds ha hson

/-- Where the unfolding goes on for ever, so does the run. -/
theorem constructTreeBy_endless (cmp : Int × Name → Int × Name → Bool)
    (hV : Forest.unfold (childPids pids) n r = none) :
    constructTreeBy (byKey cmp) sys pids n h (some a) r = .error .endless := by
  have hrun := logTreeBy_spec cmp succeeds n r [] ha hson
  rw [hV] at hrun
  have hendless : logTreeBy (byKey cmp) sys pids n (h, []) (some a) r = .error .endless := hrun
  rw [← logTreeBy_erase (h, []), hendless]
  rfl

/-- Where the unfolding ends, so does the run, with a call of `NewNode` for each process. -/
theorem constructTreeBy_returns (cmp : Int × Name → Int × Name → Bool) {V : Forest Int}
    (hV : Forest.unfold (childPids pids) n r = some V) :
    ∃ h' called, constructTreeBy (byKey cmp) sys pids n h (some a) r = .ok h' ∧
      logTreeBy (byKey cmp) sys pids n (h, []) (some a) r = .ok (h', called) ∧
      called.map Row.pid = V.toList ∧ called ⊆ pids := by
  have hrun := logTreeBy_spec cmp succeeds n r [] ha hson
  rw [hV] at hrun
  rcases hrun with ⟨h', F, called, hlog, _, hpids, hcalled⟩
  rw [List.nil_append] at hlog
  refine ⟨h', called, ?_, hlog, hpids, hcalled⟩
  rw [← logTreeBy_erase (h, []), hlog]
  rfl

include distinct

theorem constructTreeBy_terminates_iff (cmp : Int × Name → Int × Name → Bool) :
    Terminates (fun fuel => constructTreeBy (byKey cmp) sys pids fuel h (some a) r) ↔
      ¬ Descends pids r r := by
  constructor
  · rintro ⟨bound, hbound⟩ cycle
    refine hbound (bound + 1) (Nat.lt_succ_self bound) ?_
    refine constructTreeBy_endless succeeds ha hson cmp ?_
    by_contra hsome
    exact Forest.unfold_acyclic (Option.isSome_iff_ne_none.2 hsome) cycle
  · intro root
    refine ⟨pids.length, fun fuel hfuel => ?_⟩
    rcases Option.isSome_iff_exists.1 (unfold_isSome_of_root distinct root hfuel) with ⟨V, hV⟩
    rcases constructTreeBy_returns succeeds ha hson cmp hV with ⟨h', _, hrun, _⟩
    simp only [hrun]
    exact fun herror => by cases herror

theorem constructTreeBy_callsOnce (cmp : Int × Name → Int × Name → Bool) :
    CallsOnce pids (fun fuel => constructTreeBy (byKey cmp) sys pids fuel h (some a) r)
      fun fuel => logTreeBy (byKey cmp) sys pids fuel (h, []) (some a) r := by
  intro fuel hends
  cases hV : Forest.unfold (childPids pids) fuel r with
  | none => exact absurd (constructTreeBy_endless succeeds ha hson cmp hV) hends
  | some V =>
      rcases constructTreeBy_returns succeeds ha hson cmp hV with
        ⟨h', called, hrun, hlog, hpids, hsub⟩
      have root : ¬ Descends pids r r := Forest.unfold_acyclic (by rw [hV]; rfl)
      have hnodup := (List.nodup_cons.1 (unfold_distinct distinct root hV)).2
      rw [← hpids] at hnodup
      exact ⟨h', called, hrun, hlog, hnodup.of_map, hsub⟩

/-- `ConstructTree` and `ConstructTree_name` end exactly if `r` is not its own descendant,
and then `NewNode` is called at most once for each row. -/
theorem constructTree_terminates_iff :
    (Terminates (fun fuel => constructTree sys pids fuel h (some a) r) ↔ ¬ Descends pids r r) ∧
      (Terminates (fun fuel => constructTreeName sys pids fuel h (some a) r) ↔
        ¬ Descends pids r r) ∧
      CallsOnce pids (fun fuel => constructTree sys pids fuel h (some a) r)
        (fun fuel => logTree sys pids fuel (h, []) (some a) r) ∧
      CallsOnce pids (fun fuel => constructTreeName sys pids fuel h (some a) r)
        (fun fuel => logTreeName sys pids fuel (h, []) (some a) r) := by
  refine ⟨?_, ?_, ?_, ?_⟩
  · exact constructTreeBy_terminates_iff distinct succeeds ha hson pidBefore
  · exact constructTreeBy_terminates_iff distinct succeeds ha hson addrBefore
  · exact constructTreeBy_callsOnce distinct succeeds ha hson pidBefore
  · exact constructTreeBy_callsOnce distinct succeeds ha hson addrBefore

end Table

theorem Loads.succeeds (loads : Loads sys pid) : Succeeds sys pid := by
  intro n
  rcases loads n with ⟨node, hnode, _⟩
  exact ⟨node, hnode⟩

theorem constructTree_terminates_iff_threeProcesses :
    (Terminates (fun fuel => constructTree threeProcesses [⟨7, 1⟩, ⟨1, 7⟩, ⟨2, 0⟩] fuel
        (emptyHeap.push (emptyHeap.node 0)) (some 0) 0) ↔
      ¬ Descends [⟨7, 1⟩, ⟨1, 7⟩, ⟨2, 0⟩] 0 0) := by
  refine (constructTree_terminates_iff (by decide) ?_ (Nat.lt_succ_self 0) rfl).1
  intro row hrow
  refine Loads.succeeds (threeProcesses_snapshot.loads (.inr ?_))
  simp only [List.mem_cons, List.not_mem_nil, or_false] at hrow
  rcases hrow with rfl | rfl | rfl
  · decide
  · decide
  · decide

end OSLabs.Pstree
