import OSLabs.Pstree.Snapshot

/-! # What a run that returns must have found

The loops check nothing: `ConstructTree` returns only if the stat file of every process below
its node could be opened and the node is there, unless there is no such process; `getPIDs`
returns only if the entries fit into the table.
-/

namespace OSLabs.Pstree

open Lib

variable {sys : Sys} {go : PsNode → PsNode → Bool} {pids : List Row} {h h' : Heap} {p : Ptr}
  {pid c : Int} {n : Nat}

theorem foldlM_eq_ok {α β : Type} {f : β → α → Except Fault β} {l : List α} {b b' : β}
    (hok : l.foldlM f b = .ok b') : ∀ x ∈ l, ∃ s t, f s x = .ok t := by
  induction l generalizing b with
  | nil => simp
  | cons y l ih =>
      rw [List.foldlM_cons, bind_eq_ok] at hok
      rcases hok with ⟨t, hy, hrest⟩
      intro x hx
      rcases List.mem_cons.1 hx with rfl | hx
      · exact ⟨b, t, hy⟩
      · exact ih hrest x hx

def Opens (sys : Sys) (pid : Int) : Prop := pid = 0 ∨ (sys.stat pid).isSome = true

/-! ## ConstructTree -/

theorem newNode_none (hclosed : ¬ Opens sys pid) (h : Heap) : newNode sys h pid = .ok (none, h) := by
  rw [Opens, not_or, Bool.not_eq_true, Option.isSome_eq_false_iff, Option.isNone_iff_eq_none]
    at hclosed
  simp [newNode, freshNode, hclosed.1, hclosed.2, bind, Except.bind, pure, Except.pure]

/-- The writes through `p` and `q` go through only if neither is `NULL`. -/
theorem addSon_eq_ok {row : Row} {son : Ptr × Heap} (hok : addSon go sys h p row = .ok son) :
    (∃ a, p = some a) ∧ (∃ q, son.1 = some q) ∧ Opens sys row.pid := by
  simp only [addSon, bind_eq_ok] at hok
  rcases hok with ⟨new, hnew, h₁, hset, node, hget, h₂, _, h₃, _, hreturn⟩
  have hson : (new.1, h₃) = son := Except.ok.inj hreturn
  refine ⟨?_, ?_, ?_⟩
  · cases p with
    | none => cases hget
    | some a => exact ⟨a, rfl⟩
  · rw [← hson]
    cases hq : new.1 with
    | none =>
        rw [hq] at hset
        cases hset
    | some q => exact ⟨q, rfl⟩
  · by_contra hclosed
    rw [newNode_none hclosed] at hnew
    rw [← Except.ok.inj hnew] at hset
    cases hset

theorem constructRow_eq_ok {construct : Heap → Ptr → Int → Except Fault Heap} {row : Row}
    (hrow : row.ppid = pid) (hok : constructRow go sys construct p pid h row = .ok h') :
    (∃ a, p = some a) ∧ Opens sys row.pid ∧
      ∃ h₁ q, construct h₁ (some q) row.pid = .ok h' := by
  rw [constructRow, if_pos hrow, bind_eq_ok] at hok
  rcases hok with ⟨son, hson, hcall⟩
  rcases addSon_eq_ok hson with ⟨hp, ⟨q, hq⟩, hopens⟩
  rw [hq] at hcall
  exact ⟨hp, hopens, son.2, q, hcall⟩

/-- Where `ConstructTree` returns, all processes below its node could be opened. -/
theorem constructTreeBy_opens (hok : constructTreeBy go sys pids n h p pid = .ok h')
    (hc : Relation.TransGen (Forest.Child (childPids pids)) pid c) : Opens sys c := by
  induction n generalizing h p pid h' with
  | zero => cases hok
  | succ n ih =>
      rcases Relation.TransGen.head'_iff.1 hc with ⟨d, hd, hdc⟩
      rcases foldlM_eq_ok hok _ (mem_childPids.1 hd) with ⟨h₁, h₂, hrow⟩
      rcases constructRow_eq_ok rfl hrow with ⟨_, hopens, h₃, q, hcall⟩
      rcases Relation.reflTransGen_iff_eq_or_transGen.1 hdc with rfl | hdc
      · exact hopens
      · exact ih hcall hdc

theorem constructTreeBy_null (hok : constructTreeBy go sys pids n h none pid = .ok h') :
    childPids pids pid = [] := by
  cases n with
  | zero => cases hok
  | succ n =>
      refine List.eq_nil_iff_forall_not_mem.2 fun d hd => ?_
      rcases foldlM_eq_ok hok _ (mem_childPids.1 hd) with ⟨h₁, h₂, hrow⟩
      rcases constructRow_eq_ok rfl hrow with ⟨⟨a, ha⟩, _⟩
      cases ha

theorem constructRows_skip {construct : Heap → Ptr → Int → Except Fault Heap} {rows : List Row}
    (hrows : ∀ row ∈ rows, row.ppid ≠ pid) :
    rows.foldlM (constructRow go sys construct p pid) h = .ok h := by
  induction rows with
  | nil => rfl
  | cons row rows ih =>
      rw [List.foldlM_cons, constructRow, if_neg (hrows row (by simp))]
      exact ih fun r hr => hrows r (by simp [hr])

theorem constructTreeBy_leaf (hleaf : childPids pids pid = []) (h : Heap) (p : Ptr) :
    constructTreeBy go sys pids (n + 1) h p pid = .ok h := by
  refine constructRows_skip fun row hrow hpid => ?_
  have hmem : row.pid ∈ childPids pids pid := mem_childPids.2 (hpid ▸ hrow)
  rw [hleaf] at hmem
  cases hmem

/-! ## getPIDs -/

/-- An entry that does not fit is written behind the table. -/
theorem scanDir_full (rest : List (List Char)) (pids : List Row)
    (parse : ∀ p ∈ (rest.filter isNumeric).map atoi, getPPID sys p = .ok (parentOf sys p))
    (room : pids.length ≤ maxRows)
    (full : maxRows < pids.length + (rest.filter isNumeric).length) :
    scanDir sys rest pids = .error .outOfRange := by
  induction rest generalizing pids with
  | nil =>
      rw [List.filter_nil, List.length_nil] at full
      omega
  | cons name rest ih =>
      by_cases hnum : isNumeric name = true
      · simp only [List.filter_cons, hnum, if_true, List.length_cons, List.map_cons,
          List.mem_cons, forall_eq_or_imp] at parse full
        by_cases hlt : pids.length < maxRows
        · have hlen : (pids ++ [Row.mk (atoi name) (parentOf sys (atoi name))]).length =
              pids.length + 1 := by rw [List.length_append, List.length_singleton]
          have hrest := ih _ parse.2 (by rw [hlen]; omega) (by rw [hlen]; omega)
          simp [scanDir, hnum, parse.1, bind, Except.bind, hlt, hrest]
        · simp [scanDir, hnum, parse.1, bind, Except.bind, hlt]
      · simp only [List.filter_cons, hnum] at parse full
        simp only [scanDir, hnum]
        exact ih pids parse room full

theorem getPIDs_full (parse : ∀ p ∈ processes sys, getPPID sys p = .ok (parentOf sys p))
    (full : 2999 < (processes sys).length) : getPIDs sys = .error .outOfRange := by
  rw [processes, List.length_map] at full
  refine scanDir_full sys.dir [⟨1, 0⟩] parse (by simp [maxRows]) ?_
  simp only [List.length_singleton, maxRows]
  omega

end OSLabs.Pstree
