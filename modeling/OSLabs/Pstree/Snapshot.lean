import OSLabs.Pstree.Construct

/-! # The tree of a process snapshot

On a snapshot of `/proc` the table of `getPIDs`, sorted, is read back as the child
relation of the snapshot, and the tree of `exe_n` and `exe_p` is its unfolding. The
row that `getPIDs` seeds repeats the one of the first process, which shows where the
parent of that process is the root.
-/

namespace OSLabs.Pstree

open Lib

variable {sys : Sys} {qsort : List Row → List Row} {fuel : Nat} {rootPID : Int}

def processes (sys : Sys) : List Int := (sys.dir.filter isNumeric).map atoi

/-- `c` is a listed process whose parent is `p`. -/
def ChildOf (sys : Sys) (p c : Int) : Prop := c ∈ processes sys ∧ getPPID sys c = .ok p

/-- A process snapshot: few enough distinct processes, whose stat files parse, the
first one below pid 0, all others below listed processes or pid 0, without cycles. -/
structure Snapshot (sys : Sys) : Prop where
  few : (processes sys).length ≤ 2999
  distinct : (processes sys).Nodup
  parses : ∀ p ∈ processes sys, ∃ file stat,
    sys.stat p = some file ∧ readStat file = .ok stat ∧ stat.pid = p
  first : ChildOf sys 0 1
  parents : ∀ p c, ChildOf sys p c → p = 0 ∨ p ∈ processes sys
  acyclic : ∀ p, ¬ Relation.TransGen (ChildOf sys) p p

structure CorrectSort (qsort : List Row → List Row) : Prop where
  perm : ∀ l, (qsort l).Perm l
  sorted : ∀ l, (qsort l).Pairwise fun a b => cmpPid a b ≤ 0

/-- The tree that is built shows `rootPID` and the processes below it, each once, and
nothing else. -/
def ShowsOnce (sys : Sys) (qsort : List Row → List Row) (fuel : Nat) (rootPID : Int) : Prop :=
  ∃ root h F, buildTree sys qsort fuel rootPID = .ok (root, h) ∧ Links h none 0 root F ∧
    (h.shown F).toList.Nodup ∧
    ∀ x, x ∈ (h.shown F).toList ↔ Relation.ReflTransGen (ChildOf sys) rootPID x

/-! ## Reading the table -/

def parentOf (sys : Sys) (p : Int) : Int :=
  match getPPID sys p with
  | .ok q => q
  | .error _ => 0

theorem getPPID_of_readStat {p : Int} {file : List Char} {stat : Stat}
    (hfile : sys.stat p = some file) (hstat : readStat file = .ok stat) :
    getPPID sys p = .ok stat.ppid := by
  simp only [readStat, bind_eq_ok, orFault_eq_ok] at hstat
  rcases hstat with ⟨line, hline, pid, _, tokens, htokens, word, _, ppid, hppid, hreturn⟩
  have hstat : (⟨pid, word, ppid⟩ : Stat) = stat := Except.ok.inj hreturn
  rw [getPPID, hfile, ← hstat]
  exact bind_eq_ok.2 ⟨line, hline, bind_eq_ok.2 ⟨tokens, htokens, orFault_eq_ok.2 hppid⟩⟩

theorem Snapshot.getPPID_eq (snap : Snapshot sys) {p : Int} (hp : p ∈ processes sys) :
    getPPID sys p = .ok (parentOf sys p) := by
  rcases snap.parses p hp with ⟨file, stat, hfile, hstat, _⟩
  rw [parentOf, getPPID_of_readStat hfile hstat]

theorem Snapshot.childOf_iff (snap : Snapshot sys) {p c : Int} :
    ChildOf sys p c ↔ c ∈ processes sys ∧ parentOf sys c = p := by
  refine and_congr_right fun hc => ?_
  rw [snap.getPPID_eq hc, Except.ok.injEq]

def tableOf (sys : Sys) : List Row :=
  ⟨1, 0⟩ :: (processes sys).map fun p => ⟨p, parentOf sys p⟩

theorem scanDir_spec (rest : List (List Char)) (pids : List Row)
    (parse : ∀ p ∈ (rest.filter isNumeric).map atoi, getPPID sys p = .ok (parentOf sys p))
    (room : pids.length + (rest.filter isNumeric).length ≤ maxRows) :
    scanDir sys rest pids =
      .ok (pids ++ ((rest.filter isNumeric).map atoi).map fun p => ⟨p, parentOf sys p⟩) := by
  induction rest generalizing pids with
  | nil => simp [scanDir]
  | cons name rest ih =>
      by_cases hnum : isNumeric name = true
      · simp only [List.filter_cons, hnum, if_true, List.length_cons, List.map_cons,
          List.mem_cons, forall_eq_or_imp] at parse room ⊢
        have hlt : pids.length < maxRows := by omega
        have hroom : (pids ++ [Row.mk (atoi name) (parentOf sys (atoi name))]).length +
            (rest.filter isNumeric).length ≤ maxRows := by
          simp only [List.length_append, List.length_singleton]
          omega
        simp [scanDir, hnum, parse.1, bind, Except.bind, hlt, ih _ parse.2 hroom]
      · simp only [List.filter_cons, hnum] at parse room ⊢
        simp only [scanDir, hnum]
        exact ih pids parse room

theorem getPIDs_eq (parse : ∀ p ∈ processes sys, getPPID sys p = .ok (parentOf sys p))
    (few : (processes sys).length ≤ 2999) : getPIDs sys = .ok (tableOf sys) := by
  rw [processes, List.length_map] at few
  have hroom : [Row.mk 1 0].length + (sys.dir.filter isNumeric).length ≤ maxRows := by
    simp only [List.length_singleton, maxRows]
    omega
  exact scanDir_spec sys.dir [⟨1, 0⟩] parse hroom

theorem Snapshot.getPIDs_eq (snap : Snapshot sys) : getPIDs sys = .ok (tableOf sys) :=
  Pstree.getPIDs_eq (fun _ hp => snap.getPPID_eq hp) snap.few

/-! ## The table as a graph -/

theorem Snapshot.mem_tableOf (snap : Snapshot sys) {p c : Int} :
    Row.mk c p ∈ tableOf sys ↔ ChildOf sys p c := by
  rw [snap.childOf_iff]
  simp only [tableOf, List.mem_cons, Row.mk.injEq, List.mem_map]
  constructor
  · intro h
    rcases h with ⟨rfl, rfl⟩ | ⟨x, hx, rfl, rfl⟩
    · exact snap.childOf_iff.1 snap.first
    · exact ⟨hx, rfl⟩
  · intro h
    exact .inr ⟨c, h.1, rfl, h.2⟩

theorem Snapshot.child_iff (snap : Snapshot sys) (hsort : CorrectSort qsort) {p c : Int} :
    Forest.Child (childPids (qsort (tableOf sys))) p c ↔ ChildOf sys p c := by
  rw [Forest.Child, mem_childPids, (hsort.perm _).mem_iff, snap.mem_tableOf]

theorem Snapshot.child_eq (snap : Snapshot sys) (hsort : CorrectSort qsort) :
    Forest.Child (childPids (qsort (tableOf sys))) = ChildOf sys := by
  funext p c
  exact propext (snap.child_iff hsort)

/-- Pid 0 is the parent of listed processes, but not listed: every listed process would
otherwise have a listed parent. -/
theorem Snapshot.zero_not_mem (snap : Snapshot sys) : (0 : Int) ∉ processes sys := by
  intro hzero
  have hup : ∀ p ∈ processes sys, parentOf sys p ∈ processes sys := by
    intro p hp
    rcases snap.parents _ p (snap.childOf_iff.2 ⟨hp, rfl⟩) with h | h
    · rw [h]; exact hzero
    · exact h
  obtain ⟨up, hupdef⟩ : ∃ up : Int → List Int,
      up = fun p => if p ∈ processes sys then [parentOf sys p] else [] := ⟨_, rfl⟩
  have hchild : ∀ {p q}, q ∈ up p → ChildOf sys q p := by
    intro p q h
    rw [hupdef] at h
    by_cases hp : p ∈ processes sys
    · simp only [hp, if_true, List.mem_singleton] at h
      exact snap.childOf_iff.2 ⟨hp, h.symm⟩
    · simp [hp] at h
  have hsome : (Forest.unfold up ((processes sys).length + 1) 0).isSome := by
    refine Forest.unfold_isSome (s := processes sys) ?_ ?_ (Nat.lt_succ_self _)
    · intro p q hq
      have hp := (hchild hq).1
      rw [(snap.childOf_iff.1 (hchild hq)).2.symm]
      exact hup p hp
    · intro y _ cycle
      have hswap : Relation.TransGen (Function.swap (ChildOf sys)) y y :=
        Relation.TransGen.mono (fun p q h => hchild h) y y cycle
      exact snap.acyclic y (Relation.transGen_swap.1 hswap)
  have hnone : Forest.unfold up ((processes sys).length + 1) 0 = none := by
    refine Forest.unfold_eq_none (fun p => p ∈ processes sys) ?_ hzero
    intro p hp
    refine ⟨parentOf sys p, ?_, hup p hp⟩
    rw [hupdef]
    simp [hp]
  rw [hnone] at hsome
  contradiction

theorem Snapshot.loads (snap : Snapshot sys) {p : Int} (hp : p = 0 ∨ p ∈ processes sys) :
    Loads sys p := by
  intro n
  by_cases hzero : p = 0
  · subst hzero
    exact ⟨_, rfl, rfl⟩
  · rcases snap.parses p (hp.resolve_left hzero) with ⟨file, stat, hfile, hstat, hpid⟩
    exact ⟨
      { pid := stat.pid, name := stripParens (sys.nameBuf n) stat.word, ppid := stat.ppid,
        depth := 0, parent := none, firstSon := none, nextSibling := none },
      by simp [freshNode, hzero, hfile, hstat, bind, Except.bind, pure, Except.pure], hpid⟩

/-! ## The order of the table -/

/-- In a sorted list without three equal elements new elements may be appended. -/
theorem appendable_of_sorted {l : List Int} (sorted : l.Pairwise (· ≤ ·))
    (twice : ∀ x, l.count x ≤ 2) : Appendable l := by
  intro xs y zs hl x hx
  rcases List.eq_nil_or_concat xs with rfl | ⟨xs', w, rfl⟩
  · simp at hx
  · rw [List.concat_eq_append] at hl hx
    rw [List.dropLast_concat] at hx
    have hcount := twice x
    rw [hl] at sorted hcount
    rcases List.pairwise_append.1 sorted with ⟨hxs, _, hcross⟩
    have hxw : x ≤ w := (List.pairwise_append.1 hxs).2.2 x hx w (by simp)
    have hwy : w ≤ y := hcross w (by simp) y (by simp)
    by_contra hnot
    have hw : w = x := by omega
    have hy : y = x := by omega
    have hpos : 0 < xs'.count x := List.count_pos_iff.2 hx
    rw [hw, hy] at hcount
    simp only [List.count_append, List.count_cons_self, List.count_nil] at hcount
    omega

/-- Only the row of the first process may occur twice. -/
theorem tableOf_order (distinct : (processes sys).Nodup) (hsort : CorrectSort qsort) (p : Int) :
    Appendable (childPids (qsort (tableOf sys)) p) := by
  apply appendable_of_sorted
  · refine List.pairwise_map.2 (((hsort.sorted (tableOf sys)).filter _).imp ?_)
    intro a b hab
    have hle : a.pid - b.pid ≤ 0 := hab
    omega
  · intro x
    have hsub : (childPids (qsort (tableOf sys)) p).Sublist ((qsort (tableOf sys)).map Row.pid) :=
      List.filter_sublist.map _
    have hperm := ((hsort.perm (tableOf sys)).map Row.pid).count_eq x
    have htable : (tableOf sys).map Row.pid = 1 :: processes sys := by
      simp [tableOf, Function.comp_def]
    have honce := List.nodup_iff_count_le_one.1 distinct x
    have hle := hsub.count_le x
    rw [hperm, htable, List.count_cons] at hle
    split at hle <;> omega

theorem Snapshot.order (snap : Snapshot sys) (hsort : CorrectSort qsort) (p : Int) :
    Appendable (childPids (qsort (tableOf sys)) p) :=
  tableOf_order snap.distinct hsort p

/-! ## The tree -/

theorem addNewNode_root (loads : Loads sys rootPID) :
    ∃ node, addNewNode sys emptyHeap rootPID none = .ok (some 0, emptyHeap.push node) ∧
      node.pid = rootPID ∧ node.parent = none ∧ node.depth = 0 ∧ node.firstSon = none ∧
      node.nextSibling = none := by
  rcases loads 0 with ⟨node, hnode, hpid⟩
  refine ⟨node, ?_, hpid, freshNode_links hnode⟩
  have hnode' : freshNode sys emptyHeap.size rootPID = .ok (some node) := hnode
  simp only [addNewNode, newNode, hnode', bind, Except.bind, pure, Except.pure]
  rfl

theorem Grown.tree {node : PsNode} {h : Heap} {F : Forest Nat}
    (hgrown : Grown (emptyHeap.push node) 0 h F) (hpar : node.parent = none)
    (hdepth : node.depth = 0) (hnext : node.nextSibling = none) :
    (h.node 0).pid = node.pid ∧ Links h none 0 (some 0) (.cons 0 F .nil) := by
  have hnode0 : (emptyHeap.push node).node 0 = node := Heap.push_self emptyHeap node
  have hself : h.node 0 = { node with firstSon := (h.node 0).firstSon } := by
    rw [hgrown.node, hnode0]
  have hlinks := hgrown.links
  rw [hnode0, hdepth] at hlinks
  refine ⟨by rw [hself], rfl, by rw [hself, hpar], by rw [hself, hdepth], hlinks, ?_⟩
  rw [hself]
  exact hnext

theorem Snapshot.buildTree_eq (snap : Snapshot sys) (hsort : CorrectSort qsort)
    (hroot : rootPID = 0 ∨ rootPID ∈ processes sys) (hfuel : (processes sys).length < fuel) :
    ∃ h F V, buildTree sys qsort fuel rootPID = .ok (some 0, h) ∧
      Links h none 0 (some 0) (.cons 0 F .nil) ∧
      h.shown (.cons 0 F .nil) = .cons rootPID V .nil ∧
      Forest.unfold (childPids (qsort (tableOf sys))) fuel rootPID = some V := by
  have hclosed : ∀ p, ∀ c ∈ childPids (qsort (tableOf sys)) p, c ∈ processes sys :=
    fun p c hc => ((snap.child_iff hsort).1 hc).1
  have hsome : (Forest.unfold (childPids (qsort (tableOf sys))) fuel rootPID).isSome := by
    refine Forest.unfold_isSome hclosed ?_ hfuel
    intro y _
    rw [snap.child_eq hsort]
    exact snap.acyclic y
  rcases Option.isSome_iff_exists.1 hsome with ⟨V, hV⟩
  rcases addNewNode_root (snap.loads hroot) with
    ⟨node, hnew, hpid, hpar, hdepth, hson, hnext⟩
  have hloads : ∀ row ∈ qsort (tableOf sys), Loads sys row.pid := by
    intro row hrow
    have hchild : ChildOf sys row.ppid row.pid :=
      snap.mem_tableOf.1 ((hsort.perm _).mem_iff.1 hrow)
    exact snap.loads (.inr hchild.1)
  have hfirst : ((emptyHeap.push node).node 0).firstSon = none := by
    rw [show (emptyHeap.push node).node 0 = node from Heap.push_self emptyHeap node, hson]
  rcases constructTree_spec hloads (snap.order hsort) fuel (Nat.lt_succ_self 0) hfirst hV with
    ⟨h, F, hcall, hgrown, hF⟩
  rcases hgrown.tree hpar hdepth hnext with ⟨hself, hlinks⟩
  refine ⟨h, F, V, ?_, hlinks, ?_, hV⟩
  · simp only [buildTree, snap.getPIDs_eq, hnew, hcall, bind, Except.bind, pure, Except.pure]
  · rw [Heap.shown_cons, hF, hself, hpid]
    rfl

/-! ## Every process once -/

theorem CorrectSort.childPids_perm (hsort : CorrectSort qsort) (l : List Row) (p : Int) :
    (childPids (qsort l) p).Perm (childPids l p) :=
  ((hsort.perm l).filter _).map _

/-- Below pid 0 the first process shows twice: once for the seeded row. -/
theorem Snapshot.two_le_count (snap : Snapshot sys) (hsort : CorrectSort qsort) :
    2 ≤ (childPids (qsort (tableOf sys)) 0).count 1 := by
  have hmem : (1 : Int) ∈ childPids ((processes sys).map fun p => ⟨p, parentOf sys p⟩) 0 := by
    rcases snap.childOf_iff.1 snap.first with ⟨hone, hparent⟩
    rw [mem_childPids]
    exact List.mem_map.2 ⟨1, hone, by rw [hparent]⟩
  rw [(hsort.childPids_perm _ _).count_eq, tableOf, childPids_cons_of_eq rfl,
    List.count_cons_self]
  exact Nat.succ_le_succ (List.count_pos_iff.2 hmem)

theorem tableOf_nodup (distinct : (processes sys).Nodup) (hsort : CorrectSort qsort) {p : Int}
    (hp : p ≠ 0) : (childPids (qsort (tableOf sys)) p).Nodup := by
  have hseed : Row.ppid ⟨1, 0⟩ ≠ p := hp.symm
  rw [(hsort.childPids_perm _ _).nodup_iff, tableOf, childPids_cons_of_ne hseed]
  refine List.Nodup.sublist (List.filter_sublist.map _) ?_
  rw [List.map_map]
  simpa [Function.comp_def] using distinct

theorem Snapshot.showsOnce (snap : Snapshot sys) (hsort : CorrectSort qsort)
    (hroot : rootPID ∈ processes sys) (hfuel : (processes sys).length < fuel) :
    ShowsOnce sys qsort fuel rootPID := by
  rcases snap.buildTree_eq hsort (.inr hroot) hfuel with ⟨h, F, V, hbuild, hlinks, hshown, hV⟩
  have hmem : ∀ x, x ∈ V.toList ↔ Relation.TransGen (ChildOf sys) rootPID x := by
    intro x
    rw [Forest.mem_unfold hV, snap.child_eq hsort]
  have hunique : ∀ {p q c}, c ∈ childPids (qsort (tableOf sys)) p →
      c ∈ childPids (qsort (tableOf sys)) q → p = q := by
    intro p q c hp hq
    have hp' := (snap.childOf_iff.1 ((snap.child_iff hsort).1 hp)).2
    have hq' := (snap.childOf_iff.1 ((snap.child_iff hsort).1 hq)).2
    exact hp'.symm.trans hq'
  have hbelow : ∀ p, Relation.ReflTransGen (Forest.Child (childPids (qsort (tableOf sys))))
      rootPID p → (childPids (qsort (tableOf sys)) p).Nodup := by
    intro p hreach
    apply tableOf_nodup snap.distinct hsort
    rintro rfl
    rw [snap.child_eq hsort] at hreach
    apply snap.zero_not_mem
    cases hreach with
    | refl => exact hroot
    | tail _ hchild => exact hchild.1
  refine ⟨some 0, h, .cons 0 F .nil, hbuild, hlinks, ?_, ?_⟩
  · rw [hshown]
    simp only [Forest.toList_cons, Forest.toList_nil, List.append_nil, List.nodup_cons]
    refine ⟨?_, Forest.unfold_nodup hunique hbelow hV⟩
    rw [hmem]
    exact snap.acyclic rootPID
  · intro x
    rw [hshown, Relation.reflTransGen_iff_eq_or_transGen]
    simp [hmem]

theorem Snapshot.not_showsOnce_zero (snap : Snapshot sys) (hsort : CorrectSort qsort)
    (hfuel : (processes sys).length < fuel) : ¬ ShowsOnce sys qsort fuel 0 := by
  intro hshows
  rcases snap.buildTree_eq hsort (.inl rfl) hfuel with ⟨h, F, V, hbuild, hlinks, hshown, hV⟩
  rcases hshows with ⟨root, h', F', hbuild', hlinks', hnodup, _⟩
  have heq := Except.ok.inj (hbuild.symm.trans hbuild')
  simp only [Prod.mk.injEq] at heq
  rcases heq with ⟨rfl, rfl⟩
  rw [← hlinks.unique hlinks', hshown] at hnodup
  simp only [Forest.toList_cons, Forest.toList_nil, List.append_nil, List.nodup_cons] at hnodup
  have htwo := snap.two_le_count hsort
  rw [← Forest.unfold_roots hV] at htwo
  have hle := V.roots_sublist.count_le (1 : Int)
  have honce := List.nodup_iff_count_le_one.1 hnodup.2 1
  omega

/-- On every process snapshot, the tree shows its root and all processes below it, each
once and nothing else, exactly if the root is not pid 0. -/
theorem pstree_shows_once (snap : Snapshot sys) (hsort : CorrectSort qsort)
    (hroot : rootPID = 0 ∨ rootPID ∈ processes sys) (hfuel : (processes sys).length < fuel) :
    ShowsOnce sys qsort fuel rootPID ↔ rootPID ≠ 0 := by
  constructor
  · rintro hshows rfl
    exact snap.not_showsOnce_zero hsort hfuel hshows
  · intro hne
    exact snap.showsOnce hsort (hroot.resolve_left hne) hfuel

/-- `qsort(pids, n, sizeof(int) * 2, cmp_pid)`. -/
def sortByPid (pids : List Row) : List Row := pids.mergeSort fun a b => cmpPid a b ≤ 0

theorem sortByPid_correct : CorrectSort sortByPid where
  perm := fun l => List.mergeSort_perm l _
  sorted := by
    intro l
    have htrans : ∀ a b c : Row, decide (cmpPid a b ≤ 0) = true →
        decide (cmpPid b c ≤ 0) = true → decide (cmpPid a c ≤ 0) = true := by
      intro a b c hab hbc
      have hab' : a.pid - b.pid ≤ 0 := of_decide_eq_true hab
      have hbc' : b.pid - c.pid ≤ 0 := of_decide_eq_true hbc
      exact decide_eq_true (show a.pid - c.pid ≤ 0 by omega)
    have htotal : ∀ a b : Row, (decide (cmpPid a b ≤ 0) || decide (cmpPid b a ≤ 0)) = true := by
      intro a b
      rw [Bool.or_eq_true, decide_eq_true_eq, decide_eq_true_eq]
      change a.pid - b.pid ≤ 0 ∨ b.pid - a.pid ≤ 0
      omega
    exact (List.pairwise_mergeSort htrans htotal l).imp fun h => of_decide_eq_true h

/-- `/proc` with the processes 7, 1 and 2; 7 is a child of 1. -/
def threeProcesses : Sys where
  dir := [['7'], ['s', 'e', 'l', 'f'], ['1'], ['2']]
  stat := fun pid =>
    if pid = 1 then some ['1', ' ', '(', 'i', ')', ' ', 'S', ' ', '0', ' ']
    else if pid = 2 then some ['2', ' ', '(', 'k', ')', ' ', 'S', ' ', '0', ' ']
    else if pid = 7 then some ['7', ' ', '(', 's', 'h', ')', ' ', 'R', ' ', '1', ' ']
    else none
  nameBuf := fun n => 1024 * n
  literal := 0

theorem threeProcesses_snapshot : Snapshot threeProcesses := by
  have hlist : processes threeProcesses = [7, 1, 2] := by decide
  have hchild : ∀ p c, ChildOf threeProcesses p c → p = 0 ∧ (c = 1 ∨ c = 2) ∨ p = 1 ∧ c = 7 := by
    rintro p c ⟨hc, hp⟩
    rw [hlist] at hc
    simp only [List.mem_cons, List.not_mem_nil, or_false] at hc
    rcases hc with rfl | rfl | rfl
    · exact .inr ⟨(Except.ok.inj hp).symm, rfl⟩
    · exact .inl ⟨(Except.ok.inj hp).symm, .inl rfl⟩
    · exact .inl ⟨(Except.ok.inj hp).symm, .inr rfl⟩
  have hlt : ∀ p c, Relation.TransGen (ChildOf threeProcesses) p c → p < c := by
    intro p c h
    induction h with
    | single h => have := hchild _ _ h; omega
    | tail _ h ih => have := hchild _ _ h; omega
  exact
    { few := by rw [hlist]; decide
      distinct := by rw [hlist]; decide
      parses := by
        intro p hp
        rw [hlist] at hp
        simp only [List.mem_cons, List.not_mem_nil, or_false] at hp
        rcases hp with rfl | rfl | rfl
        · exact ⟨_, ⟨7, ['(', 's', 'h', ')'], 1⟩, rfl, rfl, rfl⟩
        · exact ⟨_, ⟨1, ['(', 'i', ')'], 0⟩, rfl, rfl, rfl⟩
        · exact ⟨_, ⟨2, ['(', 'k', ')'], 0⟩, rfl, rfl, rfl⟩
      first := ⟨by rw [hlist]; decide, rfl⟩
      parents := by
        intro p c h
        rw [hlist]
        rcases hchild p c h with ⟨rfl, _⟩ | ⟨rfl, _⟩
        · exact .inl rfl
        · exact .inr (by decide)
      acyclic := fun p h => Int.lt_irrefl p (hlt p p h) }

theorem pstree_shows_once_threeProcesses : ShowsOnce threeProcesses sortByPid 4 1 :=
  (pstree_shows_once threeProcesses_snapshot sortByPid_correct (.inr (by decide))
    (by decide)).2 (by decide)

/-- From pid 0, process 1 and its child show twice. -/
theorem threeProcesses_from_zero : Snapshot threeProcesses ∧ CorrectSort sortByPid ∧
    ∀ fuel > 3, ¬ ShowsOnce threeProcesses sortByPid fuel 0 := by
  refine ⟨threeProcesses_snapshot, sortByPid_correct, ?_⟩
  intro fuel hfuel
  exact threeProcesses_snapshot.not_showsOnce_zero sortByPid_correct
    (Nat.lt_of_le_of_lt (by decide) hfuel)

end OSLabs.Pstree
