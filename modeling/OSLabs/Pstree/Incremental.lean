import OSLabs.Lib.Growth
import OSLabs.Pstree.Ordered

/-! # Row by row and by recursion

`addNewNode` for one row after the other finds the parent of each with `getNode` and puts
the node behind its last son. On a table with ascending pids in which parents come before
their sons, the tree after every prefix is the unfolding of that prefix, and in the end the
one that `ConstructTree` builds.
-/

namespace OSLabs.Pstree

open Lib

variable {sys : Sys} {pids done rest : List Row} {h h' : Heap} {F S T : Forest Nat}
  {p : Nat} {pt par : Ptr} {q n fuel : Nat} {d pid rootPID : Int} {row : Row}

/-- `NewNode` finds in the stat file what the table says. -/
def Consistent (sys : Sys) (row : Row) : Prop :=
  ∀ n, ∃ node, freshNode sys n row.pid = .ok (some node) ∧ node.pid = row.pid ∧
    node.ppid = row.ppid

/-- `addNewNode` for the rows other than `rootPID`, in table order. -/
def addRows (sys : Sys) (rootPID : Int) (pids : List Row) (s : Ptr × Heap) :
    Except Fault (Ptr × Heap) :=
  (pids.filter fun row => row.pid ≠ rootPID).foldlM
    (fun s row => addNewNode sys s.2 row.pid s.1) s

/-- The tree that grows row by row from `NewNode(rootPID)`. -/
def growTree (sys : Sys) (pids : List Row) (rootPID : Int) : Except Fault (Ptr × Heap) := do
  let new ← newNode sys emptyHeap rootPID
  addRows sys rootPID pids new

/-- The tree that `ConstructTree` builds below `NewNode(rootPID)`. -/
def recurseTree (sys : Sys) (pids : List Row) (fuel : Nat) (rootPID : Int) :
    Except Fault (Ptr × Heap) := do
  let new ← newNode sys emptyHeap rootPID
  let h ← constructTree sys pids fuel new.2 new.1 rootPID
  return (new.1, h)

/-! ## Looking for a node -/

theorem getNode_spec (hl : Links h par d pt F) (hfuel : F.toList.length ≤ fuel) :
    getNode h pid fuel pt = .ok (F.toList.find? fun x => (h.node x).pid = pid) := by
  induction F generalizing par d pt fuel with
  | nil =>
      have hpt : pt = none := hl
      subst hpt
      cases fuel <;> rfl
  | cons a sons siblings ihs ih =>
      rcases hl with ⟨rfl, _, _, hsons, hsibs⟩
      rw [Forest.toList_cons, List.length_cons, List.length_append] at hfuel
      cases fuel with
      | zero => omega
      | succ fuel =>
          rw [getNode, Forest.toList_cons, List.find?_cons]
          by_cases ha : (h.node a).pid = pid
          · simp [ha]
          · rw [if_neg ha, ihs hsons (by omega), List.find?_append]
            simp only [ha, decide_false]
            cases sons.toList.find? fun x => (h.node x).pid = pid with
            | none => exact ih hsibs (by omega)
            | some x => rfl

/-! ## A new leaf -/

theorem Links.sons_subset (hl : Links h par d pt F) (hp : p ∈ F.toList)
    (hS : Links h (some p) ((h.node p).depth + 1) (h.node p).firstSon S) :
    ∀ x ∈ S.toList, x ∈ F.toList := by
  rcases (hl.all.and F.all_mem).of_mem hp with ⟨sons, hsons, hmem⟩
  rw [hS.unique hsons]
  exact hmem.2

/-- A new last son of one node is a new leaf of the forest. -/
theorem Links.addLeaf (hl : Links h par d pt F) (hnodup : F.toList.Nodup) (hp : p ∈ F.toList)
    (hS : Links h (some p) ((h.node p).depth + 1) (h.node p).firstSon S)
    (frame : ∀ x ∈ F.toList, x ≠ p → x ∉ S.toList → h'.node x = h.node x)
    (node : h'.node p = { h.node p with firstSon := (h'.node p).firstSon })
    (hS' : Links h' (some p) ((h.node p).depth + 1) (h'.node p).firstSon
      (S.append (.cons q .nil .nil))) : Links h' par d pt (F.addLeaf p q) := by
  induction F generalizing par d pt with
  | nil => simp at hp
  | cons a sons siblings ihs ih =>
      rcases hl with ⟨hpt, hpar, hdepth, hsons, hsibs⟩
      simp only [Forest.toList_cons, List.nodup_cons, List.mem_append, not_or,
        List.nodup_append] at hnodup
      rcases hnodup with ⟨⟨hasons, hasibs⟩, hnsons, hnsibs, hapart⟩
      simp only [Forest.toList_cons, List.mem_cons, List.mem_append, forall_eq_or_imp] at frame hp
      rw [Forest.addLeaf]
      by_cases ha : a = p
      · subst ha
        have hSsons : S = sons := by
          rw [← hdepth] at hsons
          exact hS.unique hsons
        subst hSsons
        rw [if_pos rfl, Forest.addLeaf_of_not_mem hasons, Forest.addLeaf_of_not_mem hasibs]
        rw [hdepth] at hS'
        refine ⟨hpt, by rw [node]; exact hpar, by rw [node]; exact hdepth, hS', ?_⟩
        rw [node]
        refine hsibs.congr fun x hx => frame.2 x (.inr hx) ?_ ?_
        · exact fun hxa => hasibs (hxa ▸ hx)
        · exact fun hxS => hapart x hxS x hx rfl
      · rw [if_neg ha]
        rcases hp with hpa | hp | hp
        · exact absurd hpa.symm ha
        · -- `p` and its sons are below `a`
          have hSsub := hsons.sons_subset hp hS
          have hnode : h'.node a = h.node a := frame.1 ha fun haS => hasons (hSsub a haS)
          have hpsibs : p ∉ siblings.toList := fun hmem => hapart p hp p hmem rfl
          rw [Forest.addLeaf_of_not_mem hpsibs]
          refine ⟨hpt, by rw [hnode]; exact hpar, by rw [hnode]; exact hdepth, ?_, ?_⟩
          · rw [hnode]
            exact ihs hsons hnsons hp fun x hx => frame.2 x (.inl hx)
          · rw [hnode]
            refine hsibs.congr fun x hx => frame.2 x (.inr hx) ?_ ?_
            · exact fun hxp => hpsibs (hxp ▸ hx)
            · exact fun hxS => hapart x (hSsub x hxS) x hx rfl
        · -- `p` and its sons are behind `a`
          have hSsub := hsibs.sons_subset hp hS
          have hnode : h'.node a = h.node a := frame.1 ha fun haS => hasibs (hSsub a haS)
          have hpsons : p ∉ sons.toList := fun hmem => hapart p hmem p hp rfl
          rw [Forest.addLeaf_of_not_mem hpsons]
          refine ⟨hpt, by rw [hnode]; exact hpar, by rw [hnode]; exact hdepth, ?_, ?_⟩
          · rw [hnode]
            refine hsons.congr fun x hx => frame.2 x (.inl hx) ?_ ?_
            · exact fun hxp => hpsons (hxp ▸ hx)
            · exact fun hxS => hapart x hx x (hSsub x hxS) rfl
          · rw [hnode]
            exact ih hsibs hnsibs hp fun x hx => frame.2 x (.inr hx)

structure Appended (h : Heap) (p q : Nat) (S : Forest Nat) (h' : Heap) : Prop where
  size : h'.size = h.size
  pids : ∀ x, (h'.node x).pid = (h.node x).pid
  frame : ∀ x, x ≠ p → x ∉ S.toList → h'.node x = h.node x
  node : h'.node p = { h.node p with firstSon := (h'.node p).firstSon }
  links : Links h' (some p) ((h.node p).depth + 1) (h'.node p).firstSon
    (S.append (.cons q .nil .nil))

theorem insertSon_last (hS : Links h (some p) ((h.node p).depth + 1) (h.node p).firstSon S)
    (hnodup : S.toList.Nodup) (hlength : S.roots.length ≤ h.size + 1) (hpS : p ∉ S.toList)
    (hq : q ∉ S.toList) (hpq : q ≠ p)
    (leaf : Links h (some p) ((h.node p).depth + 1) (some q) (.cons q .nil .nil)) :
    ∃ h', insertSon (fun _ _ => true) h (some p) (some q) = .ok h' ∧ Appended h p q S h' := by
  have hkeys : ∀ (l : Nat) (f : PsNode → PsNode), (∀ m, (f m).pid = m.pid) →
      ∀ x, ((h.modify l f).node x).pid = (h.node x).pid := by
    intro l f hf x
    by_cases hx : x = l
    · rw [hx, Heap.modify_self, hf]
    · rw [Heap.modify_of_ne _ _ hx]
  have hleaf : ∀ (l : Nat) (f : PsNode → PsNode), q ≠ l →
      Links (h.modify l f) (some p) ((h.node p).depth + 1) (some q) (.cons q .nil .nil) := by
    intro l f hl
    refine leaf.congr fun x hx => ?_
    have hxq : x = q := by simpa using hx
    rw [hxq, Heap.modify_of_ne _ _ hl]
  cases S with
  | nil =>
      have hfirst : (h.node p).firstSon = none := hS
      refine ⟨h.modify p fun m => { m with firstSon := some q }, ?_, rfl, hkeys _ _ fun _ => rfl,
        fun x hx _ => Heap.modify_of_ne _ _ hx, ?_, ?_⟩
      · simp [insertSon, bind, Except.bind, hfirst]
      · rw [Heap.modify_self]
      · rw [Heap.modify_self]
        exact hleaf _ _ hpq
  | cons b sons siblings =>
      have hfirst : (h.node p).firstSon = some b := hS.1
      rw [hfirst] at hS
      rcases walk_spec (fun _ => true) hS hlength with ⟨l, hlast, hwalk⟩
      have hl : l ∈ (Forest.cons b sons siblings).toList := by
        rw [Forest.keepTo_eq fun _ _ => rfl] at hlast
        exact (Forest.roots_sublist _).subset (List.mem_of_getLast? hlast)
      have hlp : p ≠ l := fun hpl => hpS (hpl ▸ hl)
      have hlq : q ≠ l := fun hql => hq (hql ▸ hl)
      have hinsert := hS.insert hnodup hlast (fun x _ hx => Heap.modify_of_ne _ _ hx)
        (Heap.modify_self h l fun m => { m with nextSibling := some q }) (hleaf _ _ hlq)
      rw [Forest.keepTo_eq fun _ _ => rfl] at hinsert
      refine ⟨h.modify l fun m => { m with nextSibling := some q }, ?_, rfl,
        hkeys _ _ fun _ => rfl, ?_, ?_, ?_⟩
      · simp [insertSon, bind, Except.bind, hfirst, hwalk]
      · exact fun x _ hx => Heap.modify_of_ne _ _ fun hxl => hx (hxl ▸ hl)
      · rw [Heap.modify_of_ne _ _ hlp]
      · rw [Heap.modify_of_ne _ _ hlp, hfirst]
        exact hinsert

/-! ## One row -/

/-- After the rows `done`, the tree is `T`, which shows the unfolding of these rows. -/
structure RowTree (done : List Row) (rootPID : Int) (h : Heap) (T : Forest Nat) : Prop where
  links : Links h none 0 (some 0) T
  cells : ∀ x ∈ T.toList, x < h.size
  nodup : (h.shown T).toList.Nodup
  shown : ∃ V, Forest.unfold (childPids done) (done.length + 1) rootPID = some V ∧
    h.shown T = .cons rootPID V .nil

theorem Heap.shown_congr (same : ∀ x ∈ F.toList, (h'.node x).pid = (h.node x).pid) :
    h'.shown F = h.shown F :=
  Forest.map_congr same

theorem childPids_concat (done : List Row) (row : Row) (b : Int) :
    childPids (done ++ [row]) b =
      if b = row.ppid then childPids done b ++ [row.pid] else childPids done b := by
  by_cases hb : row.ppid = b
  · simp [childPids, hb]
  · simp [childPids, hb, Ne.symm hb]

/-- With a new row the unfolding has a new leaf, if its parent is in the tree. -/
theorem unfold_concat (order : ∀ r ∈ done ++ [row], r.ppid < r.pid)
    (later : ∀ r ∈ done, r.pid < row.pid) {V : Forest Int}
    (hV : Forest.unfold (childPids done) (done.length + 1) rootPID = some V) :
    ∃ W, Forest.unfold (childPids (done ++ [row])) ((done ++ [row]).length + 1) rootPID = some W ∧
      (Forest.cons rootPID V .nil).addLeaf row.ppid row.pid = .cons rootPID W .nil := by
  have hleaf : childPids (done ++ [row]) row.pid = [] := by
    refine List.eq_nil_iff_forall_not_mem.2 fun c hc => ?_
    have hmem := mem_childPids.1 hc
    have hlt : row.pid < c := order _ hmem
    rcases List.mem_append.1 hmem with hmem | hmem
    · exact Int.lt_asymm hlt (later _ hmem)
    · have hrow : Row.mk c row.pid = row := List.mem_singleton.1 hmem
      rw [← congrArg Row.pid hrow] at hlt
      exact Int.lt_irrefl c hlt
  rw [List.length_append, List.length_singleton]
  exact Forest.unfold_addLeaf (childPids_concat done row) hleaf hV

theorem RowTree.cells_nodup (inv : RowTree done rootPID h T) : T.toList.Nodup := by
  have hnodup := inv.nodup
  rw [Heap.shown, Forest.toList_map] at hnodup
  exact hnodup.of_map

theorem RowTree.length_le (inv : RowTree done rootPID h T) : T.toList.length ≤ h.size := by
  have hsub : T.toList ⊆ List.range h.size := fun x hx => List.mem_range.2 (inv.cells x hx)
  have hle := (List.subperm_of_subset inv.cells_nodup hsub).length_le
  rwa [List.length_range] at hle

theorem RowTree.push (inv : RowTree done rootPID h T) (m : PsNode) :
    RowTree done rootPID (h.push m) T := by
  have hold : ∀ x ∈ T.toList, (h.push m).node x = h.node x := fun x hx =>
    Heap.push_of_ne _ _ (Nat.ne_of_lt (inv.cells x hx))
  have hshown : (h.push m).shown T = h.shown T := Heap.shown_congr fun x hx => by rw [hold x hx]
  refine ⟨inv.links.congr hold, fun x hx => Nat.lt_succ_of_lt (inv.cells x hx), ?_, ?_⟩
  · rw [hshown]
    exact inv.nodup
  · rw [hshown]
    exact inv.shown

/-- The newest node as the last son of its parent. -/
theorem RowTree.link {m : PsNode} (inv : RowTree done rootPID h T) (hp : p ∈ T.toList)
    (hpar : m.parent = some p) (hdepth : m.depth = (h.node p).depth + 1)
    (hson : m.firstSon = none) (hnext : m.nextSibling = none) :
    ∃ h', insertSon (fun _ _ => true) (h.push m) (some p) (some h.size) = .ok h' ∧
      h'.size = h.size + 1 ∧ Links h' none 0 (some 0) (T.addLeaf p h.size) ∧
      h'.shown (T.addLeaf p h.size) = (h.shown T).addLeaf (h.node p).pid m.pid := by
  have inv' := inv.push m
  have hold : ∀ x ∈ T.toList, (h.push m).node x = h.node x := fun x hx =>
    Heap.push_of_ne _ _ (Nat.ne_of_lt (inv.cells x hx))
  rcases ((inv'.links.all.and (Forest.all_nodup inv.cells_nodup)).and T.all_mem).of_mem hp with
    ⟨S, ⟨hS, hSnodup⟩, _, hSmem⟩
  rcases List.nodup_cons.1 hSnodup with ⟨hpS, hSnodup⟩
  have hlength : S.roots.length ≤ (h.push m).size + 1 := by
    have hroots := S.roots_sublist.length_le
    have hle := (List.subperm_of_subset hSnodup hSmem).length_le
    have hsize := inv'.length_le
    omega
  have hfresh : ∀ x ∈ T.toList, h.size ≠ x := fun x hx => (Nat.ne_of_lt (inv.cells x hx)).symm
  have leaf : Links (h.push m) (some p) (((h.push m).node p).depth + 1) (some h.size)
      (.cons h.size .nil .nil) := by
    refine ⟨rfl, ?_, ?_, ?_, ?_⟩
    · rw [Heap.push_self, hpar]
    · rw [Heap.push_self, hold p hp, hdepth]
    · rw [Heap.push_self]; exact hson
    · rw [Heap.push_self]; exact hnext
  rcases insertSon_last hS hSnodup hlength hpS (fun hmem => hfresh _ (hSmem _ hmem) rfl)
    (hfresh p hp) leaf with ⟨h', hinsert, happ⟩
  have hpids : h'.shown (T.addLeaf p h.size) = (h.push m).shown (T.addLeaf p h.size) :=
    Heap.shown_congr fun x _ => happ.pids x
  have hinj : ∀ x ∈ T.toList, ((h.push m).node x).pid = ((h.push m).node p).pid → x = p := by
    intro x hx hxp
    have hnodup := inv'.nodup
    rw [Heap.shown, Forest.toList_map] at hnodup
    exact List.inj_on_of_nodup_map hnodup hx hp hxp
  have hsame : (h.push m).shown T = h.shown T := Heap.shown_congr fun x hx => by rw [hold x hx]
  have hadd := Forest.addLeaf_map (c := h.size) hinj
  rw [Heap.push_self, hold p hp] at hadd
  refine ⟨h', hinsert, happ.size, ?_, ?_⟩
  · exact inv'.links.addLeaf inv.cells_nodup hp hS (fun x _ => happ.frame x) happ.node happ.links
  · rw [hpids, ← hsame]
    exact hadd.symm

/-- `addNewNode` for a row whose parent comes before it. -/
theorem addNewNode_spec (inv : RowTree done rootPID h T) (consistent : Consistent sys row)
    (order : ∀ r ∈ done ++ [row], r.ppid < r.pid) (later : ∀ r ∈ done, r.pid < row.pid)
    (distinct : ((done ++ [row]).map Row.pid).Nodup) :
    ∃ h' T', addNewNode sys h row.pid (some 0) = .ok (some 0, h') ∧
      RowTree (done ++ [row]) rootPID h' T' := by
  rcases consistent h.size with ⟨node, hnode, hpid, hppid⟩
  rcases freshNode_links hnode with ⟨_, _, hson, hnext⟩
  have hnew : newNode sys h row.pid = .ok (some h.size, h.push node) := by
    simp [newNode, hnode, bind, Except.bind, pure, Except.pure]
  rcases inv.shown with ⟨V, hV, hshown⟩
  rcases unfold_concat order later hV with ⟨W, hW, hleaf⟩
  have hWnodup : (Forest.cons rootPID W .nil).toList.Nodup := by
    have hnodup := unfold_distinct distinct (not_descends_of_lt order rootPID) hW
    simpa using hnodup
  have inv' := inv.push node
  have hold : ∀ x ∈ T.toList, (h.push node).node x = h.node x := fun x hx =>
    Heap.push_of_ne _ _ (Nat.ne_of_lt (inv.cells x hx))
  have hget : getNode (h.push node) node.ppid ((h.push node).size + 1) (some 0) =
      .ok (T.toList.find? fun x => ((h.push node).node x).pid = node.ppid) :=
    getNode_spec inv'.links (Nat.le_succ_of_le inv'.length_le)
  cases hfind : T.toList.find? fun x => ((h.push node).node x).pid = node.ppid with
  | none =>
      rw [hfind] at hget
      have hnot : row.ppid ∉ (h.shown T).toList := by
        intro hmem
        rw [Heap.shown, Forest.toList_map] at hmem
        rcases List.mem_map.1 hmem with ⟨x, hx, hxpid⟩
        have hne := List.find?_eq_none.1 hfind x hx
        rw [hold x hx, hxpid, hppid] at hne
        simp at hne
      rw [← hshown, Forest.addLeaf_of_not_mem hnot] at hleaf
      refine ⟨h.push node, T, ?_, inv'.links, inv'.cells, inv'.nodup, W, hW, ?_⟩
      · simp only [addNewNode, hnew, bind, Except.bind, Heap.push_self, hget]
        rfl
      · rw [← hleaf]
        exact Heap.shown_congr fun x hx => by rw [hold x hx]
  | some p =>
      rw [hfind] at hget
      have hp : p ∈ T.toList := List.mem_of_find?_eq_some hfind
      have hpnode := hold p hp
      have hppid' : (h.node p).pid = row.ppid := by
        have hfound := List.find?_some hfind
        rw [hpnode, hppid] at hfound
        exact of_decide_eq_true hfound
      obtain ⟨m, hm⟩ : ∃ m : PsNode,
          m = { node with depth := (h.node p).depth + 1, parent := some p } := ⟨_, rfl⟩
      have hmpid : m.pid = row.pid := by rw [hm]; exact hpid
      rcases inv.link (m := m) hp (by rw [hm]) (by rw [hm]) (by rw [hm]; exact hson)
        (by rw [hm]; exact hnext) with ⟨h', hinsert, hsize, hlinks, hshown'⟩
      rw [hppid', hmpid, hshown, hleaf] at hshown'
      refine ⟨h', T.addLeaf p h.size, ?_, hlinks, ?_, ?_, W, hW, hshown'⟩
      · simp only [addNewNode, hnew, bind, Except.bind, Heap.push_self, hget,
          Heap.push_modify, hpnode, ← hm, hinsert]
        rfl
      · intro x hx
        rw [hsize]
        rcases Forest.mem_addLeaf hx with hx | rfl
        · exact Nat.lt_succ_of_lt (inv.cells x hx)
        · exact Nat.lt_succ_self _
      · rw [hshown']
        exact hWnodup

/-! ## All rows -/

/-- The tree after every prefix of the table shows the unfolding of that prefix. -/
theorem addRows_spec (inv : RowTree done rootPID h T)
    (sorted : (done ++ rest).Pairwise fun x y => x.pid < y.pid)
    (order : ∀ r ∈ done ++ rest, r.ppid < r.pid) (consistent : ∀ r ∈ rest, Consistent sys r) :
    ∃ h' T', rest.foldlM (fun s row => addNewNode sys s.2 row.pid s.1) (some 0, h) =
      .ok (some 0, h') ∧ RowTree (done ++ rest) rootPID h' T' := by
  induction rest generalizing done h T with
  | nil => exact ⟨h, T, rfl, by rwa [List.append_nil]⟩
  | cons row rest ih =>
      rw [List.append_cons] at sorted order ⊢
      have hsub : (done ++ [row]).Sublist (done ++ [row] ++ rest) := List.sublist_append_left _ _
      have sorted' := sorted.sublist hsub
      have later : ∀ r ∈ done, r.pid < row.pid := fun r hr =>
        (List.pairwise_append.1 sorted').2.2 r hr row (by simp)
      have distinct := nodup_of_sorted sorted'
      rcases addNewNode_spec inv (consistent row (by simp)) (fun r hr => order r (hsub.subset hr))
        later distinct with ⟨h₁, T₁, hadd, inv₁⟩
      rcases ih inv₁ sorted order fun r hr => consistent r (by simp [hr]) with
        ⟨h₂, T₂, hfold, inv₂⟩
      refine ⟨h₂, T₂, ?_, inv₂⟩
      rw [List.foldlM_cons, bind_eq_ok]
      exact ⟨_, hadd, hfold⟩

/-- The row of the root does not matter below it. -/
theorem childPids_filter (order : ∀ r ∈ pids, r.ppid < r.pid) {b : Int}
    (hb : Relation.ReflTransGen (Forest.Child (childPids pids)) rootPID b) :
    childPids pids b = childPids (pids.filter fun row => row.pid ≠ rootPID) b := by
  rw [childPids, childPids, List.filter_filter]
  refine congrArg _ (List.filter_congr fun r hr => ?_)
  by_cases hppid : r.ppid = b
  · have hpid : r.pid ≠ rootPID := by
      rintro rfl
      have hchild : r.pid ∈ childPids pids b := mem_childPids.2 (hppid ▸ hr)
      exact not_descends_of_lt order r.pid (Relation.TransGen.tail' hb hchild)
    simp [hppid, hpid]
  · simp [hppid]

/-! ## The same tree -/

def Heap.view (h : Heap) (F : Forest Nat) : Forest (Int × Int × Option Int) :=
  F.map fun x =>
    ((h.node x).pid, (h.node x).depth, (h.node x).parent.map fun b => (h.node b).pid)

/-- Depths and parents as the place in the forest has them. -/
def place : Option Int → Int → Forest Int → Forest (Int × Int × Option Int)
  | _, _, .nil => .nil
  | parent, d, .cons x sons siblings =>
    .cons (x, d, parent) (place (some x) (d + 1) sons) (place parent d siblings)

theorem Links.view_eq (hl : Links h par d pt F) :
    h.view F = place (par.map fun b => (h.node b).pid) d (h.shown F) := by
  induction F generalizing par d pt with
  | nil => rfl
  | cons a sons siblings ihs ih =>
      rcases hl with ⟨_, hpar, hdepth, hsons, hsibs⟩
      rw [Heap.view, Forest.map, ← Heap.view, ← Heap.view, ihs hsons, ih hsibs, Heap.shown_cons,
        place, hpar, hdepth]
      rfl

/-- Both results are trees with the same nodes in the same places, and these are the root
and its descendants in the table. -/
def Agree (pids : List Row) (rootPID : Int) (r₁ r₂ : Ptr × Heap) : Prop :=
  ∃ T₁ T₂, Links r₁.2 none 0 r₁.1 T₁ ∧ Links r₂.2 none 0 r₂.1 T₂ ∧
    r₁.2.view T₁ = r₂.2.view T₂ ∧
    ∀ x, x ∈ (r₁.2.shown T₁).toList ↔
      Relation.ReflTransGen (Forest.Child (childPids pids)) rootPID x

theorem Consistent.loads (consistent : Consistent sys row) : Loads sys row.pid := by
  intro n
  rcases consistent n with ⟨node, hnode, hpid, _⟩
  exact ⟨node, hnode, hpid⟩

/-- On a sorted table in which parents come before their sons, `addNewNode` row by row and
`ConstructTree` build the same tree. -/
theorem growTree_agrees (sorted : pids.Pairwise fun x y => x.pid < y.pid)
    (order : ∀ row ∈ pids, row.ppid < row.pid) (consistent : ∀ row ∈ pids, Consistent sys row)
    (root : Loads sys rootPID) :
    ∃ bound, ∀ fuel > bound, ∃ r₁ r₂, growTree sys pids rootPID = .ok r₁ ∧
      recurseTree sys pids fuel rootPID = .ok r₂ ∧ Agree pids rootPID r₁ r₂ := by
  refine ⟨pids.length, fun fuel hfuel => ?_⟩
  have distinct := nodup_of_sorted sorted
  have acyclic := not_descends_of_lt order rootPID
  rcases root 0 with ⟨node, hnode, hpid⟩
  rcases freshNode_links hnode with ⟨hpar, hdepth, hson, hnext⟩
  have hnew : newNode sys emptyHeap rootPID = .ok (some 0, emptyHeap.push node) := by
    have hnode' : freshNode sys emptyHeap.size rootPID = .ok (some node) := hnode
    simp only [newNode, hnode', bind, Except.bind, pure, Except.pure]
    rfl
  have hnode0 : (emptyHeap.push node).node 0 = node := Heap.push_self emptyHeap node
  -- by recursion
  rcases Option.isSome_iff_exists.1 (unfold_isSome_of_root distinct acyclic hfuel) with ⟨V, hV⟩
  rcases constructTree_spec (fun row hrow => (consistent row hrow).loads)
    (appendable_childPids sorted) fuel (Nat.lt_succ_self 0) (by rw [hnode0, hson]) hV with
    ⟨h₂, F, hcall, hgrown, hF⟩
  rcases hgrown.tree hpar hdepth hnext with ⟨hself, hlinks₂⟩
  have hshown₂ : h₂.shown (.cons 0 F .nil) = .cons rootPID V .nil := by
    rw [Heap.shown_cons, hF, hself, hpid]
    rfl
  -- row by row
  have start : RowTree [] rootPID (emptyHeap.push node) (.cons 0 .nil .nil) := by
    refine ⟨⟨rfl, ?_, ?_, ?_, ?_⟩, ?_, ?_, .nil, rfl, ?_⟩
    · rw [hnode0, hpar]
    · rw [hnode0, hdepth]
    · rw [hnode0]; exact hson
    · rw [hnode0]; exact hnext
    · intro x hx
      rw [List.mem_singleton.1 hx]
      exact Nat.lt_succ_self 0
    · exact List.nodup_singleton _
    · rw [Heap.shown_cons, hnode0, hpid]
      rfl
  have hsub : (pids.filter fun row => row.pid ≠ rootPID).Sublist pids := List.filter_sublist
  rcases addRows_spec start (sorted.sublist hsub) (fun r hr => order r (hsub.subset hr))
    (fun r hr => consistent r (hsub.subset hr)) with ⟨h₁, T₁, hfold, inv⟩
  rcases inv.shown with ⟨W, hW, hshown₁⟩
  rw [List.nil_append, ← Forest.unfold_congr fun b hb => childPids_filter order hb] at hW
  have hlength : (pids.filter fun row => row.pid ≠ rootPID).length + 1 ≤ fuel := by
    have hle := hsub.length_le
    omega
  have hVW : V = W := Option.some.inj (hV.symm.trans (Forest.unfold_mono hW hlength))
  refine ⟨(some 0, h₁), (some 0, h₂), ?_, ?_, T₁, .cons 0 F .nil, inv.links, hlinks₂, ?_, ?_⟩
  · rw [growTree, hnew]
    exact hfold
  · simp only [recurseTree, hnew, hcall, bind, Except.bind, pure, Except.pure]
  · rw [inv.links.view_eq, hlinks₂.view_eq, hshown₁, hshown₂, hVW]
    rfl
  · intro x
    rw [hshown₁, Forest.toList_cons, Forest.toList_nil, List.append_nil, List.mem_cons,
      Forest.mem_unfold hW, Relation.reflTransGen_iff_eq_or_transGen]

theorem threeProcesses_consistent :
    ∀ row ∈ [Row.mk 1 0, ⟨2, 0⟩, ⟨7, 1⟩], Consistent threeProcesses row := by
  intro row hrow
  simp only [List.mem_cons, List.not_mem_nil, or_false] at hrow
  rcases hrow with rfl | rfl | rfl
  · exact fun n => ⟨_, rfl, rfl, rfl⟩
  · exact fun n => ⟨_, rfl, rfl, rfl⟩
  · exact fun n => ⟨_, rfl, rfl, rfl⟩

theorem growTree_agrees_threeProcesses :
    ∃ bound, ∀ fuel > bound, ∃ r₁ r₂, growTree threeProcesses [⟨1, 0⟩, ⟨2, 0⟩, ⟨7, 1⟩] 1 = .ok r₁ ∧
      recurseTree threeProcesses [⟨1, 0⟩, ⟨2, 0⟩, ⟨7, 1⟩] fuel 1 = .ok r₂ ∧
      Agree [⟨1, 0⟩, ⟨2, 0⟩, ⟨7, 1⟩] 1 r₁ r₂ :=
  growTree_agrees (by decide) (by decide) threeProcesses_consistent
    (threeProcesses_rows ⟨1, 0⟩ (by decide))

/-- There is no process 5. `addNewNode` makes the first row the root, and `ConstructTree`
builds nothing. -/
theorem growTree_noProcess :
    [Row.mk 1 0, ⟨2, 0⟩, ⟨7, 1⟩].Pairwise (fun x y => x.pid < y.pid) ∧
    (∀ row ∈ [Row.mk 1 0, ⟨2, 0⟩, ⟨7, 1⟩], row.ppid < row.pid) ∧
    (∀ row ∈ [Row.mk 1 0, ⟨2, 0⟩, ⟨7, 1⟩], Consistent threeProcesses row) ∧
    ∃ r₁, growTree threeProcesses [⟨1, 0⟩, ⟨2, 0⟩, ⟨7, 1⟩] 5 = .ok r₁ ∧
      ∀ fuel > 0, ∃ r₂, recurseTree threeProcesses [⟨1, 0⟩, ⟨2, 0⟩, ⟨7, 1⟩] fuel 5 = .ok r₂ ∧
        ¬Agree [⟨1, 0⟩, ⟨2, 0⟩, ⟨7, 1⟩] 5 r₁ r₂ := by
  refine ⟨by decide, by decide, threeProcesses_consistent, _, rfl, ?_⟩
  intro fuel hfuel
  obtain ⟨n, rfl⟩ := Nat.exists_eq_succ_of_ne_zero (Nat.ne_of_gt hfuel)
  refine ⟨(none, emptyHeap), rfl, ?_⟩
  rintro ⟨T₁, T₂, hlinks₁, hlinks₂, hview, -⟩
  cases T₂ with
  | nil =>
      cases T₁ with
      | nil => cases hlinks₁
      | cons a sons siblings => cases hview
  | cons a sons siblings => cases hlinks₂.1

end OSLabs.Pstree
