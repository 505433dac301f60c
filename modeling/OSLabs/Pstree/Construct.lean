import OSLabs.Pstree.Links

/-! # ConstructTree inserts the unfolding of the table

As long as `NewNode` succeeds, `ConstructTree` from a node with pid `pid` allocates the
unfolding of the table from `pid` in preorder and inserts it below its node. Where every
new sibling goes behind the last one, the tree below the node is the unfolding.
-/

namespace OSLabs.Pstree

open Lib

variable {sys : Sys} {pids : List Row} {h h' h₀ : Heap} {F G K : Forest Nat} {a q : Nat}
  {cmp : Int × Name → Int × Name → Bool}

def childPids (pids : List Row) (pid : Int) : List Int :=
  (pids.filter fun row => row.ppid = pid).map Row.pid

/-- `NewNode(pid)` succeeds and finds the pid it was called with. -/
def Loads (sys : Sys) (pid : Int) : Prop :=
  ∀ n, ∃ node, freshNode sys n pid = .ok (some node) ∧ node.pid = pid

/-- Every element is larger than all before it but the one just before it. -/
def Appendable (l : List Int) : Prop :=
  ∀ xs y zs, l = xs ++ y :: zs → ∀ x ∈ xs.dropLast, x < y

theorem freshNode_links {n : Nat} {pid : Int} {node : PsNode}
    (hn : freshNode sys n pid = .ok (some node)) :
    node.parent = none ∧ node.depth = 0 ∧ node.firstSon = none ∧ node.nextSibling = none := by
  unfold freshNode at hn
  split at hn
  · cases hn
    exact ⟨rfl, rfl, rfl, rfl⟩
  · split at hn
    · cases hn
    · rcases bind_eq_ok.1 hn with ⟨stat, _, hreturn⟩
      cases hreturn
      exact ⟨rfl, rfl, rfl, rfl⟩

/-- What the conditions of the walks look at. -/
def PsNode.key (n : PsNode) : Int × Name := (n.pid, n.name)

/-- The key of the node that `NewNode(x.2)` puts into cell `x.1`. -/
def keyOf (sys : Sys) (x : Nat × Int) : Int × Name :=
  match freshNode sys x.1 x.2 with
  | .ok (some node) => node.key
  | _ => (0, ⟨0, []⟩)

theorem keyOf_eq {n : Nat} {pid : Int} {node : PsNode}
    (hn : freshNode sys n pid = .ok (some node)) : keyOf sys (n, pid) = node.key := by
  simp only [keyOf, hn]

theorem keyOf_fst {x : Nat × Int} (loads : Loads sys x.2) : (keyOf sys x).1 = x.2 := by
  rcases loads x.1 with ⟨node, hnode, hpid⟩
  rw [keyOf_eq hnode]
  exact hpid

def byKey (cmp : Int × Name → Int × Name → Bool) (temp q : PsNode) : Bool := cmp temp.key q.key

/-- From `h₀` to `h`, cells were added that hold the sons `F` of `a`. -/
structure Grown (h₀ : Heap) (a : Nat) (h : Heap) (F : Forest Nat) : Prop where
  size : h₀.size ≤ h.size
  frame : ∀ x < h₀.size, x ≠ a → h.node x = h₀.node x
  node : h.node a = { h₀.node a with firstSon := (h.node a).firstSon }
  links : Links h (some a) ((h₀.node a).depth + 1) (h.node a).firstSon F
  nodup : F.toList.Nodup
  fresh : ∀ x ∈ F.toList, h₀.size ≤ x ∧ x < h.size

theorem Grown.refl (hson : (h.node a).firstSon = none) : Grown h a h .nil where
  size := Nat.le_refl _
  frame := fun _ _ _ => rfl
  node := rfl
  links := hson
  nodup := .nil
  fresh := by simp

theorem Grown.roots_length (inv : Grown h₀ a h F) : F.roots.length ≤ h.size := by
  have hsub : F.toList ⊆ List.range h.size := fun x hx => List.mem_range.2 (inv.fresh x hx).2
  have hle := (List.subperm_of_subset inv.nodup hsub).length_le
  rw [List.length_range] at hle
  exact Nat.le_trans F.roots_sublist.length_le hle

theorem Grown.not_mem (inv : Grown h₀ a h F) (ha : a < h₀.size) : a ∉ F.toList :=
  fun hmem => absurd (inv.fresh a hmem).1 (Nat.not_le.2 ha)

theorem Grown.depth (inv : Grown h₀ a h F) : (h.node a).depth = (h₀.node a).depth := by
  rw [inv.node]

/-- A new last son of `a` behind some of those before, in the cell just allocated. -/
theorem Grown.snoc (inv : Grown h₀ a h F) (hkeep : K.toList.Sublist F.toList)
    (hsize : h'.size = h.size + 1) (frame : ∀ x < h₀.size, x ≠ a → h'.node x = h.node x)
    (node : h'.node a = { h.node a with firstSon := (h'.node a).firstSon })
    (links : Links h' (some a) ((h₀.node a).depth + 1) (h'.node a).firstSon
      (K.append (.cons h.size .nil .nil))) :
    Grown h₀ a h' (K.append (.cons h.size .nil .nil)) where
  size := by rw [hsize]; exact Nat.le_succ_of_le inv.size
  frame := fun x hx hne => (frame x hx hne).trans (inv.frame x hx hne)
  node := by rw [node, inv.node]
  links := links
  nodup := by
    simp only [Forest.toList_append, Forest.toList_cons, Forest.toList_nil, List.append_nil]
    refine List.nodup_append.2 ⟨inv.nodup.sublist hkeep, List.nodup_singleton _, ?_⟩
    intro x hx y hy
    rw [List.mem_singleton.1 hy]
    exact Nat.ne_of_lt (inv.fresh x (hkeep.subset hx)).2
  fresh := by
    intro x hx
    simp only [Forest.toList_append, Forest.toList_cons, Forest.toList_nil, List.append_nil,
      List.mem_append, List.mem_singleton] at hx
    rcases hx with hx | rfl
    · have := inv.fresh x (hkeep.subset hx)
      omega
    · have := inv.size
      omega

theorem Grown.push_mem (inv : Grown h₀ a h F) {x : Nat} (hx : x ∈ F.toList) {n : PsNode} :
    (h.push n).node x = h.node x :=
  Heap.push_of_ne _ _ (Nat.ne_of_lt (inv.fresh x hx).2)

/-- Linking `q`, which was allocated last, into the sons of `a` keeps all keys. -/
theorem key_of_link {n : PsNode} {l : Nat} {f : PsNode → PsNode}
    (hf : (f ((h.push n).node l)).key = ((h.push n).node l).key) {x : Nat} (hx : x < h.size) :
    (((h.push n).modify l f).node x).key = (h.node x).key := by
  have hpush : (h.push n).node x = h.node x := Heap.push_of_ne _ _ (Nat.ne_of_lt hx)
  by_cases hxl : x = l
  · rw [hxl, Heap.modify_self, hf, ← hxl, hpush]
  · rw [Heap.modify_of_ne _ _ hxl, hpush]

/-- The node that was allocated last is a leaf, whichever other node is written. -/
theorem Grown.newSon (inv : Grown h₀ a h F) {n : PsNode} (hpar : n.parent = some a)
    (hdepth : n.depth = (h.node a).depth + 1) (hson : n.firstSon = none)
    (hnext : n.nextSibling = none) {l : Nat} {f : PsNode → PsNode} (hl : l ≠ h.size) :
    Links ((h.push n).modify l f) (some a) ((h₀.node a).depth + 1) (some h.size)
      (.cons h.size .nil .nil) := by
  have hnode : ((h.push n).modify l f).node h.size = n := by
    rw [Heap.modify_of_ne _ _ hl.symm, Heap.push_self]
  refine ⟨rfl, ?_, ?_, ?_, ?_⟩
  · rw [hnode, hpar]
  · rw [hnode, hdepth, inv.depth]
  · rw [hnode]; exact hson
  · rw [hnode]; exact hnext

/-- A node without links goes behind the sons of `a` that its walk keeps. -/
theorem insertSon_spec (cmp : Int × Name → Int × Name → Bool) (inv : Grown h₀ a h F)
    (ha : a < h₀.size) {n : PsNode} (hpar : n.parent = some a)
    (hdepth : n.depth = (h.node a).depth + 1) (hson : n.firstSon = none)
    (hnext : n.nextSibling = none) :
    ∃ h', insertSon (byKey cmp) (h.push n) (some a) (some h.size) = .ok h' ∧
      h'.size = h.size + 1 ∧
      Grown h₀ a h' ((F.keepTo fun x => cmp (h.node x).key n.key).append
        (.cons h.size .nil .nil)) ∧
      h'.node h.size = n ∧ ∀ x < h.size, (h'.node x).key = (h.node x).key := by
  have hasize : a < h.size := Nat.lt_of_lt_of_le ha inv.size
  have hane : a ≠ h.size := Nat.ne_of_lt hasize
  have hold : ∀ x < h₀.size, (h.push n).node x = h.node x := fun x hx =>
    Heap.push_of_ne _ _ (Nat.ne_of_lt (Nat.lt_of_lt_of_le hx inv.size))
  cases F with
  | nil =>
      have hfirst : (h.node a).firstSon = none := inv.links
      refine ⟨(h.push n).modify a fun m => { m with firstSon := some h.size }, ?_, rfl,
        inv.snoc (List.nil_sublist _) rfl ?_ ?_ ?_, ?_, fun x hx => key_of_link rfl hx⟩
      · simp [insertSon, bind, Except.bind, Heap.push_of_ne _ _ hane, hfirst]
      · intro x hx hne
        rw [Heap.modify_of_ne _ _ hne, hold x hx]
      · rw [Heap.modify_self, hold a ha]
      · rw [Heap.modify_self]
        exact inv.newSon hpar hdepth hson hnext hane
      · rw [Heap.modify_of_ne _ _ hane.symm, Heap.push_self]
  | cons b sons siblings =>
      have hfirst : ((h.push n).node a).firstSon = some b := by
        rw [hold a ha]
        exact inv.links.1
      have hlinks : Links (h.push n) (some a) ((h₀.node a).depth + 1) (some b)
          (.cons b sons siblings) := by
        rw [← show (h.node a).firstSon = some b from inv.links.1]
        exact inv.links.congr fun x hx => inv.push_mem hx
      have hfuel : (Forest.cons b sons siblings).roots.length ≤ (h.push n).size + 1 := by
        have := inv.roots_length
        rw [Heap.push_size]
        omega
      rcases walk_spec (byKey cmp · n) hlinks hfuel with ⟨l, hlast, hwalk⟩
      rw [Heap.push_size] at hwalk
      have hkept : ((Forest.cons b sons siblings).keepTo fun x => byKey cmp ((h.push n).node x) n) =
          (Forest.cons b sons siblings).keepTo fun x => cmp (h.node x).key n.key :=
        Forest.keepTo_congr fun x hx => by rw [inv.push_mem hx]; rfl
      rw [hkept] at hlast
      have hsub := (Forest.cons b sons siblings).keepTo_sublist fun x => cmp (h.node x).key n.key
      have hl : l ∈ (Forest.cons b sons siblings).toList :=
        hsub.subset ((Forest.roots_sublist _).subset (List.mem_of_getLast? hlast))
      have hlsize : l ≠ h.size := Nat.ne_of_lt (inv.fresh l hl).2
      have hla : a ≠ l := fun hal => inv.not_mem ha (hal ▸ hl)
      refine ⟨(h.push n).modify l fun m => { m with nextSibling := some h.size }, ?_, rfl,
        inv.snoc hsub rfl ?_ ?_ ?_, ?_, fun x hx => key_of_link rfl hx⟩
      · simp [insertSon, bind, Except.bind, hfirst, hwalk]
      · intro x hx hne
        have hxl : x ≠ l := fun hxl => absurd (inv.fresh l hl).1 (Nat.not_le.2 (hxl ▸ hx))
        rw [Heap.modify_of_ne _ _ hxl, hold x hx]
      · rw [Heap.modify_of_ne _ _ hla, hold a ha]
      · rw [Heap.modify_of_ne _ _ hla, hfirst]
        exact hlinks.insert inv.nodup hlast (fun x _ hxl => Heap.modify_of_ne _ _ hxl)
          (Heap.modify_self _ _ _) (inv.newSon hpar hdepth hson hnext hlsize)
      · rw [Heap.modify_of_ne _ _ hlsize.symm, Heap.push_self]

/-- The node of a row becomes the last son, behind those that its walk keeps. -/
theorem addSon_spec (cmp : Int × Name → Int × Name → Bool) (inv : Grown h₀ a h F)
    (ha : a < h₀.size) {row : Row}
    (succeeds : ∃ node, freshNode sys h.size row.pid = .ok (some node)) :
    ∃ h', addSon (byKey cmp) sys h (some a) row = .ok (some h.size, h') ∧
      h'.size = h.size + 1 ∧
      Grown h₀ a h' ((F.keepTo fun x => cmp (h.node x).key (keyOf sys (h.size, row.pid))).append
        (.cons h.size .nil .nil)) ∧
      (h'.node h.size).key = keyOf sys (h.size, row.pid) ∧ (h'.node h.size).firstSon = none ∧
      ∀ x < h.size, (h'.node x).key = (h.node x).key := by
  rcases succeeds with ⟨node, hnode⟩
  rcases freshNode_links hnode with ⟨_, _, hson, hnext⟩
  have hane : a ≠ h.size := Nat.ne_of_lt (Nat.lt_of_lt_of_le ha inv.size)
  have hnew : newNode sys h row.pid = .ok (some h.size, h.push node) := by
    simp [newNode, hnode, bind, Except.bind, pure, Except.pure]
  -- the cell of the new node once its own fields are set
  obtain ⟨q, hq⟩ : ∃ q : PsNode,
      q = { node with parent := some a, depth := (h.node a).depth + 1 } := ⟨_, rfl⟩
  have hkey : keyOf sys (h.size, row.pid) = q.key := by
    rw [keyOf_eq hnode, hq]
    rfl
  rcases insertSon_spec cmp inv ha (show q.parent = some a by rw [hq])
    (show q.depth = (h.node a).depth + 1 by rw [hq]) (by rw [hq]; exact hson)
    (by rw [hq]; exact hnext) with ⟨h', hinsert, hsize, hgrown, hself, hkeys⟩
  rw [hkey]
  refine ⟨h', ?_, hsize, hgrown, by rw [hself], by rw [hself, hq]; exact hson, hkeys⟩
  simp only [addSon, hnew, bind, Except.bind, Heap.set_some, Heap.push_modify, Heap.get_some,
    Heap.push_of_ne _ _ hane]
  rw [← hq, hinsert]
  rfl

theorem Grown.fill (inv : Grown h₀ a h (F.append (.cons q .nil .nil)))
    (ha : a < h₀.size) (hsub : Grown h q h' G) : Grown h₀ a h' (F.append (.cons q G .nil)) := by
  have hqmem : q ∈ (F.append (.cons q .nil .nil)).toList := by simp
  have hq := inv.fresh q hqmem
  have hasize : a < h.size := Nat.lt_of_lt_of_le ha inv.size
  have haq : a ≠ q := fun haq => absurd hq.1 (Nat.not_le.2 (haq ▸ ha))
  have hnode : h'.node a = h.node a := hsub.frame a hasize haq
  have hnodup := inv.nodup
  simp only [Forest.toList_append, Forest.toList_cons, Forest.toList_nil, List.append_nil] at hnodup
  rcases List.nodup_append.1 hnodup with ⟨hF, _, hqF⟩
  have hqnot : q ∉ F.toList := fun hmem => hqF q hmem q (by simp) rfl
  have hold : ∀ x ∈ F.toList, h'.node x = h.node x := by
    intro x hx
    refine hsub.frame x (inv.fresh x (by simp [hx])).2 ?_
    rintro rfl
    exact hqnot hx
  exact
    { size := Nat.le_trans inv.size hsub.size
      frame := by
        intro x hx hne
        have hxq : x ≠ q := fun hxq => absurd hq.1 (Nat.not_le.2 (hxq ▸ hx))
        rw [hsub.frame x (Nat.lt_of_lt_of_le hx inv.size) hxq]
        exact inv.frame x hx hne
      node := by rw [hnode, inv.node]
      links := by
        rw [hnode]
        exact inv.links.fill hqnot hold hsub.node hsub.links
      nodup := by
        simp only [Forest.toList_append, Forest.toList_cons, Forest.toList_nil, List.append_nil]
        have hnew : ∀ x ∈ G.toList, x ∉ F.toList ∧ x ≠ q := by
          intro x hx
          have hge := (hsub.fresh x hx).1
          refine ⟨fun hmem => ?_, ?_⟩
          · have := (inv.fresh x (by simp [hmem])).2
            omega
          · have := hq.2
            omega
        refine List.nodup_append.2 ⟨hF, List.nodup_cons.2 ⟨?_, hsub.nodup⟩, ?_⟩
        · intro hmem
          exact (hnew q hmem).2 rfl
        · intro x hx y hy hxy
          subst hxy
          rcases List.mem_cons.1 hy with rfl | hy
          · exact hqnot hx
          · exact (hnew x hy).1 hx
      fresh := by
        intro x hx
        simp only [Forest.toList_append, Forest.toList_cons, Forest.toList_nil, List.append_nil,
          List.mem_append, List.mem_cons] at hx
        have hsize := hsub.size
        have hsize' := inv.size
        rcases hx with hx | rfl | hx
        · have := inv.fresh x (by simp [hx])
          omega
        · omega
        · have := hsub.fresh x hx
          omega }

theorem mem_childPids {pids : List Row} {p c : Int} :
    c ∈ childPids pids p ↔ Row.mk c p ∈ pids := by
  simp only [childPids, List.mem_map, List.mem_filter, decide_eq_true_eq]
  constructor
  · intro h
    rcases h with ⟨⟨pid, ppid⟩, ⟨hmem, rfl⟩, rfl⟩
    exact hmem
  · intro h
    exact ⟨⟨c, p⟩, ⟨h, rfl⟩, rfl⟩

theorem childPids_cons_of_eq {row : Row} {pid : Int} (hrow : row.ppid = pid) :
    childPids (row :: pids) pid = row.pid :: childPids pids pid := by
  simp [childPids, hrow]

theorem childPids_cons_of_ne {row : Row} {pid : Int} (hrow : row.ppid ≠ pid) :
    childPids (row :: pids) pid = childPids pids pid := by
  simp [childPids, hrow]

theorem exists_row {n : Nat} {pid x : Int} {V : Forest Int}
    (hV : Forest.unfold (childPids pids) n pid = some V) (hx : x ∈ V.toList) :
    ∃ row ∈ pids, row.pid = x := by
  have hrow : ∀ {p c}, c ∈ childPids pids p → ∃ row ∈ pids, row.pid = c := fun hc =>
    ⟨_, mem_childPids.1 hc, rfl⟩
  rw [Forest.mem_unfold hV] at hx
  cases hx with
  | single hc => exact hrow hc
  | tail _ hc => exact hrow hc

def Heap.shown (h : Heap) (F : Forest Nat) : Forest Int := F.map fun x => (h.node x).pid

theorem Heap.shown_cons (h : Heap) (a : Nat) (sons siblings : Forest Nat) :
    h.shown (.cons a sons siblings) =
      .cons (h.node a).pid (h.shown sons) (h.shown siblings) := rfl

/-! ## The insertions -/

/-- The condition of the walk, on the numbered processes. -/
def onKeys (cmp : Int × Name → Int × Name → Bool) (sys : Sys) (x y : Nat × Int) : Bool :=
  cmp (keyOf sys x) (keyOf sys y)

/-- From `h` to `h'`, nodes for the processes `V` were allocated one after the other and
inserted behind the sons `acc` that `a` already had. -/
structure Inserted (cmp : Int × Name → Int × Name → Bool) (sys : Sys) (h₀ : Heap) (a : Nat)
    (acc : Forest (Nat × Int)) (h h' : Heap) (V : Forest Int) : Prop where
  size : h'.size = h.size + V.toList.length
  grown : Grown h₀ a h'
    ((Forest.insertAll (onKeys cmp sys) acc (V.number h.size)).map Prod.fst)
  old : ∀ x < h.size, (h'.node x).key = (h.node x).key
  new : ∀ x ∈ (V.number h.size).toList, (h'.node x.1).key = keyOf sys x

def Inserts (cmp : Int × Name → Int × Name → Bool) (sys : Sys) (pids : List Row)
    (construct : Heap → Ptr → Int → Except Fault Heap) (n : Nat) : Prop :=
  ∀ {h : Heap} {a : Nat} {pid : Int} {V : Forest Int}, a < h.size →
    (h.node a).firstSon = none → Forest.unfold (childPids pids) n pid = some V →
    (∀ x ∈ V.toList, Loads sys x) →
    ∃ h', construct h (some a) pid = .ok h' ∧ Inserted cmp sys h a .nil h h' V

/-- The sons `acc` with the tree for `pid` inserted behind them, in the cells from `n` on. -/
def withTree (cmp : Int × Name → Int × Name → Bool) (sys : Sys) (acc : Forest (Nat × Int))
    (n : Nat) (pid : Int) (sons : Forest Int) : Forest (Nat × Int) :=
  (acc.keepTo fun x => onKeys cmp sys x (n, pid)).append
    (.cons (n, pid) (Forest.insertAll (onKeys cmp sys) .nil (sons.number (n + 1))) .nil)

/-- A row of the node and the call for it insert one tree. -/
theorem constructRow_spec {construct : Heap → Ptr → Int → Except Fault Heap} {n : Nat}
    (call : Inserts cmp sys pids construct n) (ha : a < h₀.size) {pid : Int}
    {acc : Forest (Nat × Int)} (inv : Grown h₀ a h (acc.map Prod.fst))
    (keys : ∀ x ∈ acc.toList, (h.node x.1).key = keyOf sys x) {row : Row} {sons : Forest Int}
    (hrow : row.ppid = pid) (hsons : Forest.unfold (childPids pids) n row.pid = some sons)
    (loads : ∀ x ∈ row.pid :: sons.toList, Loads sys x) :
    ∃ h', constructRow (byKey cmp) sys construct (some a) pid h row = .ok h' ∧
      h'.size = h.size + 1 + sons.toList.length ∧
      Grown h₀ a h' ((withTree cmp sys acc h.size row.pid sons).map Prod.fst) ∧
      (∀ x < h.size, (h'.node x).key = (h.node x).key) ∧
      (h'.node h.size).key = keyOf sys (h.size, row.pid) ∧
      (∀ x ∈ (sons.number (h.size + 1)).toList, (h'.node x.1).key = keyOf sys x) ∧
      ∀ x ∈ (withTree cmp sys acc h.size row.pid sons).toList,
        (h'.node x.1).key = keyOf sys x := by
  have succeeds : ∃ node, freshNode sys h.size row.pid = .ok (some node) := by
    rcases loads row.pid List.mem_cons_self h.size with ⟨node, hnode, _⟩
    exact ⟨node, hnode⟩
  rcases addSon_spec cmp inv ha succeeds with
    ⟨h₁, hadd, hsize, hgrown, hkey, hson, hkeys⟩
  have hq : h.size < h₁.size := by rw [hsize]; exact Nat.lt_succ_self _
  rcases call hq hson hsons fun x hx => loads x (List.mem_cons_of_mem _ hx) with
    ⟨h₂, hcall, hsub⟩
  have hnew := hsub.new
  have hfill := hgrown.fill ha hsub.grown
  rw [hsize] at hnew hfill
  -- the keys of the sons that were there decide where the new one goes
  have hkept : ((acc.map Prod.fst).keepTo fun x =>
      cmp (h.node x).key (keyOf sys (h.size, row.pid))) =
        (acc.keepTo fun x => onKeys cmp sys x (h.size, row.pid)).map Prod.fst := by
    rw [Forest.keepTo_map]
    exact congrArg _ (Forest.keepTo_congr fun x hx => by rw [keys x hx]; rfl)
  rw [hkept] at hfill
  have hkeep : ∀ x < h.size, (h₂.node x).key = (h.node x).key := fun x hx =>
    (hsub.old x (Nat.lt_trans hx hq)).trans (hkeys x hx)
  have hself : (h₂.node h.size).key = keyOf sys (h.size, row.pid) :=
    (hsub.old h.size hq).trans hkey
  refine ⟨h₂, ?_, by rw [hsub.size, hsize], ?_, hkeep, hself, hnew, ?_⟩
  · rw [constructRow, if_pos hrow]
    exact bind_eq_ok.2 ⟨_, hadd, hcall⟩
  · rw [withTree, Forest.map_append]
    exact hfill
  · intro x hx
    rw [withTree, Forest.toList_append, Forest.toList_cons, Forest.toList_nil,
      List.append_nil, List.mem_append, List.mem_cons] at hx
    rcases hx with hx | rfl | hx
    · have hmem := (acc.keepTo_sublist _).subset hx
      have hcell : x.1 ∈ (acc.map Prod.fst).toList := by
        rw [Forest.toList_map]
        exact List.mem_map_of_mem hmem
      rw [hkeep x.1 (inv.fresh x.1 hcell).2, keys x hmem]
    · exact hself
    · rcases Forest.mem_insertAll hx with hx | hx
      · cases hx
      · exact hnew x hx

/-- The loop of `ConstructTree` over the rest of the table. -/
theorem constructRows_spec {construct : Heap → Ptr → Int → Except Fault Heap} {n : Nat}
    (call : Inserts cmp sys pids construct n) (ha : a < h₀.size) {pid : Int}
    {acc : Forest (Nat × Int)} (inv : Grown h₀ a h (acc.map Prod.fst))
    (keys : ∀ x ∈ acc.toList, (h.node x.1).key = keyOf sys x) {rows : List Row}
    {V : Forest Int} (loads : ∀ x ∈ V.toList, Loads sys x)
    (hV : Forest.graft (Forest.unfold (childPids pids) n) (childPids rows pid) = some V) :
    ∃ h', rows.foldlM (constructRow (byKey cmp) sys construct (some a) pid) h = .ok h' ∧
      Inserted cmp sys h₀ a acc h h' V := by
  induction rows generalizing h acc V with
  | nil =>
      have hnil : Forest.nil = V := Option.some.inj hV
      subst hnil
      exact ⟨h, rfl, ⟨rfl, inv, fun _ _ => rfl, by simp [Forest.number]⟩⟩
  | cons row rows ih =>
      rw [List.foldlM_cons]
      by_cases hrow : row.ppid = pid
      · rw [childPids_cons_of_eq hrow] at hV
        rcases Forest.graft_cons.1 hV with ⟨sons, siblings, hsons, hsibs, rfl⟩
        rcases constructRow_spec call ha inv keys hrow hsons
          (fun x hx => loads x (List.mem_append_left siblings.toList hx)) with
          ⟨h₁, hcall, hsize, hgrown, hkeep, hself, hnew, keys'⟩
        rcases ih hgrown keys' (fun x hx => loads x (by simp [hx])) hsibs with
          ⟨h₂, hfold, hrest⟩
        have hnew₂ := hrest.new
        have hgrown₂ := hrest.grown
        rw [hsize] at hnew₂ hgrown₂
        refine ⟨h₂, bind_eq_ok.2 ⟨h₁, hcall, hfold⟩, ⟨?_, hgrown₂, ?_, ?_⟩⟩
        · rw [hrest.size, hsize, Forest.toList_cons, List.length_cons, List.length_append]
          omega
        · intro x hx
          rw [hrest.old x (by omega), hkeep x hx]
        · intro x hx
          rw [Forest.number, Forest.toList_cons, List.mem_cons, List.mem_append] at hx
          rcases hx with rfl | hx | hx
          · rw [hrest.old h.size (by omega), hself]
          · have hlt := (Forest.mem_number hx).2.1
            rw [hrest.old x.1 (by omega), hnew x hx]
          · exact hnew₂ x hx
      · rw [childPids_cons_of_ne hrow] at hV
        rcases ih inv keys loads hV with ⟨h', hfold, hrest⟩
        refine ⟨h', bind_eq_ok.2 ⟨h, ?_, hfold⟩, hrest⟩
        rw [constructRow, if_neg hrow]

/-- Whatever the condition of the walk, the unfolding of the table is inserted. -/
theorem constructTreeBy_spec (cmp : Int × Name → Int × Name → Bool) (sys : Sys)
    (pids : List Row) (n : Nat) :
    Inserts cmp sys pids (constructTreeBy (byKey cmp) sys pids n) n := by
  induction n with
  | zero =>
      intro h a pid V _ _ hV
      simp [Forest.unfold] at hV
  | succ n ih =>
      intro h a pid V ha hson hV loads
      exact constructRows_spec ih ha (Grown.refl hson) (by simp) loads hV

def pidBefore (x y : Int × Name) : Bool := x.1 < y.1

def addrBefore (x y : Int × Name) : Bool := x.2.addr < y.2.addr

theorem constructTree_eq : constructTree = constructTreeBy (byKey pidBefore) := rfl

theorem constructTreeName_eq : constructTreeName = constructTreeBy (byKey addrBefore) := rfl

/-! ## The cells that are kept -/

/-- The cells that are in the tree after `V` was inserted in the cells from `n` on. -/
def keptCells (cmp : Int × Name → Int × Name → Bool) (sys : Sys) (V : Forest Int) (n : Nat) :
    Forest Nat :=
  (Forest.insertAll (onKeys cmp sys) .nil (V.number n)).map Prod.fst

theorem keptCells_eq {V : Forest Int} {n : Nat} (smooth : (V.number n).Smooth (onKeys cmp sys) []) :
    keptCells cmp sys V n = (V.number n).map Prod.fst := by
  rw [keptCells, Forest.insertAll_nil_eq smooth]

theorem keptCells_length_le (cmp : Int × Name → Int × Name → Bool) (sys : Sys) (V : Forest Int)
    (n : Nat) : (keptCells cmp sys V n).toList.length ≤ V.toList.length := by
  have hlen := Forest.insertAll_length_le (onKeys cmp sys) .nil (V.number n)
  rw [Forest.toList_nil, List.length_nil, Nat.zero_add, Forest.number_length] at hlen
  rw [keptCells, Forest.length_map]
  exact hlen

theorem smooth_of_kept {V : Forest Int} {n : Nat}
    (h : V.toList.length ≤ (keptCells cmp sys V n).toList.length) :
    (V.number n).Smooth (onKeys cmp sys) [] := by
  rw [keptCells, Forest.length_map] at h
  refine @Forest.smooth_of_length_le _ _ .nil _ ?_
  rw [Forest.toList_nil, List.length_nil, Nat.zero_add, Forest.number_length]
  exact h

theorem Inserted.kept {V : Forest Int} (ins : Inserted cmp sys h₀ a .nil h h' V) :
    Grown h₀ a h' (keptCells cmp sys V h.size) :=
  ins.grown

/-! ## The tree of the pids -/

theorem Inserted.pid {V : Forest Int} {acc : Forest (Nat × Int)}
    (ins : Inserted cmp sys h₀ a acc h h' V) (loads : ∀ x ∈ V.toList, Loads sys x) {x : Nat × Int}
    (hx : x ∈ (V.number h.size).toList) : (h'.node x.1).pid = x.2 :=
  (congrArg Prod.fst (ins.new x hx)).trans (keyOf_fst (loads x.2 (Forest.mem_number hx).2.2))

/-- Insertions that drop nothing leave the unfolding. -/
theorem Inserted.shown {V : Forest Int} (ins : Inserted cmp sys h₀ a .nil h h' V)
    (loads : ∀ x ∈ V.toList, Loads sys x)
    (smooth : (V.number h.size).Smooth (onKeys cmp sys) []) :
    Grown h₀ a h' ((V.number h.size).map Prod.fst) ∧
      h'.shown ((V.number h.size).map Prod.fst) = V := by
  refine ⟨keptCells_eq smooth ▸ ins.kept, ?_⟩
  have hpids : h'.shown ((V.number h.size).map Prod.fst) = (V.number h.size).map Prod.snd := by
    rw [Heap.shown, Forest.map_map]
    exact Forest.map_congr fun x hx => ins.pid loads hx
  rw [hpids, Forest.number_map_snd]

/-- Where the condition compares pids and every pid may be appended to those before it,
nothing is dropped. -/
theorem smooth_of_appendable {V : Forest Int} (loads : ∀ x ∈ V.toList, Loads sys x)
    (order : V.AllSiblings Appendable) (n : Nat) :
    (V.number n).Smooth (onKeys pidBefore sys) [] := by
  rw [← Forest.number_map_snd n V, Forest.allSiblings_map] at order
  rw [Forest.smooth_nil_iff]
  refine (order.and (Forest.allSiblings_mem _)).imp ?_
  rintro l ⟨hl, hmem⟩ xs y zs rfl x hx
  have hpid : ∀ z ∈ xs ++ y :: zs, (keyOf sys z).1 = z.2 := fun z hz =>
    keyOf_fst (loads z.2 (Forest.mem_number (hmem z hz)).2.2)
  have hlt : x.2 < y.2 := by
    refine hl (xs.map Prod.snd) y.2 (zs.map Prod.snd) (by simp) x.2 ?_
    rw [← List.map_dropLast]
    exact List.mem_map_of_mem hx
  rw [onKeys, pidBefore, hpid x (by simp [List.dropLast_subset _ hx]), hpid y (by simp)]
  exact decide_eq_true hlt

def Constructs (pids : List Row) (construct : Heap → Ptr → Int → Except Fault Heap)
    (n : Nat) : Prop :=
  ∀ {h : Heap} {a : Nat} {pid : Int} {V : Forest Int}, a < h.size →
    (h.node a).firstSon = none → Forest.unfold (childPids pids) n pid = some V →
    ∃ h' F, construct h (some a) pid = .ok h' ∧ Grown h a h' F ∧ h'.shown F = V

theorem constructTree_spec (loads : ∀ row ∈ pids, Loads sys row.pid)
    (order : ∀ pid, Appendable (childPids pids pid)) (n : Nat) :
    Constructs pids (constructTree sys pids n) n := by
  intro h a pid V ha hson hV
  have hloads : ∀ x ∈ V.toList, Loads sys x := by
    intro x hx
    rcases exists_row hV hx with ⟨row, hrow, rfl⟩
    exact loads row hrow
  rw [constructTree_eq]
  rcases constructTreeBy_spec pidBefore sys pids n ha hson hV hloads with ⟨h', hcall, hins⟩
  have smooth := smooth_of_appendable hloads (Forest.allSiblings_unfold hV order) h.size
  exact ⟨h', _, hcall, hins.shown hloads smooth⟩

end OSLabs.Pstree
