import OSLabs.Pstree.Snapshot

/-! # ConstructTree builds the ordered tree of the table

On a table with strictly increasing pids, the walk of `ConstructTree` always ends at the
last sibling. From a root that is not below itself, the sons of every node are then the
rows below its pid, in ascending order, and no node and no process occurs twice.
-/

namespace OSLabs.Pstree

open Lib

variable {sys : Sys} {pids : List Row} {h h' : Heap} {F : Forest Nat} {a fuel : Nat}
  {par p : Ptr} {d r : Int}

/-! ## Tables with distinct pids -/

abbrev Descends (pids : List Row) : Int → Int → Prop :=
  Relation.TransGen (Forest.Child (childPids pids))

theorem parent_unique (distinct : (pids.map Row.pid).Nodup) {p q c : Int}
    (hp : c ∈ childPids pids p) (hq : c ∈ childPids pids q) : p = q := by
  have heq := List.inj_on_of_nodup_map distinct (mem_childPids.1 hp) (mem_childPids.1 hq) rfl
  exact (Row.mk.inj heq).2

theorem childPids_sublist (pids : List Row) (p : Int) :
    (childPids pids p).Sublist (pids.map Row.pid) :=
  List.filter_sublist.map _

theorem nodup_of_sorted (sorted : pids.Pairwise fun x y => x.pid < y.pid) :
    (pids.map Row.pid).Nodup :=
  (List.pairwise_map.2 sorted : (pids.map Row.pid).Pairwise (· < ·)).imp Int.ne_of_lt

/-- From a root that is not below itself, fuel for every row is enough. -/
theorem unfold_isSome_of_root (distinct : (pids.map Row.pid).Nodup)
    (root : ¬ Descends pids r r) (hfuel : pids.length < fuel) :
    (Forest.unfold (childPids pids) fuel r).isSome := by
  refine Forest.unfold_isSome (s := pids.map Row.pid) ?_ ?_ ?_
  · intro p c hc
    exact (childPids_sublist pids p).subset hc
  · intro y hy
    exact Forest.acyclic_of_root (parent_unique distinct) root hy
  · rwa [List.length_map]

theorem not_descends_of_lt (order : ∀ row ∈ pids, row.ppid < row.pid) (p : Int) :
    ¬ Descends pids p p := by
  have hlt : ∀ {q c}, Descends pids q c → q < c := by
    intro q c hc
    induction hc with
    | single hc => exact order _ (mem_childPids.1 hc)
    | tail _ hc ih => exact Int.lt_trans ih (order _ (mem_childPids.1 hc))
  exact fun cycle => Int.lt_irrefl p (hlt cycle)

/-- The unfolding shows the descendants of the root, each once, and not the root. -/
theorem unfold_distinct (distinct : (pids.map Row.pid).Nodup) (root : ¬ Descends pids r r)
    {V : Forest Int} (hV : Forest.unfold (childPids pids) fuel r = some V) :
    (r :: V.toList).Nodup := by
  refine List.nodup_cons.2 ⟨?_, ?_⟩
  · rw [Forest.mem_unfold hV]
    exact root
  · exact Forest.unfold_nodup (parent_unique distinct)
      (fun p _ => distinct.sublist (childPids_sublist pids p)) hV

/-! ## Sibling lists -/

def Siblings (h : Heap) : Ptr → List Nat → Prop
  | p, [] => p = none
  | p, x :: l => p = some x ∧ Siblings h (h.node x).nextSibling l

theorem Links.siblings (hl : Links h par d p F) : Siblings h p F.roots := by
  induction F generalizing p with
  | nil => exact hl
  | cons a sons siblings _ ih => exact ⟨hl.1, ih hl.2.2.2.2⟩

theorem Links.roots_place (hl : Links h par d p F) :
    ∀ x ∈ F.roots, (h.node x).parent = par ∧ (h.node x).depth = d := by
  induction F generalizing p with
  | nil => simp [Forest.roots]
  | cons a sons siblings _ ih =>
      rcases hl with ⟨_, hpar, hdepth, _, hsibs⟩
      intro x hx
      rcases List.mem_cons.1 hx with rfl | hx
      · exact ⟨hpar, hdepth⟩
      · exact ih hsibs x hx

theorem Links.all (hl : Links h par d p F) :
    F.All fun x sons => Links h (some x) ((h.node x).depth + 1) (h.node x).firstSon sons := by
  induction F generalizing par d p with
  | nil => trivial
  | cons a sons siblings ihs ih =>
      rcases hl with ⟨_, _, hdepth, hsons, hsibs⟩
      rw [← hdepth] at hsons
      exact ⟨hsons, ihs hsons, ih hsibs⟩

/-- The list of sons of `p` holds the rows below its pid in strictly ascending order, and
every son has the `Parent` and the `depth` that belong to it. -/
def SonsInOrder (pids : List Row) (h : Heap) (p : Nat) : Prop :=
  ∃ sons, Siblings h (h.node p).firstSon sons ∧
    sons.map (fun s => (h.node s).pid) = childPids pids (h.node p).pid ∧
    (childPids pids (h.node p).pid).Pairwise (· < ·) ∧
    ∀ s ∈ sons, (h.node s).parent = some p ∧ (h.node s).depth = (h.node p).depth + 1

theorem Links.sonsInOrder {x : Nat} {sons : Forest Nat}
    (sorted : pids.Pairwise fun x y => x.pid < y.pid)
    (hl : Links h (some x) ((h.node x).depth + 1) (h.node x).firstSon sons)
    (hpids : (h.shown sons).roots = childPids pids (h.node x).pid) : SonsInOrder pids h x := by
  refine ⟨sons.roots, hl.siblings, ?_, ?_, hl.roots_place⟩
  · rw [← hpids, Heap.shown, Forest.roots_map]
  · exact (List.pairwise_map.2 sorted).sublist (childPids_sublist pids _)

/-- On a sorted table every row may be appended to those before it. -/
theorem appendable_childPids (sorted : pids.Pairwise fun x y => x.pid < y.pid) (p : Int) :
    Appendable (childPids pids p) := by
  intro xs y zs hsplit x hx
  have sorted' : (pids.map Row.pid).Pairwise (· < ·) := List.pairwise_map.2 sorted
  have hpairs := sorted'.sublist (childPids_sublist pids p)
  rw [hsplit] at hpairs
  exact (List.pairwise_append.1 hpairs).2.2 x (List.dropLast_subset _ hx) y (by simp)

/-! ## The tree -/

/-- `ConstructTree` builds the ordered tree of the table: below `r` every node has the
sons that the table lists, in order, and nothing occurs twice. -/
theorem constructTree_inOrder (sorted : pids.Pairwise fun x y => x.pid < y.pid)
    (root : ¬ Descends pids r r) (loads : ∀ row ∈ pids, Loads sys row.pid) (ha : a < h.size)
    (hpid : (h.node a).pid = r) (hson : (h.node a).firstSon = none)
    (hfuel : pids.length < fuel) :
    ∃ h' F, constructTree sys pids fuel h (some a) r = .ok h' ∧
      Links h' (some a) ((h'.node a).depth + 1) (h'.node a).firstSon F ∧
      (a :: F.toList).Nodup ∧ (r :: (h'.shown F).toList).Nodup ∧
      ∀ p ∈ a :: F.toList, SonsInOrder pids h' p := by
  have distinct := nodup_of_sorted sorted
  rcases Option.isSome_iff_exists.1 (unfold_isSome_of_root distinct root hfuel) with ⟨V, hV⟩
  rcases constructTree_spec loads (appendable_childPids sorted) fuel ha hson hV with
    ⟨h', F, hcall, hgrown, hF⟩
  have hapid : (h'.node a).pid = r := by rw [hgrown.node, hpid]
  have hlinks := hgrown.links
  rw [← hgrown.depth] at hlinks
  refine ⟨h', F, hcall, hlinks, ?_, ?_, ?_⟩
  · exact List.nodup_cons.2 ⟨hgrown.not_mem ha, hgrown.nodup⟩
  · rw [hF]
    exact unfold_distinct distinct root hV
  · have hall : F.All fun x sons => (h'.shown sons).roots = childPids pids (h'.node x).pid := by
      rw [← hF] at hV
      exact Forest.all_map.1 (Forest.all_unfold hV)
    intro p hp
    rcases List.mem_cons.1 hp with rfl | hp
    · refine hlinks.sonsInOrder sorted ?_
      rw [hF, hapid]
      exact Forest.unfold_roots hV
    · rcases (hlinks.all.and hall).of_mem hp with ⟨sons, hsons, hpids⟩
      exact hsons.sonsInOrder sorted hpids

theorem threeProcesses_rows :
    ∀ row ∈ [Row.mk 1 0, ⟨2, 0⟩, ⟨7, 1⟩], Loads threeProcesses row.pid := by
  intro row hrow
  refine threeProcesses_snapshot.loads (.inr ?_)
  simp only [List.mem_cons, List.not_mem_nil, or_false] at hrow
  rcases hrow with rfl | rfl | rfl
  · decide
  · decide
  · decide

theorem constructTree_inOrder_threeProcesses :
    ∃ h' F, constructTree threeProcesses [⟨1, 0⟩, ⟨2, 0⟩, ⟨7, 1⟩] 4
        (emptyHeap.push (emptyHeap.node 0)) (some 0) 0 = .ok h' ∧
      Links h' (some 0) ((h'.node 0).depth + 1) (h'.node 0).firstSon F ∧
      (0 :: F.toList).Nodup ∧ (0 :: (h'.shown F).toList).Nodup ∧
      ∀ p ∈ 0 :: F.toList, SonsInOrder [⟨1, 0⟩, ⟨2, 0⟩, ⟨7, 1⟩] h' p := by
  exact constructTree_inOrder (by decide) (not_descends_of_lt (by decide) 0)
    threeProcesses_rows (Nat.lt_succ_self 0) rfl rfl (by decide)

end OSLabs.Pstree
