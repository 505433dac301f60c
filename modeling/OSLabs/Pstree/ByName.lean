import OSLabs.Pstree.Ordered

/-! # The tree of ConstructTree_name

`ConstructTree_name` compares the addresses of the names, not the names, and its walk drops
the siblings behind the place where it stops. The tree is complete exactly where no walk
stops early, and then its siblings stand in the order of the table: they are ordered by name
exactly if the names ascend with the pids.
-/

namespace OSLabs.Pstree

open Lib

variable {sys : Sys} {pids : List Row} {h h' h₀ : Heap} {F : Forest Nat} {V : Forest Int}
  {a fuel : Nat} {p : Ptr} {d r : Int} {cmp : Int × Name → Int × Name → Bool}

def strcmp : List Char → List Char → Int
  | [], [] => 0
  | [], c :: _ => -c.toNat
  | c :: _, [] => c.toNat
  | c :: s, c' :: t => if c = c' then strcmp s t else c.toNat - c'.toNat

def NamesAscend (names : List (List Char)) : Prop :=
  names.Pairwise fun s t => strcmp s t ≤ 0

instance (names : List (List Char)) : Decidable (NamesAscend names) :=
  inferInstanceAs (Decidable (names.Pairwise fun s t => strcmp s t ≤ 0))

/-- `ConstructTree_name` returns a tree that shows `r` and its descendants, each once, with
every sibling list in the order of the names. -/
def ShowsByName (sys : Sys) (pids : List Row) (fuel : Nat) (h : Heap) (a : Nat) (r : Int) :
    Prop :=
  ∃ h' F, constructTreeName sys pids fuel h (some a) r = .ok h' ∧
    Links h' (some a) ((h'.node a).depth + 1) (h'.node a).firstSon F ∧
    (h'.shown (.cons a F .nil)).toList.Nodup ∧
    (∀ x, x ∈ (h'.shown (.cons a F .nil)).toList ↔
      Relation.ReflTransGen (Forest.Child (childPids pids)) r x) ∧
    F.AllSiblings fun l => NamesAscend (l.map fun x => (h'.node x).name.text)

/-- The descendants of `r` with the cells of their nodes, which are allocated in preorder
from `n` on. -/
def allocation (pids : List Row) (fuel : Nat) (r : Int) (n : Nat) : Forest (Nat × Int) :=
  ((Forest.unfold (childPids pids) fuel r).getD .nil).number n

/-! ## Complete trees -/

theorem Inserted.links (ins : Inserted cmp sys h a .nil h h' V) :
    Links h' (some a) ((h'.node a).depth + 1) (h'.node a).firstSon
      (keptCells cmp sys V h.size) := by
  rw [ins.kept.depth]
  exact ins.kept.links

/-- If every process is in the tree, no walk has stopped early. -/
theorem Inserted.smooth (ins : Inserted cmp sys h a .nil h h' V) (distinct : V.toList.Nodup)
    (hl : Links h' (some a) ((h'.node a).depth + 1) (h'.node a).firstSon F)
    (complete : ∀ x ∈ V.toList, x ∈ (h'.shown F).toList) :
    (V.number h.size).Smooth (onKeys cmp sys) [] := by
  have hlen := (List.subperm_of_subset distinct complete).length_le
  rw [Heap.shown, Forest.length_map, hl.unique ins.links] at hlen
  exact smooth_of_kept hlen

theorem Inserted.names (ins : Inserted cmp sys h₀ a .nil h h' V) :
    (((V.number h.size).map Prod.fst).AllSiblings fun l =>
        NamesAscend (l.map fun x => (h'.node x).name.text)) ↔
      (V.number h.size).AllSiblings fun l =>
        NamesAscend (l.map fun x => (keyOf sys x).2.text) := by
  have hsame : ∀ l : List (Nat × Int), (∀ x ∈ l, x ∈ (V.number h.size).toList) →
      (l.map Prod.fst).map (fun x => (h'.node x).name.text) =
        l.map fun x => (keyOf sys x).2.text := by
    intro l hl
    rw [List.map_map]
    refine List.map_congr_left fun x hx => ?_
    have hname := congrArg Prod.snd (ins.new x (hl x hx))
    exact congrArg Name.text hname
  rw [Forest.allSiblings_map]
  constructor
  · intro hall
    refine (hall.and (Forest.allSiblings_mem _)).imp ?_
    rintro l ⟨hl, hmem⟩
    rwa [hsame l hmem] at hl
  · intro hall
    refine (hall.and (Forest.allSiblings_mem _)).imp ?_
    rintro l ⟨hl, hmem⟩
    rwa [hsame l hmem]

/-! ## The tree by name -/

section Table

variable (sorted : pids.Pairwise fun x y => x.pid < y.pid) (root : ¬ Descends pids r r)
  (loads : ∀ row ∈ pids, Loads sys row.pid) (ha : a < h.size) (hpid : (h.node a).pid = r)
  (hson : (h.node a).firstSon = none) (hfuel : pids.length < fuel)

include sorted root loads ha hson hfuel

/-- What `ConstructTree_name` does on the table, whatever the addresses. -/
theorem constructTreeName_spec :
    ∃ h' V, constructTreeName sys pids fuel h (some a) r = .ok h' ∧
      Inserted addrBefore sys h a .nil h h' V ∧ (r :: V.toList).Nodup ∧
      (∀ x ∈ V.toList, Loads sys x) ∧ (∀ x, x ∈ V.toList ↔ Descends pids r x) ∧
      allocation pids fuel r h.size = V.number h.size := by
  have distinct := nodup_of_sorted sorted
  rcases Option.isSome_iff_exists.1 (unfold_isSome_of_root distinct root hfuel) with ⟨V, hV⟩
  have hloads : ∀ x ∈ V.toList, Loads sys x := by
    intro x hx
    rcases exists_row hV hx with ⟨row, hrow, rfl⟩
    exact loads row hrow
  rw [constructTreeName_eq]
  rcases constructTreeBy_spec addrBefore sys pids fuel ha hson hV hloads with ⟨h', hcall, hins⟩
  refine ⟨h', V, hcall, hins, unfold_distinct distinct root hV, hloads, ?_, ?_⟩
  · intro x
    exact Forest.mem_unfold hV
  · rw [allocation, hV]
    rfl

include hpid

theorem ShowsByName.smooth (hshows : ShowsByName sys pids fuel h a r) :
    (allocation pids fuel r h.size).Smooth (onKeys addrBefore sys) [] := by
  rcases constructTreeName_spec sorted root loads ha hson hfuel with
    ⟨h₁, V, hcall, ins, hnodup, _, hmem, halloc⟩
  rcases hshows with ⟨h₂, F, hcall', hlinks, _, hmem', _⟩
  have heq := Except.ok.inj (hcall.symm.trans hcall')
  subst heq
  rw [halloc]
  refine ins.smooth (List.nodup_cons.1 hnodup).2 hlinks fun x hx => ?_
  have hin := (hmem' x).2 ((hmem x).1 hx).to_reflTransGen
  rw [Heap.shown_cons, Forest.toList_cons, List.mem_cons, List.mem_append] at hin
  rcases hin with hself | hin | hin
  · have hxr : x = r := by rw [hself, ins.grown.node, hpid]
    exact absurd (hxr ▸ hx) (List.nodup_cons.1 hnodup).1
  · exact hin
  · cases hin

/-- The tree by name is complete and in order exactly if, for the sons of every process in
the order of their pids, the name of each one has a larger address than those of all before
it but the last of them, and the names ascend. -/
theorem showsByName_iff : ShowsByName sys pids fuel h a r ↔
    (allocation pids fuel r h.size).AllSiblings fun l =>
      Forest.Appends (onKeys addrBefore sys) l ∧
        NamesAscend (l.map fun x => (keyOf sys x).2.text) := by
  constructor
  · intro hshows
    have hsmooth := hshows.smooth sorted root loads ha hpid hson hfuel
    refine (Forest.smooth_nil_iff.1 hsmooth).and ?_
    rcases constructTreeName_spec sorted root loads ha hson hfuel with
      ⟨h₁, V, hcall, ins, _, _, _, halloc⟩
    rcases hshows with ⟨h₂, F, hcall', hlinks, _, _, hnames⟩
    have heq := Except.ok.inj (hcall.symm.trans hcall')
    subst heq
    rw [halloc] at hsmooth ⊢
    have hF := hlinks.unique ins.links
    rw [keptCells_eq hsmooth] at hF
    rw [hF] at hnames
    exact ins.names.1 hnames
  · intro hall
    rcases constructTreeName_spec sorted root loads ha hson hfuel with
      ⟨h₁, V, hcall, ins, hnodup, hloads, hmem, halloc⟩
    rw [halloc] at hall
    have hsmooth := Forest.smooth_nil_iff.2 (hall.imp fun l hl => hl.1)
    have hlinks := ins.links
    rw [keptCells_eq hsmooth] at hlinks
    have hshown := (ins.shown hloads hsmooth).2
    have htree : (h₁.shown (.cons a ((V.number h.size).map Prod.fst) .nil)).toList =
        r :: V.toList := by
      rw [Heap.shown_cons, hshown, ins.grown.node, Forest.toList_cons, hpid]
      exact congrArg _ (List.append_nil _)
    refine ⟨h₁, _, hcall, hlinks, ?_, ?_, ins.names.2 (hall.imp fun l hl => hl.2)⟩
    · rw [htree]
      exact hnodup
    · intro x
      rw [htree, List.mem_cons, hmem, Relation.reflTransGen_iff_eq_or_transGen]

end Table

theorem showsByName_threeProcesses :
    ShowsByName threeProcesses [⟨1, 0⟩, ⟨2, 0⟩, ⟨7, 1⟩] 4 (emptyHeap.push (emptyHeap.node 0))
      0 0 := by
  have halloc : allocation [⟨1, 0⟩, ⟨2, 0⟩, ⟨7, 1⟩] 4 0 1 =
      .cons (1, 1) (.cons (2, 7) .nil .nil) (.cons (3, 2) .nil .nil) := rfl
  have hsmooth : (allocation [⟨1, 0⟩, ⟨2, 0⟩, ⟨7, 1⟩] 4 0 1).Smooth
      (onKeys addrBefore threeProcesses) [] := by
    rw [halloc]
    decide
  refine (showsByName_iff (by decide) (not_descends_of_lt (by decide) 0) threeProcesses_rows
    (Nat.lt_succ_self 0) rfl rfl (by decide)).2 ((Forest.smooth_nil_iff.1 hsmooth).and ?_)
  rw [halloc]
  exact ⟨by decide, by decide, ⟨by decide, trivial, trivial⟩, by decide, trivial, trivial⟩

/-- Process 1 with the sons 2, 3 and 4; the heap hands out falling addresses. -/
def fallingAddresses : Sys where
  dir := [['1'], ['2'], ['3'], ['4']]
  stat := fun pid =>
    if pid = 2 then some ['2', ' ', '(', 'a', ')', ' ', 'S', ' ', '1', ' ']
    else if pid = 3 then some ['3', ' ', '(', 'b', ')', ' ', 'S', ' ', '1', ' ']
    else if pid = 4 then some ['4', ' ', '(', 'c', ')', ' ', 'S', ' ', '1', ' ']
    else some ['1', ' ', '(', 'i', ')', ' ', 'S', ' ', '0', ' ']
  nameBuf := fun n => 8192 - 1024 * n
  literal := 0

/-- Process 3 goes behind process 2, and process 4 takes its place. -/
theorem fallingAddresses_loses :
    ([⟨1, 0⟩, ⟨2, 1⟩, ⟨3, 1⟩, ⟨4, 1⟩] : List Row).Pairwise (fun x y => x.pid < y.pid) ∧
    (∀ p, ¬ Descends [⟨1, 0⟩, ⟨2, 1⟩, ⟨3, 1⟩, ⟨4, 1⟩] p p) ∧
    (∀ row ∈ [Row.mk 1 0, ⟨2, 1⟩, ⟨3, 1⟩, ⟨4, 1⟩], Loads fallingAddresses row.pid) ∧
    ∀ fuel > 4, ¬ ShowsByName fallingAddresses [⟨1, 0⟩, ⟨2, 1⟩, ⟨3, 1⟩, ⟨4, 1⟩] fuel
      (emptyHeap.push { emptyHeap.node 0 with pid := 1 }) 0 1 := by
  have sorted : ([⟨1, 0⟩, ⟨2, 1⟩, ⟨3, 1⟩, ⟨4, 1⟩] : List Row).Pairwise
      fun x y => x.pid < y.pid := by decide
  have acyclic : ∀ p, ¬ Descends [⟨1, 0⟩, ⟨2, 1⟩, ⟨3, 1⟩, ⟨4, 1⟩] p p :=
    not_descends_of_lt (by decide)
  have loads : ∀ row ∈ [Row.mk 1 0, ⟨2, 1⟩, ⟨3, 1⟩, ⟨4, 1⟩], Loads fallingAddresses row.pid := by
    intro row hrow n
    simp only [List.mem_cons, List.not_mem_nil, or_false] at hrow
    rcases hrow with rfl | rfl | rfl | rfl
    · exact ⟨_, rfl, rfl⟩
    · exact ⟨_, rfl, rfl⟩
    · exact ⟨_, rfl, rfl⟩
    · exact ⟨_, rfl, rfl⟩
  refine ⟨sorted, acyclic, loads, ?_⟩
  intro fuel hfuel hshows
  obtain ⟨n, rfl⟩ : ∃ n, fuel = n + 5 := ⟨fuel - 5, by omega⟩
  have hsmooth := hshows.smooth sorted (acyclic 1) loads (Nat.lt_succ_self 0) rfl rfl hfuel
  have halloc : allocation [⟨1, 0⟩, ⟨2, 1⟩, ⟨3, 1⟩, ⟨4, 1⟩] (n + 5) 1 1 =
      .cons (1, 2) .nil (.cons (2, 3) .nil (.cons (3, 4) .nil .nil)) := rfl
  have hnot : ¬ (Forest.cons ((1 : Nat), (2 : Int)) .nil (.cons (2, 3) .nil
      (.cons (3, 4) .nil .nil))).Smooth (onKeys addrBefore fallingAddresses) [] := by decide
  exact hnot (halloc ▸ hsmooth)

end OSLabs.Pstree
