import OSLabs.Pstree.ByName
import OSLabs.Pstree.Failing
import OSLabs.Pstree.Layout

/-! # pstree while processes exit

The commands read `/proc` twice: `getPIDs` for the table and `NewNode` for the nodes. A
process that has exited before `getPPID` gets to it has the parent -1 and is left out with
all that is below it; one that exits later is still in the table, and `ConstructTree` goes
through the `NULL` that `NewNode` returns for it.
-/

namespace OSLabs.Pstree

open Lib

/-! ## The commands -/

inductive Command where
  | cmdRoot
  | exeN
  | exeP
  deriving DecidableEq

namespace Command

def construct : Command → Sys → List Row → Nat → Heap → Ptr → Int → Except Fault Heap
  | cmdRoot => constructTreeName
  | exeN => constructTree
  | exeP => constructTree

def print : Command → Heap → Int → Nat → Ptr → Except Fault (List Char)
  | cmdRoot => printTree
  | exeN => printTree
  | exeP => printTreeP

/-- What is built where `getPPID` opens the stat files of `scan` and `NewNode` those of
`later`. -/
def build (cmd : Command) (scan later : Sys) (qsort : List Row → List Row) (fuel : Nat)
    (rootPID : Int) : Except Fault (Ptr × Heap) := do
  let pids ← getPIDs scan
  let new ← addNewNode later emptyHeap rootPID none
  let h ← cmd.construct later (qsort pids) fuel new.2 new.1 rootPID
  return (new.1, h)

def run (cmd : Command) (scan later : Sys) (qsort : List Row → List Row) (fuel : Nat)
    (rootPID : Int) : Except Fault (List Char) := do
  let res ← cmd.build scan later qsort fuel rootPID
  cmd.print res.2 rootPID fuel res.1

theorem run_self (sys : Sys) :
    run cmdRoot sys sys = Pstree.cmdRoot sys ∧ run exeN sys sys = Pstree.exeN sys ∧
      run exeP sys sys = Pstree.exeP sys :=
  ⟨rfl, rfl, rfl⟩

/-- What the walks of the command compare. -/
def cmp : Command → Int × Name → Int × Name → Bool
  | cmdRoot => addrBefore
  | exeN => pidBefore
  | exeP => pidBefore

theorem construct_eq (cmd : Command) : cmd.construct = constructTreeBy (byKey cmd.cmp) := by
  cases cmd with
  | cmdRoot => rfl
  | exeN => rfl
  | exeP => rfl

end Command

/-! ## Surviving -/

/-- The processes that a run meets. `scan` has the stat files that `getPPID` can open and
`later` those that `NewNode` can open; what can be opened parses. No process has pid 0, and
no process is its own descendant. -/
structure Population (scan later : Sys) : Prop where
  distinct : (processes scan).Nodup
  positive : ∀ p ∈ processes scan, 0 < p
  parses : ∀ p file, scan.stat p = some file → ∃ stat, readStat file = .ok stat
  parsesLater : ∀ p file, later.stat p = some file →
    ∃ stat, readStat file = .ok stat ∧ stat.pid = p
  existing : ∀ p ≤ 0, later.stat p = none
  acyclic : ∀ p, ¬ Relation.TransGen (ChildOf scan) p p

def SurvivingChild (scan later : Sys) (p c : Int) : Prop :=
  ChildOf scan p c ∧ (scan.stat c).isSome = true ∧ (later.stat c).isSome = true

/-- Below `root` is the tree of the processes that survive: every node has the surviving
children of its process as sons, and none occurs twice. -/
def ShowsSurvivors (scan later : Sys) (h : Heap) (root : Ptr) (rootPID : Int) : Prop :=
  ∃ F, Links h none 0 root F ∧ (h.shown F).roots = [rootPID] ∧ (h.shown F).toList.Nodup ∧
    (h.shown F).All fun p sons => ∀ c, c ∈ sons.roots ↔ SurvivingChild scan later p c

/-- With enough fuel the command returns, and it shows the survivors if the root is one. -/
def Survives (cmd : Command) (scan later : Sys) (qsort : List Row → List Row)
    (rootPID : Int) : Prop :=
  ∃ bound, ∀ fuel > bound, ∃ root h text,
    cmd.build scan later qsort fuel rootPID = .ok (root, h) ∧
    cmd.run scan later qsort fuel rootPID = .ok text ∧
    ((later.stat rootPID).isSome = true → ShowsSurvivors scan later h root rootPID)

/-- The entries fit into the table, all processes that the table has below the root are
still there, and so is the root unless there are none. The default command also needs names
at addresses that make no walk stop early. -/
structure Safe (cmd : Command) (scan later : Sys) (qsort : List Row → List Row)
    (rootPID : Int) : Prop where
  few : (processes scan).length ≤ 2999
  alive : ∀ c, Descends (tableOf scan) rootPID c → (later.stat c).isSome = true
  root : Opens later rootPID ∨ childPids (tableOf scan) rootPID = []
  addresses : cmd = .cmdRoot → (later.stat rootPID).isSome = true →
    (allocation (qsort (tableOf scan)) ((tableOf scan).length + 1) rootPID 1).AllSiblings
      (Forest.Appends (onKeys addrBefore later))

variable {scan later : Sys} {qsort : List Row → List Row} {rootPID p c : Int} {cmd : Command}
  {fuel : Nat} {V : Forest Int}

/-! ## The table -/

theorem Population.getPPID_eq (pop : Population scan later) (p : Int) :
    getPPID scan p = .ok (parentOf scan p) := by
  cases hfile : scan.stat p with
  | none => simp only [parentOf, getPPID, hfile]
  | some file =>
      rcases pop.parses p file hfile with ⟨stat, hstat⟩
      rw [parentOf, getPPID_of_readStat hfile hstat]

theorem Population.childOf_iff (pop : Population scan later) :
    ChildOf scan p c ↔ c ∈ processes scan ∧ parentOf scan c = p := by
  refine and_congr_right fun _ => ?_
  rw [pop.getPPID_eq c, Except.ok.injEq]

theorem CorrectSort.child_iff (hsort : CorrectSort qsort) {pids : List Row} :
    Forest.Child (childPids (qsort pids)) p c ↔ Forest.Child (childPids pids) p c :=
  (hsort.childPids_perm pids p).mem_iff

theorem CorrectSort.child_eq (hsort : CorrectSort qsort) (pids : List Row) :
    Forest.Child (childPids (qsort pids)) = Forest.Child (childPids pids) := by
  funext p c
  exact propext hsort.child_iff

/-- The rows of the table: those of the processes and the seeded one. -/
theorem Population.child_iff (pop : Population scan later) :
    Forest.Child (childPids (tableOf scan)) p c ↔ c = 1 ∧ p = 0 ∨ ChildOf scan p c := by
  rw [Forest.Child, mem_childPids, pop.childOf_iff, tableOf, List.mem_cons, Row.mk.injEq,
    List.mem_map]
  refine or_congr_right ?_
  constructor
  · rintro ⟨x, hx, heq⟩
    rcases Row.mk.inj heq with ⟨rfl, hparent⟩
    exact ⟨hx, hparent⟩
  · rintro ⟨hc, hparent⟩
    exact ⟨c, hc, by rw [hparent]⟩

theorem Population.child_pos (pop : Population scan later)
    (hc : Forest.Child (childPids (tableOf scan)) p c) : 0 < c := by
  rcases pop.child_iff.1 hc with ⟨rfl, _⟩ | hchild
  · decide
  · exact pop.positive c hchild.1

theorem Population.descends_pos (pop : Population scan later)
    (hc : Descends (tableOf scan) p c) : 0 < c := by
  rcases Relation.TransGen.tail'_iff.1 hc with ⟨q, _, hqc⟩
  exact pop.child_pos hqc

theorem Population.reach_pos (pop : Population scan later) (hp : 0 < p)
    (hc : Relation.ReflTransGen (Forest.Child (childPids (tableOf scan))) p c) : 0 < c := by
  rcases Relation.reflTransGen_iff_eq_or_transGen.1 hc with rfl | hc
  · exact hp
  · exact pop.descends_pos hc

/-- Nothing leads back to pid 0, so the seeded row closes no cycle. -/
theorem Population.not_descends (pop : Population scan later) (p : Int) :
    ¬ Descends (tableOf scan) p p := by
  have hpath : ∀ {p c}, 0 < p → Descends (tableOf scan) p c →
      Relation.TransGen (ChildOf scan) p c := by
    intro p c hp hc
    induction hc with
    | single hc =>
        rcases pop.child_iff.1 hc with ⟨_, rfl⟩ | hchild
        · exact absurd hp (by decide)
        · exact .single hchild
    | tail hb hc ih =>
        rcases pop.child_iff.1 hc with ⟨_, rfl⟩ | hchild
        · exact absurd (pop.descends_pos hb) (by decide)
        · exact ih.tail hchild
  exact fun cycle => pop.acyclic p (hpath (pop.descends_pos cycle) cycle)

theorem Population.root_pos (pop : Population scan later)
    (hroot : (later.stat rootPID).isSome = true) : 0 < rootPID := by
  by_contra hle
  rw [pop.existing rootPID (Int.not_lt.1 hle)] at hroot
  cases hroot

theorem Population.loads (pop : Population scan later) (hopens : Opens later c) :
    Loads later c := by
  intro n
  by_cases hzero : c = 0
  · subst hzero
    exact ⟨_, rfl, rfl⟩
  · rcases Option.isSome_iff_exists.1 (hopens.resolve_left hzero) with ⟨file, hfile⟩
    rcases pop.parsesLater c file hfile with ⟨stat, hstat, hpid⟩
    rw [freshNode, if_neg hzero, hfile]
    exact ⟨_, bind_eq_ok.2 ⟨stat, hstat, rfl⟩, hpid⟩

/-- Fuel for every row is enough for the processes below a root. -/
theorem Population.unfold_exists (pop : Population scan later) (hsort : CorrectSort qsort)
    (rootPID : Int) : ∃ V, Forest.unfold (childPids (qsort (tableOf scan)))
      ((tableOf scan).length + 1) rootPID = some V := by
  refine Option.isSome_iff_exists.1 (Forest.unfold_isSome (s := (tableOf scan).map Row.pid)
    ?_ ?_ ?_)
  · intro p c hc
    exact (childPids_sublist _ p).subset (hsort.child_iff.1 hc)
  · intro y _
    rw [hsort.child_eq]
    exact pop.not_descends y
  · rw [List.length_map]
    exact Nat.lt_succ_self _

theorem CorrectSort.mem_unfold (hsort : CorrectSort qsort) {pids : List Row}
    (hV : Forest.unfold (childPids (qsort pids)) fuel rootPID = some V) :
    c ∈ V.toList ↔ Descends pids rootPID c := by
  rw [Forest.mem_unfold hV, hsort.child_eq]

/-- Below a process, no process occurs twice: it has one parent, and pid 0 is not reached. -/
theorem Population.unfold_nodup (pop : Population scan later) (hsort : CorrectSort qsort)
    (hroot : 0 < rootPID)
    (hV : Forest.unfold (childPids (qsort (tableOf scan))) fuel rootPID = some V) :
    V.toList.Nodup := by
  obtain ⟨children, hnone, hrows⟩ : ∃ children : Int → List Int, children 0 = [] ∧
      ∀ p ≠ 0, children p = childPids (qsort (tableOf scan)) p :=
    ⟨fun p => if p = 0 then [] else childPids (qsort (tableOf scan)) p, rfl, fun p hp => if_neg hp⟩
  have hmem : ∀ {p c}, c ∈ children p → parentOf scan c = p := by
    intro p c hc
    by_cases hp : p = 0
    · rw [hp, hnone] at hc
      cases hc
    · rw [hrows p hp] at hc
      rcases pop.child_iff.1 (hsort.child_iff.1 hc) with ⟨_, hzero⟩ | hchild
      · exact absurd hzero hp
      · exact (pop.childOf_iff.1 hchild).2
  have hsame : ∀ q, Relation.ReflTransGen
      (Forest.Child (childPids (qsort (tableOf scan)))) rootPID q →
        childPids (qsort (tableOf scan)) q = children q := by
    intro q hq
    rw [hsort.child_eq] at hq
    exact (hrows q (Int.ne_of_gt (pop.reach_pos hroot hq))).symm
  rw [Forest.unfold_congr hsame] at hV
  refine Forest.unfold_nodup (fun hp hq => (hmem hp).symm.trans (hmem hq)) ?_ hV
  intro q _
  by_cases hq : q = 0
  · rw [hq, hnone]
    exact .nil
  · rw [hrows q hq]
    exact tableOf_nodup pop.distinct hsort hq

/-! ## What is built -/

theorem Command.print_ok (cmd : Command) {h : Heap} {a : Nat} {F : Forest Nat}
    (tree : TreeAt h rootPID a F) (hpids : ∀ b ∈ a :: F.toList, 0 ≤ (h.node b).pid)
    (hfuel : 2 * F.toList.length + 1 < fuel) :
    ∃ text, cmd.print h rootPID fuel (some a) = .ok text := by
  cases cmd with
  | cmdRoot => exact ⟨_, printTreeBy_eq tree (fun _ _ => rfl) hfuel⟩
  | exeN => exact ⟨_, printTreeBy_eq tree (fun _ _ => rfl) hfuel⟩
  | exeP => exact ⟨_, printTreeP_eq tree hpids hfuel⟩

/-- The node for the root is in cell 0, and below it is what the insertions of `V` leave. -/
structure Built (cmp : Int × Name → Int × Name → Bool) (later : Sys) (rootPID : Int)
    (node : PsNode) (h : Heap) (V : Forest Int) : Prop where
  inserted : Inserted cmp later (emptyHeap.push node) 0 .nil (emptyHeap.push node) h V
  root : (h.node 0).pid = rootPID
  links : Links h none 0 (some 0) (.cons 0 (keptCells cmp later V 1) .nil)

/-- Where all processes can be opened, the command builds what its insertions leave. -/
theorem Population.build_eq (pop : Population scan later) (cmd : Command)
    (few : (processes scan).length ≤ 2999) (hroot : Opens later rootPID)
    (hV : Forest.unfold (childPids (qsort (tableOf scan))) fuel rootPID = some V)
    (alive : ∀ x ∈ V.toList, Opens later x) :
    ∃ node h, cmd.build scan later qsort fuel rootPID = .ok (some 0, h) ∧
      Built cmd.cmp later rootPID node h V := by
  rcases addNewNode_root (pop.loads hroot) with ⟨node, hnew, hpid, hpar, hdepth, hson, hnext⟩
  have hfirst : ((emptyHeap.push node).node 0).firstSon = none := by
    rw [show (emptyHeap.push node).node 0 = node from Heap.push_self emptyHeap node, hson]
  rcases constructTreeBy_spec cmd.cmp later (qsort (tableOf scan)) fuel (Nat.lt_succ_self 0)
    hfirst hV (fun x hx => pop.loads (alive x hx)) with ⟨h, hcall, hins⟩
  rcases hins.grown.tree hpar hdepth hnext with ⟨hself, hlinks⟩
  refine ⟨node, h, ?_, ⟨hins, hself.trans hpid, hlinks⟩⟩
  rw [Command.build, cmd.construct_eq]
  exact bind_eq_ok.2 ⟨_, getPIDs_eq (fun p _ => pop.getPPID_eq p) few,
    bind_eq_ok.2 ⟨_, hnew, bind_eq_ok.2 ⟨h, hcall, rfl⟩⟩⟩

theorem Built.cell_pid {cmp : Int × Name → Int × Name → Bool} {node : PsNode} {h : Heap}
    (built : Built cmp later rootPID node h V) (loads : ∀ x ∈ V.toList, Loads later x) {b : Nat}
    (hb : b ∈ (keptCells cmp later V 1).toList) : (h.node b).pid ∈ V.toList := by
  rw [keptCells, Forest.toList_map, List.mem_map] at hb
  rcases hb with ⟨x, hx, rfl⟩
  rcases Forest.mem_insertAll hx with hx | hx
  · cases hx
  · rw [built.inserted.pid loads hx]
    exact (Forest.mem_number hx).2.2

theorem Population.prints (pop : Population scan later) (hopens : Opens later rootPID)
    (hmem : ∀ x ∈ V.toList, Descends (tableOf scan) rootPID x)
    (loads : ∀ x ∈ V.toList, Loads later x) {node : PsNode} {h : Heap}
    (built : Built cmd.cmp later rootPID node h V) (hfuel : 2 * V.toList.length + 1 < fuel) :
    ∃ text, cmd.print h rootPID fuel (some 0) = .ok text := by
  have hcell : ∀ b ∈ (keptCells cmd.cmp later V 1).toList,
      Descends (tableOf scan) rootPID (h.node b).pid := fun b hb =>
    hmem _ (built.cell_pid loads hb)
  have hlen := keptCells_length_le cmd.cmp later V 1
  refine cmd.print_ok ⟨built.root, built.links.2.2.2.1.shape, ?_⟩ ?_
    (show 2 * (keptCells cmd.cmp later V 1).toList.length + 1 < fuel by omega)
  · intro b hb heq
    exact pop.not_descends rootPID (heq ▸ hcell b hb)
  · intro b hb
    rcases List.mem_cons.1 hb with rfl | hb
    · rw [built.root]
      rcases hopens with hzero | hroot
      · exact Int.le_of_eq hzero.symm
      · exact Int.le_of_lt (pop.root_pos hroot)
    · exact Int.le_of_lt (pop.descends_pos (hcell b hb))

/-! ## The survivors -/

/-- The children of a process in the table are its surviving ones, if all can be opened. -/
theorem Population.child_survives (pop : Population scan later) (hp : 0 < p)
    (alive : ∀ c, Forest.Child (childPids (tableOf scan)) p c → (later.stat c).isSome = true) :
    Forest.Child (childPids (tableOf scan)) p c ↔ SurvivingChild scan later p c := by
  constructor
  · intro hc
    rcases pop.child_iff.1 hc with ⟨_, rfl⟩ | hchild
    · exact absurd hp (by decide)
    · refine ⟨hchild, ?_, alive c hc⟩
      -- a process that `getPPID` cannot open has the parent -1
      by_contra hclosed
      rw [Bool.not_eq_true, Option.isSome_eq_false_iff, Option.isNone_iff_eq_none] at hclosed
      have hparent := hchild.2
      rw [getPPID, hclosed] at hparent
      have hnone : (-1 : Int) = p := Except.ok.inj hparent
      omega
  · intro hc
    exact pop.child_iff.2 (.inr hc.1)

theorem Population.surviving_path (pop : Population scan later) (hroot : 0 < rootPID)
    (alive : ∀ c, Descends (tableOf scan) rootPID c → (later.stat c).isSome = true)
    (hc : Descends (tableOf scan) rootPID c) :
    Relation.TransGen (SurvivingChild scan later) rootPID c := by
  induction hc with
  | single hc => exact .single ((pop.child_survives hroot fun d hd => alive d (.single hd)).1 hc)
  | tail hb hc ih =>
      exact ih.tail ((pop.child_survives (pop.descends_pos hb) fun d hd => alive d (hb.tail hd)).1 hc)

/-- A smooth insertion shows the survivors. -/
theorem Population.showsSurvivors (pop : Population scan later) (hsort : CorrectSort qsort)
    (hroot : (later.stat rootPID).isSome = true)
    (hV : Forest.unfold (childPids (qsort (tableOf scan))) fuel rootPID = some V)
    (alive : ∀ c, Descends (tableOf scan) rootPID c → (later.stat c).isSome = true)
    {node : PsNode} {h : Heap} {cmp : Int × Name → Int × Name → Bool}
    (built : Built cmp later rootPID node h V)
    (smooth : (V.number 1).Smooth (onKeys cmp later) []) :
    ShowsSurvivors scan later h (some 0) rootPID := by
  have hpos := pop.root_pos hroot
  have hmem : ∀ x ∈ V.toList, Descends (tableOf scan) rootPID x := fun x hx =>
    (hsort.mem_unfold hV).1 hx
  have hshown : h.shown ((V.number 1).map Prod.fst) = V :=
    (built.inserted.shown (fun x hx => pop.loads (.inr (alive x (hmem x hx)))) smooth).2
  have hlinks := built.links
  rw [keptCells_eq smooth] at hlinks
  have htree : h.shown (.cons 0 ((V.number 1).map Prod.fst) .nil) = .cons rootPID V .nil := by
    rw [Heap.shown_cons, hshown, built.root]
    rfl
  have hsons : ∀ q, Relation.ReflTransGen (Forest.Child (childPids (tableOf scan))) rootPID q →
      ∀ c, c ∈ childPids (qsort (tableOf scan)) q ↔ SurvivingChild scan later q c := by
    intro q hq c
    exact hsort.child_iff.trans (pop.child_survives (pop.reach_pos hpos hq)
      fun d hd => alive d (Relation.TransGen.tail' hq hd))
  refine ⟨_, hlinks, ?_, ?_, ?_⟩
  · rw [htree]
    rfl
  · rw [htree, Forest.toList_cons, Forest.toList_nil, List.append_nil, List.nodup_cons]
    exact ⟨fun hin => pop.not_descends rootPID (hmem _ hin), pop.unfold_nodup hsort hpos hV⟩
  · rw [htree]
    refine ⟨?_, ((Forest.all_unfold hV).and V.all_mem).imp ?_, trivial⟩
    · intro c
      rw [Forest.unfold_roots hV]
      exact hsons rootPID .refl c
    · rintro q sons ⟨hq, hin⟩ c
      rw [hq]
      exact hsons q (hmem q hin.1).to_reflTransGen c

/-! ## Safe runs -/

theorem Safe.smooth (safe : Safe cmd scan later qsort rootPID) (pop : Population scan later)
    (hsort : CorrectSort qsort) (hroot : (later.stat rootPID).isSome = true)
    (hV : Forest.unfold (childPids (qsort (tableOf scan))) ((tableOf scan).length + 1) rootPID =
      some V) (loads : ∀ x ∈ V.toList, Loads later x) :
    (V.number 1).Smooth (onKeys cmd.cmp later) [] := by
  have hpids : (V.number 1).Smooth (onKeys pidBefore later) [] :=
    smooth_of_appendable loads (Forest.allSiblings_unfold hV (tableOf_order pop.distinct hsort)) 1
  cases cmd with
  | cmdRoot =>
      have haddr := safe.addresses rfl hroot
      rw [allocation, hV] at haddr
      exact Forest.smooth_nil_iff.2 haddr
  | exeN => exact hpids
  | exeP => exact hpids

theorem Safe.survives (safe : Safe cmd scan later qsort rootPID) (pop : Population scan later)
    (hsort : CorrectSort qsort) : Survives cmd scan later qsort rootPID := by
  by_cases hopens : Opens later rootPID
  · rcases pop.unfold_exists hsort rootPID with ⟨V, hV⟩
    refine ⟨(tableOf scan).length + 2 * V.toList.length + 1, ?_⟩
    intro fuel hfuel
    have hV' := Forest.unfold_mono hV (show (tableOf scan).length + 1 ≤ fuel by omega)
    have hmem : ∀ x ∈ V.toList, Descends (tableOf scan) rootPID x := fun x hx =>
      (hsort.mem_unfold hV).1 hx
    have hopen : ∀ x ∈ V.toList, Opens later x := fun x hx => .inr (safe.alive x (hmem x hx))
    have hloads : ∀ x ∈ V.toList, Loads later x := fun x hx => pop.loads (hopen x hx)
    rcases pop.build_eq cmd safe.few hopens hV' hopen with ⟨node, h, hbuild, built⟩
    rcases pop.prints hopens hmem hloads built (show _ < fuel by omega) with ⟨text, htext⟩
    refine ⟨some 0, h, text, hbuild, bind_eq_ok.2 ⟨_, hbuild, htext⟩, ?_⟩
    intro hroot
    exact pop.showsSurvivors hsort hroot hV' safe.alive built
      (safe.smooth pop hsort hroot hV hloads)
  · -- no root, and nothing to put below it
    have hleaf : childPids (qsort (tableOf scan)) rootPID = [] := by
      have hperm := hsort.childPids_perm (tableOf scan) rootPID
      rw [safe.root.resolve_left hopens] at hperm
      exact hperm.eq_nil
    refine ⟨0, ?_⟩
    intro fuel hfuel
    obtain ⟨n, rfl⟩ : ∃ n, fuel = n + 1 := ⟨fuel - 1, by omega⟩
    have hbuild : cmd.build scan later qsort (n + 1) rootPID = .ok (none, emptyHeap) := by
      rw [Command.build, cmd.construct_eq]
      exact bind_eq_ok.2 ⟨_, getPIDs_eq (fun p _ => pop.getPPID_eq p) safe.few,
        bind_eq_ok.2 ⟨_, newNode_none hopens emptyHeap,
          bind_eq_ok.2 ⟨_, constructTreeBy_leaf hleaf emptyHeap none, rfl⟩⟩⟩
    have hprint : cmd.print emptyHeap rootPID (n + 1) none = .ok [] := by
      cases cmd with
      | cmdRoot => rfl
      | exeN => rfl
      | exeP => rfl
    refine ⟨none, emptyHeap, [], hbuild, bind_eq_ok.2 ⟨_, hbuild, hprint⟩, ?_⟩
    intro hroot
    exact absurd (.inr hroot) hopens

/-! ## Runs that survive -/

/-- A build that returns had room for the entries, and found the root and all below it. -/
theorem Population.of_build (pop : Population scan later) (hsort : CorrectSort qsort)
    {res : Ptr × Heap} (hbuild : cmd.build scan later qsort fuel rootPID = .ok res) :
    (processes scan).length ≤ 2999 ∧
      (∀ c, Descends (tableOf scan) rootPID c → (later.stat c).isSome = true) ∧
      (Opens later rootPID ∨ childPids (tableOf scan) rootPID = []) := by
  rw [Command.build, cmd.construct_eq] at hbuild
  simp only [bind_eq_ok] at hbuild
  rcases hbuild with ⟨pids, hpids, new, hnew, h, hcall, _⟩
  have few : (processes scan).length ≤ 2999 := by
    by_contra hmany
    rw [getPIDs_full (fun p _ => pop.getPPID_eq p) (Nat.lt_of_not_le hmany)] at hpids
    cases hpids
  rw [getPIDs_eq (fun p _ => pop.getPPID_eq p) few] at hpids
  rw [← Except.ok.inj hpids] at hcall
  refine ⟨few, ?_, ?_⟩
  · intro c hc
    have hc' : Descends (qsort (tableOf scan)) rootPID c := by
      rw [Descends, hsort.child_eq]
      exact hc
    rcases constructTreeBy_opens hcall hc' with rfl | hopens
    · exact absurd (pop.descends_pos hc) (by decide)
    · exact hopens
  · by_cases hopens : Opens later rootPID
    · exact .inl hopens
    · have hnull : newNode later emptyHeap rootPID = .ok new := hnew
      rw [newNode_none hopens] at hnull
      rw [← Except.ok.inj hnull] at hcall
      have hperm := hsort.childPids_perm (tableOf scan) rootPID
      rw [constructTreeBy_null hcall] at hperm
      exact .inr hperm.symm.eq_nil

/-- A tree that shows all survivors came from insertions that dropped nothing. -/
theorem Population.smooth (pop : Population scan later) (hsort : CorrectSort qsort)
    (hroot : (later.stat rootPID).isSome = true)
    (hV : Forest.unfold (childPids (qsort (tableOf scan))) fuel rootPID = some V)
    (alive : ∀ c, Descends (tableOf scan) rootPID c → (later.stat c).isSome = true)
    {node : PsNode} {h : Heap} {cmp : Int × Name → Int × Name → Bool}
    (built : Built cmp later rootPID node h V)
    (shows : ShowsSurvivors scan later h (some 0) rootPID) :
    (V.number 1).Smooth (onKeys cmp later) [] := by
  have hpos := pop.root_pos hroot
  rcases shows with ⟨G, hG, hroots, _, hall⟩
  refine built.inserted.smooth (pop.unfold_nodup hsort hpos hV) built.inserted.links ?_
  intro x hx
  have hx' := (hsort.mem_unfold hV).1 hx
  have hstart : rootPID ∈ (h.shown G).toList := by
    refine (Forest.roots_sublist _).subset ?_
    rw [hroots]
    exact List.mem_singleton_self _
  have hin := (hall.imp fun _ _ hsons c => (hsons c).2).reach hstart
    (pop.surviving_path hpos alive hx').to_reflTransGen
  rw [hG.unique built.links, Heap.shown_cons, Forest.toList_cons, List.mem_cons, List.mem_append]
    at hin
  rcases hin with heq | hin | hin
  · rw [built.root] at heq
    exact absurd (heq ▸ hx') (pop.not_descends rootPID)
  · exact hin
  · cases hin

theorem Survives.safe (survives : Survives cmd scan later qsort rootPID)
    (pop : Population scan later) (hsort : CorrectSort qsort) :
    Safe cmd scan later qsort rootPID := by
  rcases survives with ⟨bound, hbound⟩
  obtain ⟨fuel, hfuel⟩ : ∃ fuel, fuel = bound + ((tableOf scan).length + 1) := ⟨_, rfl⟩
  rcases hbound fuel (by omega) with ⟨root, h, text, hbuild, _, hshows⟩
  rcases pop.of_build hsort hbuild with ⟨few, alive, hrootcase⟩
  refine ⟨few, alive, hrootcase, ?_⟩
  rintro rfl hroot
  rcases pop.unfold_exists hsort rootPID with ⟨V, hV⟩
  have hV' := Forest.unfold_mono hV (show (tableOf scan).length + 1 ≤ fuel by omega)
  have hopens : ∀ x ∈ V.toList, Opens later x := fun x hx =>
    .inr (alive x ((hsort.mem_unfold hV).1 hx))
  rcases pop.build_eq .cmdRoot few (.inr hroot) hV' hopens with ⟨node, h', hbuild', built⟩
  have heq := Except.ok.inj (hbuild.symm.trans hbuild')
  simp only [Prod.mk.injEq] at heq
  rcases heq with ⟨rfl, rfl⟩
  rw [allocation, hV, ← Forest.smooth_nil_iff]
  exact pop.smooth hsort hroot hV' alive built (hshows hroot)

/-- While processes exit, a command returns and shows the survivors exactly if the entries
fit into the table, every process that the table has below the root is still there when its
node is made, and so is the root if there is such a process; the default command also needs
addresses at which no walk stops early. -/
theorem survives_iff (pop : Population scan later) (hsort : CorrectSort qsort) (cmd : Command)
    (rootPID : Int) :
    Survives cmd scan later qsort rootPID ↔ Safe cmd scan later qsort rootPID :=
  ⟨fun survives => survives.safe pop hsort, fun safe => safe.survives pop hsort⟩

/-- `threeProcesses` once process `q` has exited. -/
def exited (q : Int) : Sys :=
  { threeProcesses with stat := fun pid => if pid = q then none else threeProcesses.stat pid }

theorem threeProcesses_parses {p : Int} {file : List Char}
    (hfile : threeProcesses.stat p = some file) :
    0 < p ∧ ∃ stat, readStat file = .ok stat ∧ stat.pid = p := by
  by_cases h₁ : p = 1
  · subst h₁
    rw [← Option.some.inj hfile]
    exact ⟨by decide, ⟨1, ['(', 'i', ')'], 0⟩, rfl, rfl⟩
  by_cases h₂ : p = 2
  · subst h₂
    rw [← Option.some.inj hfile]
    exact ⟨by decide, ⟨2, ['(', 'k', ')'], 0⟩, rfl, rfl⟩
  by_cases h₇ : p = 7
  · subst h₇
    rw [← Option.some.inj hfile]
    exact ⟨by decide, ⟨7, ['(', 's', 'h', ')'], 1⟩, rfl, rfl⟩
  · simp [threeProcesses, h₁, h₂, h₇] at hfile

theorem exited_stat {p q : Int} {file : List Char} (hfile : (exited q).stat p = some file) :
    threeProcesses.stat p = some file := by
  by_cases hp : p = q
  · simp [exited, hp] at hfile
  · simpa [exited, hp] using hfile

theorem exited_population (q : Int) : Population threeProcesses (exited q) where
  distinct := threeProcesses_snapshot.distinct
  positive := by decide
  parses := fun p file hfile => (threeProcesses_parses hfile).2.imp fun _ h => h.1
  parsesLater := fun p file hfile => (threeProcesses_parses (exited_stat hfile)).2
  existing := by
    intro p hp
    cases hfile : (exited q).stat p with
    | none => rfl
    | some file => exact absurd (threeProcesses_parses (exited_stat hfile)).1 (Int.not_lt.2 hp)
  acyclic := threeProcesses_snapshot.acyclic

theorem survives_iff_twoExits : Survives .cmdRoot threeProcesses (exited 2) sortByPid 1 := by
  have hone : childPids (tableOf threeProcesses) 1 = [7] := by decide
  have hseven : childPids (tableOf threeProcesses) 7 = [] := by decide
  refine (survives_iff (exited_population 2) sortByPid_correct .cmdRoot 1).2
    ⟨by decide, ?_, .inl (.inr rfl), ?_⟩
  · intro c hc
    rcases Relation.TransGen.head'_iff.1 hc with ⟨d, hd, hdc⟩
    rw [Forest.Child, hone, List.mem_singleton] at hd
    subst hd
    rcases Relation.ReflTransGen.cases_head hdc with rfl | ⟨e, he, _⟩
    · rfl
    · rw [Forest.Child, hseven] at he
      cases he
  · intro _ _
    have hperm := sortByPid_correct.childPids_perm (tableOf threeProcesses)
    have hone' : childPids (sortByPid (tableOf threeProcesses)) 1 = [7] :=
      List.perm_singleton.1 (hone ▸ hperm 1)
    have hseven' : childPids (sortByPid (tableOf threeProcesses)) 7 = [] :=
      List.perm_nil.1 (hseven ▸ hperm 7)
    have halloc : allocation (sortByPid (tableOf threeProcesses)) 5 1 1 =
        .cons (1, 7) .nil .nil := by
      rw [allocation, Forest.unfold, hone', Forest.graft, Forest.unfold, hseven']
      rfl
    change (allocation (sortByPid (tableOf threeProcesses)) 5 1 1).AllSiblings _
    rw [halloc]
    exact Forest.smooth_nil_iff.1 (by decide)

/-- Process 7 exits after `getPPID` has found its parent 1. -/
theorem not_survives_sevenExits : Population threeProcesses (exited 7) ∧
    CorrectSort sortByPid ∧ ∀ cmd, ¬ Survives cmd threeProcesses (exited 7) sortByPid 1 := by
  refine ⟨exited_population 7, sortByPid_correct, ?_⟩
  intro cmd survives
  have safe := survives.safe (exited_population 7) sortByPid_correct
  have hchild : (7 : Int) ∈ childPids (tableOf threeProcesses) 1 := by decide
  cases safe.alive 7 (.single hchild)

end OSLabs.Pstree
