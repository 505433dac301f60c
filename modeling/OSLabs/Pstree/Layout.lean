import OSLabs.Pstree.Links
import OSLabs.Pstree.Render

/-! # PrintTree prints the drawing

The climb over `Parent` and the stack of ancestors give, for every node, the prefix of
the drawing. With enough fuel `PrintTree` therefore returns and prints the drawing of
its tree, which determines the tree.
-/

namespace OSLabs.Pstree

open Lib

variable {h : Heap} {rootPID : Int} {par p : Ptr} {F : Forest Nat} {a : Nat}
  {label : PsNode → List Char} {width : PsNode → Nat} {n fuel : Nat}

/-- The sibling list at `p` and all that is below it, with `Parent` links that match. -/
def Shape (h : Heap) : Ptr → Ptr → Forest Nat → Prop
  | _, p, .nil => p = none
  | par, p, .cons a sons siblings =>
    p = some a ∧ (h.node a).parent = par ∧ Shape h (some a) (h.node a).firstSon sons ∧
      Shape h par (h.node a).nextSibling siblings

theorem Links.shape {d : Int} (hl : Links h par d p F) : Shape h par p F := by
  induction F generalizing par d p with
  | nil => exact hl
  | cons a sons siblings ihs ih =>
      rcases hl with ⟨hp, hpar, _, hsons, hsibs⟩
      exact ⟨hp, hpar, ihs hsons, ih hsibs⟩

def Heap.labels (label : PsNode → List Char) (h : Heap) (F : Forest Nat) : Forest (List Char) :=
  F.map fun a => label (h.node a)

theorem Heap.labels_cons (label : PsNode → List Char) (h : Heap) (a : Nat)
    (sons siblings : Forest Nat) :
    h.labels label (.cons a sons siblings) =
      .cons (label (h.node a)) (h.labels label sons) (h.labels label siblings) := rfl

/-! ## Climbing -/

/-- `p` are the columns up to the end of the label of `a`, which is `k` levels below
the root. -/
inductive Margin (width : PsNode → Nat) (h : Heap) (rootPID : Int) :
    Nat → Nat → List Char → Prop where
  | root {a : Nat} (pid : (h.node a).pid = rootPID) :
      Margin width h rootPID 0 a (spaces (width (h.node a)))
  | son {a b k : Nat} {p : List Char} (pid : (h.node a).pid ≠ rootPID)
      (parent : (h.node a).parent = some b) (above : Margin width h rootPID k b p) :
      Margin width h rootPID (k + 1) a
        (p ++ (if isLastSibling h a then [' ', ' ', ' '] else [' ', '│', ' ']) ++
          spaces (width (h.node a)))

theorem climb_spec {k : Nat} {p : List Char} (hm : Margin width h rootPID k a p) (hn : k < n)
    (stack : Stack) :
    ∃ r stack', climb h rootPID n (some a) stack = .ok (r, stack') ∧
      spaces (width (h.node r)) ++ drawStack width h stack' = p ++ drawStack width h stack := by
  induction hm generalizing n stack with
  | root pid =>
      cases n with
      | zero => omega
      | succ n => exact ⟨_, stack, by simp [climb, pid], rfl⟩
  | @son a b k p pid parent above ih =>
      cases n with
      | zero => omega
      | succ n =>
          rcases ih (Nat.lt_of_succ_lt_succ hn) (push stack a) with ⟨r, stack', hclimb, hdraw⟩
          refine ⟨r, stack', ?_, ?_⟩
          · rw [climb, if_pos pid, parent, hclimb]
          · rw [hdraw]
            simp [push, drawStack]

theorem margin_spec {k child : Nat} {p : List Char} (hm : Margin width h rootPID k a p)
    (hn : k < n) (parent : (h.node child).parent = some a) :
    margin width h rootPID n child = .ok p := by
  rcases climb_spec hm hn initStack with ⟨r, stack, hclimb, hdraw⟩
  rw [margin, parent, hclimb]
  simpa [initStack, drawStack, bind, Except.bind, pure, Except.pure] using hdraw

/-! ## Printing -/

theorem isLastSibling_eq {siblings : Forest Nat} {b : Nat}
    (hs : Shape h par (h.node b).nextSibling siblings) :
    isLastSibling h b = match siblings with
      | .nil => true
      | .cons _ _ _ => false := by
  cases siblings with
  | nil => simp [isLastSibling, show (h.node b).nextSibling = none from hs]
  | cons c _ _ => simp [isLastSibling, hs.1]

/-- What the printing of the sons of `a` and of its later sons comes to. -/
theorem print_spec (hwidth : ∀ b ∈ F.toList, width (h.node b) = (label (h.node b)).length)
    (hpid : ∀ b ∈ F.toList, (h.node b).pid ≠ rootPID) (hs : Shape h (some a) p F) {k : Nat}
    {q : List Char} (hm : Margin width h rootPID k a q) (hn : k + F.toList.length < n)
    (hfuel : 2 * F.toList.length < fuel) :
    printSiblings label width h rootPID n fuel p = .ok (draw false q (h.labels label F)) ∧
      ((h.node a).firstSon = p → printTreeBy label width h rootPID n (fuel + 1) (some a) =
        .ok (label (h.node a) ++ draw true q (h.labels label F))) := by
  induction F generalizing a p q k fuel with
  | nil =>
      have hp : p = none := hs
      subst hp
      cases fuel with
      | zero => omega
      | succ fuel =>
          refine ⟨rfl, ?_⟩
          intro hson
          rw [printTreeBy, hson]
          simp [Heap.labels, Forest.map, draw]
  | cons c sons siblings ihs ih =>
      rcases hs with ⟨rfl, hpar, hsons, hsibs⟩
      simp only [Forest.toList_cons, List.mem_cons, List.mem_append, forall_eq_or_imp]
        at hwidth hpid
      simp only [Forest.toList_cons, List.length_cons, List.length_append] at hn hfuel
      have hmc := Margin.son hpid.1 hpar hm
      rw [hwidth.1] at hmc
      have hbar : (if isLastSibling h c then [' ', ' ', ' '] else [' ', '│', ' ']) =
          bar (h.labels label siblings) := by
        rw [isLastSibling_eq hsibs]
        cases siblings <;> rfl
      have hbranch : (if isLastSibling h c then [' ', '└', '─'] else [' ', '├', '─']) =
          branch (h.labels label siblings) := by
        rw [isLastSibling_eq hsibs]
        cases siblings <;> rfl
      rw [hbar] at hmc
      have hson : ∀ f, 2 * sons.toList.length < f →
          printTreeBy label width h rootPID n (f + 1) (some c) = .ok (label (h.node c) ++
            draw true (q ++ bar (h.labels label siblings) ++
              spaces (label (h.node c)).length) (h.labels label sons)) := by
        intro f hf
        exact (ihs (fun b hb => hwidth.2 b (.inl hb)) (fun b hb => hpid.2 b (.inl hb)) hsons hmc
          (by omega) hf).2 rfl
      have hothers : ∀ f, 2 * siblings.toList.length < f →
          printSiblings label width h rootPID n f (h.node c).nextSibling =
            .ok (draw false q (h.labels label siblings)) := by
        intro f hf
        exact (ih (fun b hb => hwidth.2 b (.inr hb)) (fun b hb => hpid.2 b (.inr hb)) hsibs hm
          (by omega) hf).1
      obtain ⟨f, rfl⟩ : ∃ f, fuel = f + 1 + 1 := ⟨fuel - 2, by omega⟩
      have hmargin := margin_spec hm (show k < n by omega) hpar
      constructor
      · rw [printSiblings, hmargin, hbranch, hson f (by omega), hothers (f + 1) (by omega)]
        simp [bind, Except.bind, pure, Except.pure, Heap.labels, Forest.map, draw, opening]
      · intro hfirst
        rw [printTreeBy, hfirst]
        simp only [hson (f + 1) (by omega), hothers (f + 1 + 1) (by omega),
          isLastSibling_eq hsibs]
        cases siblings with
        | nil =>
            simp [bind, Except.bind, pure, Except.pure, Heap.labels, Forest.map, draw, opening,
              lead]
        | cons d s r =>
            simp [bind, Except.bind, pure, Except.pure, Heap.labels, Forest.map, draw, opening,
              lead]

/-- A tree for `PrintTree`: the sons of `root` form the forest `F`, `Parent` links match,
and only the root has the pid that stops the climbs. -/
structure TreeAt (h : Heap) (rootPID : Int) (root : Nat) (F : Forest Nat) : Prop where
  rootPid : (h.node root).pid = rootPID
  sons : Shape h (some root) (h.node root).firstSon F
  others : ∀ a ∈ F.toList, (h.node a).pid ≠ rootPID

/-- With fuel for every node, the tree is printed as it is drawn. -/
theorem printTreeBy_eq (tree : TreeAt h rootPID a F)
    (hwidth : ∀ b ∈ a :: F.toList, width (h.node b) = (label (h.node b)).length)
    (hfuel : 2 * F.toList.length + 1 < fuel) :
    printTreeBy label width h rootPID fuel fuel (some a) =
      .ok (drawTree (label (h.node a)) (h.labels label F)) := by
  obtain ⟨f, rfl⟩ : ∃ f, fuel = f + 1 := ⟨fuel - 1, by omega⟩
  have hm : Margin width h rootPID 0 a (spaces (width (h.node a))) := .root tree.rootPid
  rw [hwidth a (by simp)] at hm
  exact (print_spec (fun b hb => hwidth b (by simp [hb])) tree.others tree.sons hm (by omega)
    (by omega)).2 rfl

/-! ## Labels with pids -/

theorem pidLen_zero (fuel : Nat) : pidLen fuel 0 = 0 := by
  cases fuel with
  | zero => rfl
  | succ fuel => rfl

theorem pidLen_eq {m : Nat} (hm : 0 < m) (hfuel : m ≤ fuel) :
    pidLen fuel m = (Nat.toDigits 10 m).length := by
  induction fuel generalizing m with
  | zero => omega
  | succ fuel ih =>
      have hne : (m : Int) ≠ 0 := by omega
      have hdiv : (m : Int).tdiv 10 = ((m / 10 : Nat) : Int) := rfl
      rw [pidLen, if_neg hne, hdiv, Nat.toDigits_eq_if (by decide)]
      by_cases hlt : m < 10
      · rw [if_pos hlt, Nat.div_eq_of_lt hlt]
        exact congrArg (· + 1) (pidLen_zero fuel)
      · rw [if_neg hlt, ih (by omega) (by omega), List.length_append]
        rfl

/-- The width that `PrintTree_p` computes is that of its label. -/
theorem pidLabel_length {b : PsNode} (hpid : 0 ≤ b.pid) :
    b.name.text.length + 2 + pidLen b.pid.natAbs b.pid = (pidLabel b).length := by
  rw [pidLabel]
  by_cases hzero : b.pid = 0
  · rw [if_neg (not_not.2 hzero), hzero, List.length_append]
    rfl
  · have hlen := pidLen_eq (Int.natAbs_pos.2 hzero) (Nat.le_refl b.pid.natAbs)
    rw [Int.natAbs_of_nonneg hpid] at hlen
    rw [if_pos hzero, showInt, if_neg (Int.not_lt.2 hpid), hlen]
    simp only [List.length_append, List.length_cons, List.length_nil]
    omega

theorem printTreeP_eq (tree : TreeAt h rootPID a F)
    (hpids : ∀ b ∈ a :: F.toList, 0 ≤ (h.node b).pid)
    (hfuel : 2 * F.toList.length + 1 < fuel) :
    printTreeP h rootPID fuel (some a) =
      .ok (drawTree (pidLabel (h.node a)) (h.labels pidLabel F)) :=
  printTreeBy_eq tree (fun b hb => pidLabel_length (hpids b hb)) hfuel

def Prints (h : Heap) (rootPID : Int) (root : Nat) (text : List Char) : Prop :=
  ∃ bound, ∀ fuel > bound, printTree h rootPID fuel (some root) = .ok text

theorem TreeAt.prints_iff (tree : TreeAt h rootPID a F) {text : List Char} :
    Prints h rootPID a text ↔
      text = drawTree (h.node a).name.text (h.labels (fun n => n.name.text) F) := by
  have hprint : ∀ fuel > 2 * F.toList.length + 1, printTree h rootPID fuel (some a) =
      .ok (drawTree (h.node a).name.text (h.labels (fun n => n.name.text) F)) :=
    fun fuel hfuel => printTreeBy_eq tree (fun _ _ => rfl) hfuel
  constructor
  · rintro ⟨bound, hbound⟩
    have hlt : bound + (2 * F.toList.length + 1) + 1 > bound := by omega
    have hlt' : bound + (2 * F.toList.length + 1) + 1 > 2 * F.toList.length + 1 := by omega
    exact Except.ok.inj ((hbound _ hlt).symm.trans (hprint _ hlt'))
  · rintro rfl
    exact ⟨_, hprint⟩

/-! ## PrintTree_p as PrintTree -/

/-- The tree whose names are the labels that `PrintTree_p` prints. -/
def Heap.relabel (h : Heap) : Heap :=
  { h with node := fun a =>
      { h.node a with name := { (h.node a).name with text := pidLabel (h.node a) } } }

theorem Shape.relabel (hs : Shape h par p F) : Shape h.relabel par p F := by
  induction F generalizing par p with
  | nil => exact hs
  | cons a sons siblings ihs ih =>
      rcases hs with ⟨hp, hpar, hsons, hsibs⟩
      exact ⟨hp, hpar, ihs hsons, ih hsibs⟩

theorem TreeAt.relabel (tree : TreeAt h rootPID a F) : TreeAt h.relabel rootPID a F where
  rootPid := tree.rootPid
  sons := tree.sons.relabel
  others := tree.others

def PrintsP (h : Heap) (rootPID : Int) (root : Nat) (text : List Char) : Prop :=
  ∃ bound, ∀ fuel > bound, printTreeP h rootPID fuel (some root) = .ok text

/-- On every tree without negative pids `PrintTree_p` returns and prints what `PrintTree`
prints of the tree with its labels as names. -/
theorem printTreeP_relabels (tree : TreeAt h rootPID a F)
    (hpids : ∀ b ∈ a :: F.toList, 0 ≤ (h.node b).pid) :
    ∃ text, PrintsP h rootPID a text ∧ Prints h.relabel rootPID a text :=
  ⟨_, ⟨_, fun _ hfuel => printTreeP_eq tree hpids hfuel⟩, tree.relabel.prints_iff.2 rfl⟩

/-! ## The drawing determines the tree -/

/-- The names in a tree are non-empty and consist of printable characters other than the
space. -/
def NamedTree (h : Heap) (root : Nat) (F : Forest Nat) : Prop :=
  ∀ a ∈ root :: F.toList, IsName (h.node a).name.text

/-- `PrintTree` returns on every tree, and trees that it prints alike have the same shape
and the same names. -/
theorem printTree_injective {h₁ h₂ : Heap} {rootPID₁ rootPID₂ : Int} {root₁ root₂ : Nat}
    {F₁ F₂ : Forest Nat} (tree₁ : TreeAt h₁ rootPID₁ root₁ F₁)
    (tree₂ : TreeAt h₂ rootPID₂ root₂ F₂) (names₁ : NamedTree h₁ root₁ F₁)
    (names₂ : NamedTree h₂ root₂ F₂) :
    (∃ text, Prints h₁ rootPID₁ root₁ text) ∧
      ∀ text, Prints h₁ rootPID₁ root₁ text → Prints h₂ rootPID₂ root₂ text →
        h₁.labels (fun n => n.name.text) (.cons root₁ F₁ .nil) =
          h₂.labels (fun n => n.name.text) (.cons root₂ F₂ .nil) := by
  refine ⟨⟨_, tree₁.prints_iff.2 rfl⟩, ?_⟩
  intro text hprint₁ hprint₂
  have htext := (tree₁.prints_iff.1 hprint₁).symm.trans (tree₂.prints_iff.1 hprint₂)
  have hchars : ∀ {h : Heap} {root : Nat} {F : Forest Nat}, NamedTree h root F →
      ∀ s ∈ (h.labels (fun n => n.name.text) F).toList, ∀ c ∈ s, nameChar c = true := by
    intro h root F names s hs
    rw [Heap.labels, Forest.toList_map] at hs
    rcases List.mem_map.1 hs with ⟨b, hb, rfl⟩
    exact (names b (by simp [hb])).2
  rcases drawTree_inj (names₁ root₁ (by simp)).2 (names₂ root₂ (by simp)).2 (hchars names₁)
    (hchars names₂) htext with ⟨hname, hforest⟩
  rw [Heap.labels_cons, Heap.labels_cons, hname, hforest]
  rfl

/-- A tree of three nodes whose root is in cell 0 and whose sons are in the given ones. -/
def pairHeap (first second : Nat) : Heap where
  node := fun a =>
    if a = 0 then
      { pid := 1, name := ⟨0, ['a']⟩, ppid := 0, depth := 0, parent := none,
        firstSon := some first, nextSibling := none }
    else if a = first then
      { pid := 2, name := ⟨0, ['b', 'c']⟩, ppid := 1, depth := 1, parent := some 0,
        firstSon := none, nextSibling := some second }
    else
      { pid := 3, name := ⟨0, ['d']⟩, ppid := 1, depth := 1, parent := some 0,
        firstSon := none, nextSibling := none }
  size := 3

theorem printTreeP_relabels_pairHeap :
    ∃ text, PrintsP (pairHeap 1 2) 1 0 text ∧ Prints (pairHeap 1 2).relabel 1 0 text := by
  have tree : TreeAt (pairHeap 1 2) 1 0 (.cons 1 .nil (.cons 2 .nil .nil)) :=
    ⟨rfl, ⟨rfl, rfl, rfl, rfl, rfl, rfl, rfl⟩, by decide⟩
  exact printTreeP_relabels tree (by decide)

theorem printTree_injective_pairHeap :
    (∃ text, Prints (pairHeap 1 2) 1 0 text) ∧
      (pairHeap 1 2).labels (fun n => n.name.text)
          (.cons 0 (.cons 1 .nil (.cons 2 .nil .nil)) .nil) =
        (pairHeap 2 1).labels (fun n => n.name.text)
          (.cons 0 (.cons 2 .nil (.cons 1 .nil .nil)) .nil) := by
  have tree : TreeAt (pairHeap 1 2) 1 0 (.cons 1 .nil (.cons 2 .nil .nil)) :=
    ⟨rfl, ⟨rfl, rfl, rfl, rfl, rfl, rfl, rfl⟩, by decide⟩
  have tree' : TreeAt (pairHeap 2 1) 1 0 (.cons 2 .nil (.cons 1 .nil .nil)) :=
    ⟨rfl, ⟨rfl, rfl, rfl, rfl, rfl, rfl, rfl⟩, by decide⟩
  have names : NamedTree (pairHeap 1 2) 0 (.cons 1 .nil (.cons 2 .nil .nil)) := by
    simp [NamedTree, IsName, pairHeap, nameChar]
  have names' : NamedTree (pairHeap 2 1) 0 (.cons 2 .nil (.cons 1 .nil .nil)) := by
    simp [NamedTree, IsName, pairHeap, nameChar]
  have hinj := printTree_injective tree tree' names names'
  exact ⟨hinj.1, hinj.2 _ (tree.prints_iff.2 rfl) (tree'.prints_iff.2 rfl)⟩

end OSLabs.Pstree
