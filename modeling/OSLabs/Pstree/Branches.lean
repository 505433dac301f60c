import OSLabs.Lib.Grid
import OSLabs.Pstree.Layout

/-! # The branches of a drawing

The output of `PrintTree` as lines of cells. `rows` are these lines, each a list of labels
and of single characters of the drawing, put together from the blocks of the sons. On the
way the strokes of the branches meet in neighbouring lines.
-/

namespace OSLabs.Pstree

open Lib

variable {α : Type} {label : α → List Char} {F : Forest α} {p : List Char}
  {L M : List (List Char)}

def printable (c : Char) : Bool := ' '.toNat ≤ c.toNat && c.toNat ≤ '~'.toNat

/-- The characters with a stroke to the line above. -/
def up (c : Char) : Bool := c ∈ ['│', '├', '└']

/-- The characters with a stroke to the line below. -/
def down (c : Char) : Bool := c ∈ ['┬', '│', '├']

def strokes : List Char := [' ', '─', '┬', '│', '├', '└']

def Piece.text (label : α → List Char) : α ⊕ Char → List Char
  | .inl a => label a
  | .inr c => [c]

def lineText (label : α → List Char) (line : List (α ⊕ Char)) : List Char :=
  line.flatMap (Piece.text label)

/-- The lines of the sons in `F`, without the columns left of them. -/
def rows (label : α → List Char) (first : Bool) : Forest α → List (List (α ⊕ Char))
  | .nil => []
  | .cons a sons siblings =>
    hang ((if first then lead (siblings.map label) else branch (siblings.map label)).map .inr ++
        [.inl a])
      ((bar (siblings.map label) ++ spaces (label a).length).map .inr) (rows label true sons) ++
      rows label false siblings

def treeRows (label : α → List Char) (a : α) (F : Forest α) : List (List (α ⊕ Char)) :=
  hang [.inl a] ((spaces (label a).length).map .inr) (rows label true F)

@[simp] theorem lineText_append (u v : List (α ⊕ Char)) :
    lineText label (u ++ v) = lineText label u ++ lineText label v := by
  simp [lineText]

@[simp] theorem lineText_inr (s : List Char) : lineText label (s.map .inr) = s := by
  induction s with
  | nil => rfl
  | cons c s ih => rw [List.map_cons, lineText, List.flatMap_cons, ← lineText, ih]; rfl

@[simp] theorem lineText_inl (a : α) : lineText label [.inl a] = label a := by
  simp [lineText, Piece.text]

theorem map_hang (u v : List (α ⊕ Char)) (B : List (List (α ⊕ Char))) :
    (hang u v B).map (lineText label) =
      hang (lineText label u) (lineText label v) (B.map (lineText label)) := by
  cases B with
  | nil => rfl
  | cons line lines => simp [hang]

/-! ## The text of the lines -/

/-- The lines, each on a new line behind the prefix `p`. -/
def below (p : List Char) (L : List (List Char)) : List Char :=
  L.flatMap fun line => '\n' :: (p ++ line)

/-- The lines, of which the first one goes on where the text stands. -/
def behind (p : List Char) : List (List Char) → List Char
  | [] => []
  | line :: lines => line ++ below p lines

theorem below_append (p : List Char) (L M : List (List Char)) :
    below p (L ++ M) = below p L ++ below p M := by
  simp [below]

theorem below_map (p r : List Char) (L : List (List Char)) :
    below p (L.map (r ++ ·)) = below (p ++ r) L := by
  simp [below, List.flatMap_map]

theorem behind_hang (p head r : List Char) (L M : List (List Char)) :
    behind p (hang head r L ++ M) = head ++ behind (p ++ r) L ++ below p M := by
  cases L with
  | nil => simp [hang, behind]
  | cons line lines => simp [hang, behind, below_append, below_map]

theorem below_hang (p head r : List Char) (L M : List (List Char)) :
    below p (hang head r L ++ M) =
      '\n' :: (p ++ head) ++ behind (p ++ r) L ++ below p M := by
  have hfirst : ∀ N : List (List Char), N ≠ [] → below p N = '\n' :: p ++ behind p N := by
    intro N hN
    cases N with
    | nil => exact (hN rfl).elim
    | cons line lines => simp [below, behind]
  rw [hfirst _ (by simp [hang_ne_nil]), behind_hang]
  simp

theorem intercalate_eq_behind (h : L ≠ []) : ['\n'].intercalate L = behind [] L := by
  induction L with
  | nil => exact (h rfl).elim
  | cons line lines ih =>
      cases lines with
      | nil => simp [behind, below]
      | cons next lines =>
          rw [List.intercalate_cons_cons, ih (by simp)]
          simp [behind, below]

theorem draw_eq_rows (label : α → List Char) (p : List Char) (F : Forest α) :
    draw true p (F.map label) = behind p ((rows label true F).map (lineText label)) ∧
      draw false p (F.map label) = below p ((rows label false F).map (lineText label)) := by
  induction F generalizing p with
  | nil => exact ⟨rfl, rfl⟩
  | cons a sons siblings ihs ih =>
      have hsons := (ihs (p ++ bar (siblings.map label) ++ spaces (label a).length)).1
      have hsibs := (ih p).2
      constructor
      · rw [Forest.map, draw, hsons, hsibs, rows, List.map_append, map_hang, behind_hang]
        simp [opening]
      · rw [Forest.map, draw, hsons, hsibs, rows, List.map_append, map_hang, below_hang]
        simp [opening]

theorem drawTree_eq_rows (label : α → List Char) (a : α) (F : Forest α) :
    drawTree (label a) (F.map label) =
      ['\n'].intercalate ((treeRows label a F).map (lineText label)) := by
  have hne : (treeRows label a F).map (lineText label) ≠ [] := by
    simp [treeRows, hang_ne_nil]
  have hdraw := (draw_eq_rows label (spaces (label a).length) F).1
  have hhang := behind_hang [] (label a) (spaces (label a).length)
    ((rows label true F).map (lineText label)) []
  rw [List.append_nil] at hhang
  rw [intercalate_eq_behind hne, treeRows, map_hang, lineText_inl, lineText_inr, hhang, drawTree,
    hdraw]
  simp [below]

/-! ## Strokes -/

theorem printable_plain {c : Char} (hc : printable c = true) : up c = false ∧ down c = false := by
  constructor
  · by_contra hup
    simp only [up, List.mem_cons, List.not_mem_nil, or_false, decide_eq_false_iff_not,
      not_not] at hup
    rcases hup with rfl | rfl | rfl <;> exact absurd hc (by decide)
  · by_contra hdown
    simp only [down, List.mem_cons, List.not_mem_nil, or_false, decide_eq_false_iff_not,
      not_not] at hdown
    rcases hdown with rfl | rfl | rfl <;> exact absurd hc (by decide)

theorem spaces_plain {n : Nat} {c : Char} (hc : c ∈ spaces n) : up c = false ∧ down c = false := by
  rw [List.eq_of_mem_replicate hc]
  decide

theorem marks_lead (G : Forest (List Char)) :
    marks up (lead G) = ∅ ∧ marks down (lead G) = marks down (bar G) := by
  cases G with
  | nil => exact ⟨marks_eq_empty (by simp [lead, up]), marks_congr rfl⟩
  | cons name sons siblings => exact ⟨marks_eq_empty (by simp [lead, up]), marks_congr rfl⟩

theorem marks_branch (G : Forest (List Char)) :
    marks up (branch G) = marks down [' ', '│', ' '] ∧
      marks down (branch G) = marks down (bar G) := by
  cases G with
  | nil => exact ⟨marks_congr rfl, marks_congr rfl⟩
  | cons name sons siblings => exact ⟨marks_congr rfl, marks_congr rfl⟩

theorem marks_bar (G : Forest (List Char)) : marks up (bar G) = marks down (bar G) := by
  cases G with
  | nil => exact marks_congr rfl
  | cons name sons siblings => exact marks_congr rfl

/-- The block of a son behind what opens its first line and its other lines. -/
theorem block_flows {opens bars name : List Char} {B : List (List Char)}
    (hname : ∀ c ∈ name, printable c = true) (hB : Flows up down ∅ B ∅)
    (hlength : opens.length = bars.length) (hdown : marks down opens = marks down bars)
    (hbars : marks up bars = marks down bars) :
    Flows up down (marks up opens) (hang (opens ++ name) (bars ++ spaces name.length) B)
      (marks down bars) := by
  have hup₁ := marks_append_plain (u := opens) fun c hc => (printable_plain (hname c hc)).1
  have hdown₁ := marks_append_plain (u := opens) fun c hc => (printable_plain (hname c hc)).2
  have hup₂ := marks_append_plain (u := bars) fun c hc => (spaces_plain (n := name.length) hc).1
  have hdown₂ := marks_append_plain (u := bars) fun c hc => (spaces_plain (n := name.length) hc).2
  have hlengths : (opens ++ name).length = (bars ++ spaces name.length).length := by
    simp [hlength, spaces]
  have hflows := hB.hang hlengths (by rw [hup₂, hdown₁, hdown, hbars])
    (by rw [hdown₂, hdown₁, hdown])
  rwa [hup₁, hdown₁, hdown] at hflows

/-- The strokes of the sons meet, and a later son has one that comes from above. -/
theorem rows_flow (hnames : ∀ a ∈ F.toList, ∀ c ∈ label a, printable c = true) :
    Flows up down ∅ ((rows label true F).map (lineText label)) ∅ ∧
      Flows up down (marks down (bar (F.map label))) ((rows label false F).map (lineText label))
        ∅ := by
  induction F with
  | nil => exact ⟨rfl, marks_eq_empty (by simp [Forest.map, bar, down])⟩
  | cons a sons siblings ihs ih =>
      simp only [Forest.toList_cons, List.mem_cons, List.mem_append, forall_eq_or_imp] at hnames
      have hsons := (ihs fun b hb => hnames.2 b (.inl hb)).1
      have hsibs := (ih fun b hb => hnames.2 b (.inr hb)).2
      have hlead := marks_lead (siblings.map label)
      have hbranch := marks_branch (siblings.map label)
      have hbars := marks_bar (siblings.map label)
      have hlengths : (lead (siblings.map label)).length = (bar (siblings.map label)).length ∧
          (branch (siblings.map label)).length = (bar (siblings.map label)).length := by
        cases siblings <;> exact ⟨rfl, rfl⟩
      constructor
      · have hblock := block_flows hnames.1 hsons hlengths.1 hlead.2 hbars
        rw [hlead.1] at hblock
        simpa [rows, map_hang] using hblock.append hsibs
      · have hblock := block_flows hnames.1 hsons hlengths.2 hbranch.2 hbars
        rw [hbranch.1] at hblock
        simpa [rows, map_hang, bar, Forest.map] using hblock.append hsibs

theorem treeRows_flow {a : α} (hnames : ∀ b ∈ a :: F.toList, ∀ c ∈ label b, printable c = true) :
    Flows up down ∅ ((treeRows label a F).map (lineText label)) ∅ := by
  have hempty : ∀ q : Char → Bool, marks q [] = ∅ := fun q => marks_eq_empty (by simp)
  have hsons := (rows_flow fun b hb => hnames b (List.mem_cons_of_mem a hb)).1
  have hblock := block_flows (hnames a List.mem_cons_self) hsons
    (show ([] : List Char).length = ([] : List Char).length from rfl) rfl (by rw [hempty, hempty])
  rw [hempty, hempty] at hblock
  simpa [treeRows, map_hang] using hblock

/-! ## The labels in the lines -/

theorem rows_ne_nil (first : Bool) (hF : F ≠ .nil) : rows label first F ≠ [] := by
  cases F with
  | nil => exact (hF rfl).elim
  | cons a sons siblings => simp [rows, hang_ne_nil]

/-- Outside of the labels there are only strokes. -/
theorem rows_strokes {first : Bool} {c : Char}
    (hc : ∃ line ∈ rows label first F, Sum.inr c ∈ line) : c ∈ strokes := by
  have hlead : ∀ G : Forest (List Char), ∀ c ∈ lead G, c ∈ strokes := by
    intro G
    cases G <;> simp [lead, strokes]
  have hbranch : ∀ G : Forest (List Char), ∀ c ∈ branch G, c ∈ strokes := by
    intro G
    cases G <;> simp [branch, strokes]
  have hbar : ∀ G : Forest (List Char), ∀ c ∈ bar G, c ∈ strokes := by
    intro G
    cases G <;> simp [bar, strokes]
  induction F generalizing first with
  | nil => simp [rows] at hc
  | cons a sons siblings ihs ih =>
      rcases hc with ⟨line, hline, hc⟩
      rcases List.mem_append.1 hline with hline | hline
      · rcases mem_hang ⟨line, hline, hc⟩ with hc | hc | hc
        · cases first with
          | true => exact hlead _ c (by simpa using hc)
          | false => exact hbranch _ c (by simpa using hc)
        · have hc : c ∈ bar (siblings.map label) ∨ c ∈ spaces (label a).length := by
            simpa using hc
          rcases hc with hc | hc
          · exact hbar _ c hc
          · rw [List.eq_of_mem_replicate hc]
            simp [strokes]
        · exact ihs hc
      · exact ih ⟨line, hline, hc⟩

/-- The labels that stand in the lines, in the order of reading. -/
def shown (lines : List (List (α ⊕ Char))) : List α := lines.flatten.filterMap Sum.getLeft?

theorem shown_append (A B : List (List (α ⊕ Char))) : shown (A ++ B) = shown A ++ shown B := by
  simp [shown]

theorem shown_inr (s : List Char) :
    (s.map (Sum.inr : Char → α ⊕ Char)).filterMap Sum.getLeft? = [] := by
  induction s with
  | nil => rfl
  | cons c s ih => rw [List.map_cons, List.filterMap_cons_none rfl, ih]

theorem shown_hang (u : List (α ⊕ Char)) (s : List Char) (B : List (List (α ⊕ Char))) :
    shown (hang u (s.map .inr) B) = u.filterMap Sum.getLeft? ++ shown B := by
  have hlater : ∀ lines : List (List (α ⊕ Char)),
      shown (lines.map (s.map .inr ++ ·)) = shown lines := by
    intro lines
    induction lines with
    | nil => rfl
    | cons line lines ih =>
        simp only [shown, List.map_cons, List.flatten_cons, List.filterMap_append, shown_inr,
          List.nil_append] at ih ⊢
        rw [ih]
  cases B with
  | nil => simp [hang, shown]
  | cons line lines =>
      have hlines := hlater lines
      simp only [shown] at hlines
      simp only [hang, shown, List.flatten_cons, List.filterMap_append, hlines, List.append_assoc]

theorem shown_rows (label : α → List Char) (first : Bool) (F : Forest α) :
    shown (rows label first F) = F.toList := by
  induction F generalizing first with
  | nil => rfl
  | cons a sons siblings ihs ih =>
      rw [rows, shown_append, shown_hang, ihs, ih, List.filterMap_append, shown_inr]
      rfl

theorem shown_treeRows (label : α → List Char) (a : α) (F : Forest α) :
    shown (treeRows label a F) = a :: F.toList := by
  rw [treeRows, shown_hang, shown_rows]
  rfl

theorem treeRows_strokes {a : α} {c : Char}
    (hc : ∃ line ∈ treeRows label a F, Sum.inr c ∈ line) : c ∈ strokes := by
  rcases mem_hang hc with hc | hc | hc
  · simp at hc
  · have hc : c ∈ spaces (label a).length := by simpa using hc
    rw [List.eq_of_mem_replicate hc]
    simp [strokes]
  · exact rows_strokes hc

/-- The lines of the drawing are the lines of its blocks. -/
theorem drawTree_lines {a : α} (hnames : ∀ b ∈ a :: F.toList, ∀ c ∈ label b, printable c = true) :
    (drawTree (label a) (F.map label)).splitOn '\n' =
      (treeRows label a F).map (lineText label) := by
  rw [drawTree_eq_rows]
  refine List.splitOn_intercalate '\n' ?_ (by simp [treeRows, hang_ne_nil])
  intro text htext hnewline
  rcases List.mem_map.1 htext with ⟨line, hline, rfl⟩
  rcases List.mem_flatMap.1 hnewline with ⟨piece, hpiece, hnewline⟩
  cases piece with
  | inl b =>
      have hb : b ∈ shown (treeRows label a F) :=
        List.mem_filterMap.2 ⟨.inl b, List.mem_flatten.2 ⟨line, hline, hpiece⟩, rfl⟩
      rw [shown_treeRows] at hb
      exact absurd (hnames b hb _ hnewline) (by decide)
  | inr c =>
      have hc : '\n' = c := List.mem_singleton.1 hnewline
      subst hc
      exact absurd (treeRows_strokes ⟨line, hline, hpiece⟩) (by simp [strokes])

/-! ## The nodes of a tree -/

section Nodes

variable {h : Heap} {rootPID : Int} {par q : Ptr} {F G : Forest Nat} {a b c x : Nat} {l : List Nat}

/-- The nodes that a climb from `a` to the root passes, from the top on. -/
inductive Ancestors (h : Heap) (rootPID : Int) : Nat → List Nat → Prop where
  | root {a : Nat} (pid : (h.node a).pid = rootPID) : Ancestors h rootPID a []
  | son {a b : Nat} {l : List Nat} (pid : (h.node a).pid ≠ rootPID)
      (parent : (h.node a).parent = some b) (above : Ancestors h rootPID b l) :
      Ancestors h rootPID a (l ++ [a])

theorem Ancestors.unique {m : List Nat} (hl : Ancestors h rootPID a l)
    (hm : Ancestors h rootPID a m) : l = m := by
  induction hl generalizing m with
  | root pid =>
      cases hm with
      | root _ => rfl
      | son pid' _ _ => exact absurd pid pid'
  | son pid parent _ ih =>
      cases hm with
      | root pid' => exact absurd pid' pid
      | son _ parent' above' =>
          rw [parent] at parent'
          cases parent'
          rw [ih above']

theorem Shape.unique (hF : Shape h par q F) (hG : Shape h par q G) : F = G := by
  induction F generalizing par q G with
  | nil =>
      cases G with
      | nil => rfl
      | cons b _ _ => exact absurd (hF.symm.trans hG.1) (by simp)
  | cons a sons siblings ihs ih =>
      cases G with
      | nil => exact absurd (hG.symm.trans hF.1) (by simp)
      | cons b sons' siblings' =>
          rcases hF with ⟨hp, _, hsons, hsibs⟩
          rcases hG with ⟨hp', _, hsons', hsibs'⟩
          have hab : a = b := Option.some.inj (hp.symm.trans hp')
          subst hab
          rw [ihs hsons hsons', ih hsibs hsibs']

/-- Behind every node of a sibling list there are fewer siblings than from its start. -/
theorem Shape.later (hF : Shape h par q F) (ha : a ∈ F.roots) :
    ∃ G, Shape h par (h.node a).nextSibling G ∧ G.roots.length < F.roots.length := by
  induction F generalizing q with
  | nil => simp [Forest.roots] at ha
  | cons b sons siblings _ ih =>
      rcases hF with ⟨_, _, _, hsibs⟩
      rcases List.mem_cons.1 ha with rfl | ha
      · exact ⟨siblings, hsibs, Nat.lt_succ_self _⟩
      · rcases ih hsibs ha with ⟨G, hG, hlt⟩
        exact ⟨G, hG, Nat.lt_succ_of_lt hlt⟩

theorem Shape.root_not_later {sons siblings : Forest Nat}
    (hF : Shape h par q (.cons a sons siblings)) : a ∉ siblings.roots := by
  intro ha
  rcases hF with ⟨_, _, _, hsibs⟩
  rcases hsibs.later ha with ⟨G, hG, hlt⟩
  rw [hG.unique hsibs] at hlt
  exact Nat.lt_irrefl _ hlt

/-- A climb from below `b` comes by one of the sons of `b`. -/
theorem Shape.ancestors (hF : Shape h (some b) q F) (hb : Ancestors h rootPID b l)
    (others : ∀ x ∈ F.toList, (h.node x).pid ≠ rootPID) (hx : x ∈ F.toList) :
    ∃ c ∈ F.roots, ∃ m, Ancestors h rootPID x (l ++ c :: m) := by
  induction F generalizing b q l with
  | nil => simp at hx
  | cons a sons siblings ihs ih =>
      rcases hF with ⟨_, hpar, hsons, hsibs⟩
      simp only [Forest.toList_cons, List.mem_cons, List.mem_append, forall_eq_or_imp] at others hx
      have ha := Ancestors.son others.1 hpar hb
      rcases hx with rfl | hx | hx
      · exact ⟨x, by simp [Forest.roots], [], ha⟩
      · rcases ihs hsons ha (fun y hy => others.2 y (.inl hy)) hx with ⟨c, _, m, hxm⟩
        exact ⟨a, by simp [Forest.roots], c :: m, by simpa using hxm⟩
      · rcases ih hsibs hb (fun y hy => others.2 y (.inr hy)) hx with ⟨c, hc, m, hxm⟩
        exact ⟨c, by simp [Forest.roots, hc], m, hxm⟩

theorem Shape.nodup (hF : Shape h (some b) q F) (hb : Ancestors h rootPID b l)
    (others : ∀ x ∈ F.toList, (h.node x).pid ≠ rootPID) : F.toList.Nodup := by
  induction F generalizing b q l with
  | nil => exact .nil
  | cons a sons siblings ihs ih =>
      have hlater := hF.root_not_later
      rcases hF with ⟨_, hpar, hsons, hsibs⟩
      simp only [Forest.toList_cons, List.mem_cons, List.mem_append, forall_eq_or_imp] at others
      have ha := Ancestors.son others.1 hpar hb
      have hinside : ∀ x ∈ sons.toList, ∃ c m, Ancestors h rootPID x (l ++ [a] ++ c :: m) := by
        intro x hx
        rcases hsons.ancestors ha (fun y hy => others.2 y (.inl hy)) hx with ⟨c, _, m, hxm⟩
        exact ⟨c, m, hxm⟩
      have hbehind : ∀ x ∈ siblings.toList, ∃ c ∈ siblings.roots, ∃ m,
          Ancestors h rootPID x (l ++ c :: m) :=
        fun x hx => hsibs.ancestors hb (fun y hy => others.2 y (.inr hy)) hx
      simp only [Forest.toList_cons, List.nodup_cons, List.mem_append, not_or, List.nodup_append]
      refine ⟨⟨?_, ?_⟩, ihs hsons ha fun y hy => others.2 y (.inl hy),
        ih hsibs hb fun y hy => others.2 y (.inr hy), ?_⟩
      · intro hmem
        rcases hinside a hmem with ⟨c, m, ham⟩
        simpa using ha.unique ham
      · intro hmem
        rcases hbehind a hmem with ⟨c, hc, m, ham⟩
        have hac : a = c ∧ m = [] := by simpa [eq_comm] using ha.unique ham
        exact hlater (hac.1 ▸ hc)
      · rintro x hx y hy rfl
        rcases hinside x hx with ⟨c, m, hxm⟩
        rcases hbehind x hy with ⟨c', hc', m', hxm'⟩
        have hac : a = c' ∧ c :: m = m' := by simpa using hxm.unique hxm'
        exact hlater (hac.1 ▸ hc')

theorem TreeAt.nodup (tree : TreeAt h rootPID a F) : (a :: F.toList).Nodup :=
  List.nodup_cons.2 ⟨fun ha => tree.others a ha tree.rootPid,
    tree.sons.nodup (.root tree.rootPid) tree.others⟩

/-- The block of a node without sons has one line, the others have those of the sons. -/
theorem Shape.block_length {label : Nat → List Char} {sons : Forest Nat}
    (hsons : Shape h (some a) (h.node a).firstSon sons) :
    max 1 (rows label true sons).length =
      (rows label true sons).length + if (h.node a).firstSon.isNone then 1 else 0 := by
  cases sons with
  | nil =>
      rw [show (h.node a).firstSon = none from hsons]
      rfl
  | cons b s r =>
      have hne : rows label true (.cons b s r) ≠ [] := rows_ne_nil true (by simp)
      have hpos := List.length_pos_iff.2 hne
      rw [hsons.1, Nat.max_eq_right hpos]
      rfl

theorem Shape.rows_length {label : Nat → List Char} {first : Bool} (hF : Shape h par q F) :
    (rows label first F).length = F.toList.countP fun b => (h.node b).firstSon.isNone := by
  induction F generalizing par q first with
  | nil => rfl
  | cons a sons siblings ihs ih =>
      rcases hF with ⟨_, _, hsons, hsibs⟩
      rw [rows, List.length_append, hang_length, hsons.block_length, ihs hsons, ih hsibs,
        Forest.toList_cons, List.countP_cons, List.countP_append]
      omega

end Nodes

/-! ## The branches are never broken -/

section Branches

variable {h : Heap} {rootPID : Int} {F : Forest Nat} {a : Nat}

/-- The output as lines of cells: a line for every node without sons, every label in its
place once and only strokes around it, and no stroke that ends at the edge of its cell. -/
structure Unbroken (h : Heap) (nodes : List Nat) (lines : List (List Char)) : Prop where
  leaves : lines.length = nodes.countP fun b => (h.node b).firstSon.isNone
  once : ∃ layout : List (List (Nat ⊕ Char)),
    lines = layout.map (lineText fun b => (h.node b).name.text) ∧
      shown layout = nodes ∧ nodes.Nodup ∧
      ∀ line ∈ layout, ∀ c, Sum.inr c ∈ line → c ∈ strokes
  above : ∀ i j c, cell lines i j = some c → c ∈ ['│', '├', '└'] →
    ∃ k d, i = k + 1 ∧ cell lines k j = some d ∧ d ∈ ['┬', '│', '├']
  below : ∀ i j c, cell lines i j = some c → c ∈ ['┬', '│', '├'] →
    ∃ d, cell lines (i + 1) j = some d ∧ d ∈ ['│', '├', '└']

/-- On every tree with printable names `PrintTree` returns, and the branches that it
prints are not broken. -/
theorem printTree_unbroken (tree : TreeAt h rootPID a F)
    (names : ∀ b ∈ a :: F.toList, ∀ c ∈ (h.node b).name.text, printable c = true) :
    ∃ text, Prints h rootPID a text ∧ Unbroken h (a :: F.toList) (text.splitOn '\n') := by
  obtain ⟨label, hlabel⟩ : ∃ label : Nat → List Char, label = fun b => (h.node b).name.text :=
    ⟨_, rfl⟩
  have hnames : ∀ b ∈ a :: F.toList, ∀ c ∈ label b, printable c = true := by
    rw [hlabel]
    exact names
  have hflow := treeRows_flow hnames
  have hprint : Prints h rootPID a (drawTree (label a) (F.map label)) := by
    rw [tree.prints_iff, hlabel]
    rfl
  refine ⟨_, hprint, ?_⟩
  rw [drawTree_lines hnames]
  constructor
  · rw [List.length_map, treeRows, hang_length, tree.sons.block_length, tree.sons.rows_length,
      List.countP_cons]
  · exact ⟨treeRows label a F, by rw [hlabel], shown_treeRows label a F, tree.nodup,
      fun line hline c hc => treeRows_strokes ⟨line, hline, hc⟩⟩
  · intro i j c hc hup
    rcases hflow.above hc (by simpa [up] using hup) with ⟨_, hj⟩ | ⟨k, d, hi, hd, hdown⟩
    · exact hj.elim
    · exact ⟨k, d, hi, hd, by simpa [down] using hdown⟩
  · intro i j c hc hdown
    rcases hflow.below hc (by simpa [down] using hdown) with ⟨_, hj⟩ | ⟨d, hd, hup⟩
    · exact hj.elim
    · exact ⟨d, hd, by simpa [up] using hup⟩

theorem printTree_unbroken_pairHeap :
    ∃ text, Prints (pairHeap 1 2) 1 0 text ∧
      Unbroken (pairHeap 1 2) [0, 1, 2] (text.splitOn '\n') := by
  have tree : TreeAt (pairHeap 1 2) 1 0 (.cons 1 .nil (.cons 2 .nil .nil)) :=
    ⟨rfl, ⟨rfl, rfl, rfl, rfl, rfl, rfl, rfl⟩, by decide⟩
  exact printTree_unbroken tree (by simp [pairHeap, printable])

end Branches

end OSLabs.Pstree
