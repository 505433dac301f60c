import Mathlib.Data.List.Infix
import OSLabs.Lib.Forest
import OSLabs.Pstree.Print

/-! # The drawing of a forest

`draw` is the drawing of the sons of a node by recursion on their forest, with the
columns of the ancestors as a prefix. It can be read back: the prefix tells which lines
belong to the sons, and the characters before a name tell whether siblings follow.
-/

namespace OSLabs.Pstree

open Lib

variable {F G : Forest (List Char)} {p x y : List Char}

/-- What stands before the name of the first son. -/
def lead : Forest (List Char) → List Char
  | .nil => ['─', '─', '─']
  | .cons _ _ _ => ['─', '┬', '─']

/-- What stands before the name of a later son, behind the prefix. -/
def branch : Forest (List Char) → List Char
  | .nil => [' ', '└', '─']
  | .cons _ _ _ => [' ', '├', '─']

/-- The columns below a branch, on the lines of its tree. -/
def bar : Forest (List Char) → List Char
  | .nil => [' ', ' ', ' ']
  | .cons _ _ _ => [' ', '│', ' ']

/-- What stands before the name of a son, on its line or on a new one. -/
def opening (first : Bool) (p : List Char) (siblings : Forest (List Char)) : List Char :=
  if first then lead siblings else '\n' :: (p ++ branch siblings)

/-- The sons in `F`, drawn behind a name that ends at the column of `p`. The first of
them stands on the line of the parent if `first` says so. -/
def draw (first : Bool) (p : List Char) : Forest (List Char) → List Char
  | .nil => []
  | .cons name sons siblings =>
    opening first p siblings ++ name ++
      draw true (p ++ bar siblings ++ spaces name.length) sons ++ draw false p siblings

def drawTree (name : List Char) (sons : Forest (List Char)) : List Char :=
  name ++ draw true (spaces name.length) sons

/-! ## Reading a drawing back -/

def nameChar (c : Char) : Bool := '!'.toNat ≤ c.toNat && c.toNat ≤ '~'.toNat

/-- Names are non-empty and consist of printable characters other than the space. -/
def IsName (s : List Char) : Prop := s ≠ [] ∧ ∀ c ∈ s, nameChar c = true

/-- `x` is empty or a new line that does not start with the prefix `p`. -/
def Stops (p x : List Char) : Prop := x = [] ∨ ∃ line, x = '\n' :: line ∧ ¬ p <+: line

/-- No name can go on with `x`. -/
def EndsName (x : List Char) : Prop := ∀ c, x.head? = some c → nameChar c = false

theorem Stops.endsName (h : Stops p x) : EndsName x := by
  intro c hc
  rcases h with rfl | ⟨line, rfl, _⟩
  · simp at hc
  · simp only [List.head?_cons, Option.some.injEq] at hc
    subst hc
    decide

theorem Stops.append (h : Stops p x) (w : List Char) : Stops (p ++ w) x := by
  rcases h with rfl | ⟨line, rfl, hp⟩
  · exact .inl rfl
  · exact .inr ⟨line, rfl, fun hw => hp ((List.prefix_append p w).trans hw)⟩

theorem draw_endsName (first : Bool) (hx : Stops p x) : EndsName (draw first p F ++ x) := by
  cases F with
  | nil => exact hx.endsName
  | cons name sons siblings =>
      intro c hc
      cases first with
      | true =>
          have hdash : c = '─' := by
            cases siblings <;> simpa [draw, opening, lead, eq_comm] using hc
          subst hdash
          decide
      | false =>
          have hline : c = '\n' := by simpa [draw, opening, eq_comm] using hc
          subst hline
          decide

/-- The lines of the later siblings do not belong to the tree of a son. -/
theorem Stops.siblings (hx : Stops p x) (w : List Char) :
    Stops (p ++ bar F ++ w) (draw false p F ++ x) := by
  cases F with
  | nil => exact (hx.append _).append w
  | cons name sons siblings =>
      refine .inr ⟨p ++ (branch siblings ++ name ++ draw true
        (p ++ bar siblings ++ spaces name.length) sons ++ draw false p siblings ++ x), ?_, ?_⟩
      · simp [draw, opening]
      · rw [List.append_assoc, List.prefix_append_right_inj]
        cases siblings <;> simp [bar, branch]

/-- A name is read up to the first character that belongs to no name. -/
theorem name_inj {s t : List Char} (hs : ∀ c ∈ s, nameChar c = true)
    (ht : ∀ c ∈ t, nameChar c = true) (hx : EndsName x) (hy : EndsName y)
    (h : s ++ x = t ++ y) : s = t ∧ x = y := by
  induction s generalizing t with
  | nil =>
      cases t with
      | nil => exact ⟨rfl, h⟩
      | cons d t =>
          have hd := hx d (by rw [show x = d :: t ++ y from h]; rfl)
          rw [ht d (by simp)] at hd
          cases hd
  | cons c s ih =>
      cases t with
      | nil =>
          have hc := hy c (by rw [← show c :: s ++ x = y from h]; rfl)
          rw [hs c (by simp)] at hc
          cases hc
      | cons d t =>
          simp only [List.cons_append, List.cons.injEq] at h
          rcases ih (fun e he => hs e (by simp [he])) (fun e he => ht e (by simp [he])) h.2 with
            ⟨hst, hxy⟩
          exact ⟨by rw [h.1, hst], hxy⟩

/-- What stands before a name tells whether siblings follow. -/
theorem opening_inj {first : Bool} (h : opening first p F ++ x = opening first p G ++ y) :
    (F = .nil ↔ G = .nil) ∧ x = y := by
  cases first with
  | true => cases F <;> cases G <;> simp_all [opening, lead]
  | false => cases F <;> cases G <;> simp_all [opening, branch]

theorem bar_congr (h : F = .nil ↔ G = .nil) : bar F = bar G := by
  cases F with
  | nil => rw [h.1 rfl]
  | cons a s r =>
      cases G with
      | nil => exact absurd (h.2 rfl) (by simp)
      | cons b s' r' => rfl

theorem draw_nil_inj {first : Bool} (hx : Stops p x) (h : x = draw first p G ++ y) : G = .nil := by
  cases G with
  | nil => rfl
  | cons name sons siblings =>
      rcases hx with rfl | ⟨line, rfl, hp⟩
      · cases first <;> cases siblings <;> simp [draw, opening, lead] at h
      · cases first with
        | true => cases siblings <;> simp [draw, opening, lead] at h
        | false =>
            simp only [draw, opening, Bool.false_eq_true, if_false, List.cons_append,
              List.append_assoc, List.cons.injEq, true_and] at h
            exact (hp ⟨_, h.symm⟩).elim

/-- The drawing of the sons, up to where it stops, determines them. -/
theorem draw_inj {first : Bool} (hF : ∀ s ∈ F.toList, ∀ c ∈ s, nameChar c = true)
    (hG : ∀ s ∈ G.toList, ∀ c ∈ s, nameChar c = true) (hx : Stops p x) (hy : Stops p y)
    (h : draw first p F ++ x = draw first p G ++ y) : F = G ∧ x = y := by
  induction F generalizing first p G x y with
  | nil =>
      have hG := draw_nil_inj hx h
      subst hG
      exact ⟨rfl, h⟩
  | cons name sons siblings ihs ih =>
      cases G with
      | nil => exact absurd (draw_nil_inj hy h.symm) (by simp)
      | cons name' sons' siblings' =>
          simp only [Forest.toList_cons, List.mem_cons, List.mem_append, forall_eq_or_imp] at hF hG
          simp only [draw, List.append_assoc] at h
          rcases opening_inj h with ⟨hsibs, h⟩
          have hbar := bar_congr hsibs
          have hends : EndsName (draw true (p ++ (bar siblings ++ spaces name.length)) sons ++
              (draw false p siblings ++ x)) := by
            apply draw_endsName
            rw [← List.append_assoc]
            exact hx.siblings _
          have hends' : EndsName (draw true (p ++ (bar siblings' ++ spaces name'.length)) sons' ++
              (draw false p siblings' ++ y)) := by
            apply draw_endsName
            rw [← List.append_assoc]
            exact hy.siblings _
          rcases name_inj hF.1 hG.1 hends hends' h with ⟨hname, h⟩
          subst hname
          rw [← hbar] at h
          have hstop := hx.siblings (F := siblings) (spaces name.length)
          have hstop' := hy.siblings (F := siblings') (spaces name.length)
          rw [← hbar] at hstop'
          rw [← List.append_assoc p] at h
          rcases ihs (fun s hs => hF.2 s (.inl hs)) (fun s hs => hG.2 s (.inl hs)) hstop hstop' h
            with ⟨hsons, h⟩
          rcases ih (fun s hs => hF.2 s (.inr hs)) (fun s hs => hG.2 s (.inr hs)) hx hy h
            with ⟨hsiblings, hxy⟩
          exact ⟨by rw [hsons, hsiblings], hxy⟩

theorem drawTree_inj {name name' : List Char} (hname : ∀ c ∈ name, nameChar c = true)
    (hname' : ∀ c ∈ name', nameChar c = true) (hF : ∀ s ∈ F.toList, ∀ c ∈ s, nameChar c = true)
    (hG : ∀ s ∈ G.toList, ∀ c ∈ s, nameChar c = true)
    (h : drawTree name F = drawTree name' G) : name = name' ∧ F = G := by
  have hstop : ∀ q, Stops q [] := fun q => .inl rfl
  have hends : ∀ (q : List Char) (H : Forest (List Char)), EndsName (draw true q H) := by
    intro q H
    simpa using draw_endsName (F := H) true (hstop q)
  rcases name_inj hname hname' (hends _ _) (hends _ _) h with ⟨rfl, h⟩
  have h' : draw true (spaces name.length) F ++ [] = draw true (spaces name.length) G ++ [] := by
    rw [h]
  exact ⟨rfl, (draw_inj hF hG (hstop _) (hstop _) h').1⟩

end OSLabs.Pstree
