import Mathlib.Data.List.Nodup

/-! # Circular lists in memory

The links lead from a head through the nodes of a list and back to the head, in both
directions. A node is put between two neighbours, or taken out, by links of the neighbours only.
-/

namespace OSLabs.Lib

variable {α : Type} {next prev next' prev' : α → α}

/-- Consecutive nodes are linked in both directions. -/
def Linked (next prev : α → α) : List α → Prop
  | a :: b :: l => (next a = b ∧ prev b = a) ∧ Linked next prev (b :: l)
  | _ => True

theorem linked_append {l r : List α} {a : α} :
    Linked next prev (l ++ a :: r) ↔
      Linked next prev (l ++ [a]) ∧ Linked next prev (a :: r) := by
  induction l with
  | nil => simp [Linked]
  | cons b l ih =>
      cases l with
      | nil => simp [Linked]
      | cons c l =>
          simp only [List.cons_append, Linked] at ih ⊢
          rw [ih, and_assoc, and_assoc, and_assoc]

theorem Linked.congr {l : List α} (h : Linked next prev l)
    (hnext : ∀ a ∈ l.dropLast, next' a = next a) (hprev : ∀ a ∈ l.tail, prev' a = prev a) :
    Linked next' prev' l := by
  induction l with
  | nil => trivial
  | cons a l ih =>
      cases l with
      | nil => trivial
      | cons b l =>
          obtain ⟨⟨hab, hba⟩, hrest⟩ := h
          refine ⟨⟨?_, ?_⟩, ih hrest ?_ ?_⟩
          · rw [hnext a (by simp), hab]
          · rw [hprev b (by simp), hba]
          · intro c hc
            exact hnext c (by simp [hc])
          · intro c hc
            exact hprev c (List.mem_cons_of_mem b hc)

structure Circle (next prev : α → α) (head : α) (l : List α) : Prop where
  linked : Linked next prev (head :: l ++ [head])
  nodup : (head :: l).Nodup

namespace Circle

variable {head p q new x : α} {l r before after : List α}

theorem empty (hnext : next head = head) (hprev : prev head = head) :
    Circle next prev head [] :=
  ⟨⟨⟨hnext, hprev⟩, trivial⟩, List.nodup_singleton head⟩

/-- A place in a circle, between `p` and `q`. -/
structure Gap (head : α) (l r before after : List α) (p q : α) : Prop where
  left : head :: l = before ++ [p]
  right : r ++ [head] = q :: after

theorem Gap.split (gap : Gap head l r before after p q) (mid : List α) :
    head :: (l ++ (mid ++ r)) ++ [head] = before ++ p :: (mid ++ q :: after) :=
  calc
    head :: (l ++ (mid ++ r)) ++ [head] = (head :: l) ++ (mid ++ (r ++ [head])) := by simp
    _ = before ++ p :: (mid ++ q :: after) := by
      rw [gap.left, gap.right]
      simp

theorem exists_gap (head : α) (l r : List α) :
    ∃ before after p q, Gap head l r before after p q := by
  have hleft := List.dropLast_append_getLast (List.cons_ne_nil head l)
  cases r with
  | nil => exact ⟨_, [], _, head, hleft.symm, rfl⟩
  | cons q r => exact ⟨_, r ++ [head], _, q, hleft.symm, rfl⟩

theorem linked_gap (gap : Gap head l r before after p q) :
    Linked next prev (head :: (l ++ r) ++ [head]) ↔
      Linked next prev (head :: l) ∧ (next p = q ∧ prev q = p) ∧
        Linked next prev (r ++ [head]) := by
  have hsplit : head :: (l ++ r) ++ [head] = before ++ p :: (q :: after) := gap.split []
  rw [hsplit, linked_append, ← gap.left, gap.right]
  rfl

/-- Links of nodes that stay neighbours stay. -/
theorem sides (gap : Gap head l r before after p q) (nodup : (head :: (l ++ r)).Nodup)
    (hnext : ∀ a ∈ head :: (l ++ r), a ≠ p → next' a = next a)
    (hprev : ∀ a ∈ head :: (l ++ r), a ≠ q → prev' a = prev a)
    (hl : Linked next prev (head :: l)) (hr : Linked next prev (r ++ [head])) :
    Linked next' prev' (head :: l) ∧ Linked next' prev' (r ++ [head]) := by
  have hp : p ∈ head :: l := by
    rw [gap.left]
    simp
  have hq : q ∈ r ++ [head] := by
    rw [gap.right]
    simp
  have hnodupl : (before ++ [p]).Nodup := by
    rw [← gap.left]
    exact nodup.sublist (by simp)
  have hnodupr : (q :: after).Nodup := by
    rw [← gap.right]
    refine List.nodup_append_comm.1 (nodup.sublist ?_)
    simp
  simp only [List.nodup_cons, List.nodup_append, List.mem_append, not_or] at nodup
  constructor
  · apply hl.congr
    · intro a ha
      rw [gap.left, List.dropLast_concat] at ha
      refine hnext a ?_ ?_
      · have hmem : a ∈ head :: l := by
          rw [gap.left]
          simp [ha]
        simp only [List.mem_cons, List.mem_append] at hmem ⊢
        tauto
      · rintro rfl
        exact (List.nodup_append.1 hnodupl).2.2 a ha a (by simp) rfl
    · intro a ha
      refine hprev a (by simp at ha; simp [ha]) ?_
      rintro rfl
      simp only [List.tail_cons, List.mem_append, List.mem_singleton] at ha hq
      cases hq with
      | inl hq => exact nodup.2.2.2 a ha a hq rfl
      | inr hq => exact nodup.1.1 (hq ▸ ha)
  · apply hr.congr
    · intro a ha
      rw [List.dropLast_concat] at ha
      refine hnext a (by simp [ha]) ?_
      rintro rfl
      cases List.mem_cons.1 hp with
      | inl hp => exact nodup.1.2 (hp ▸ ha)
      | inr hp => exact nodup.2.2.2 a hp a ha rfl
    · intro a ha
      rw [gap.right, List.tail_cons] at ha
      refine hprev a ?_ ?_
      · have hmem : a ∈ r ++ [head] := by
          rw [gap.right]
          exact List.mem_cons_of_mem q ha
        simp only [List.mem_cons, List.mem_append, List.not_mem_nil, or_false] at hmem ⊢
        tauto
      · rintro rfl
        exact (List.nodup_cons.1 hnodupr).1 ha

theorem insert (h : Circle next prev head (l ++ r)) (gap : Gap head l r before after p q)
    (hnew : new ∉ head :: (l ++ r))
    (hnext : ∀ a ∈ head :: (l ++ r), a ≠ p → next' a = next a)
    (hprev : ∀ a ∈ head :: (l ++ r), a ≠ q → prev' a = prev a)
    (hp : next' p = new ∧ prev' new = p) (hq : next' new = q ∧ prev' q = new) :
    Circle next' prev' head (l ++ new :: r) := by
  obtain ⟨hl, -, hr⟩ := (linked_gap gap).1 h.linked
  obtain ⟨hl', hr'⟩ := sides gap h.nodup hnext hprev hl hr
  constructor
  · have hsplit : head :: (l ++ new :: r) ++ [head] = before ++ p :: (new :: q :: after) :=
      gap.split [new]
    rw [hsplit, linked_append, ← gap.left]
    rw [gap.right] at hr'
    exact ⟨hl', hp, hq, hr'⟩
  · rw [← List.cons_append, List.nodup_middle]
    exact List.nodup_cons.2 ⟨hnew, h.nodup⟩

theorem remove (h : Circle next prev head (l ++ x :: r)) (gap : Gap head l r before after p q)
    (hnext : ∀ a ∈ head :: (l ++ r), a ≠ p → next' a = next a)
    (hprev : ∀ a ∈ head :: (l ++ r), a ≠ q → prev' a = prev a)
    (hpq : next' p = q ∧ prev' q = p) :
    Circle next' prev' head (l ++ r) := by
  have hsplit : head :: (l ++ x :: r) ++ [head] = before ++ p :: (x :: q :: after) :=
    gap.split [x]
  have hlinked := h.linked
  rw [hsplit, linked_append, ← gap.left] at hlinked
  obtain ⟨hl, -, -, hr⟩ := hlinked
  rw [← gap.right] at hr
  have hnodup := h.nodup
  rw [← List.cons_append, List.nodup_middle, List.nodup_cons] at hnodup
  obtain ⟨hl', hr'⟩ := sides gap hnodup.2 hnext hprev hl hr
  exact ⟨(linked_gap gap).2 ⟨hl', hpq, hr'⟩, hnodup.2⟩

theorem neighbours (h : Circle next prev head (l ++ x :: r))
    (gap : Gap head l r before after p q) : prev x = p ∧ next x = q := by
  have hsplit : head :: (l ++ x :: r) ++ [head] = before ++ p :: (x :: q :: after) :=
    gap.split [x]
  have hlinked := h.linked
  rw [hsplit, linked_append] at hlinked
  exact ⟨hlinked.2.1.2, hlinked.2.2.1.1⟩

end Circle

end OSLabs.Lib
