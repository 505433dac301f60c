import Mathlib.Data.List.Nodup
import Mathlib.Logic.Function.Basic

/-! # Linked lists in memory

`Chain next p l` says that following `next` from `p` visits the nodes of `l` and ends. The
list is determined by memory and visits no node twice. Hanging a node in front makes a
longer list exactly where the list does not have the node yet.
-/

namespace OSLabs.Lib

variable {α : Type} {next next' : α → Option α} {p : Option α} {a : α} {l l' : List α}

inductive Chain (next : α → Option α) : Option α → List α → Prop where
  | nil : Chain next none []
  | cons {a : α} {l : List α} : Chain next (next a) l → Chain next (some a) (a :: l)

namespace Chain

theorem unique (h : Chain next p l) (h' : Chain next p l') : l = l' := by
  induction h generalizing l' with
  | nil => cases h'; rfl
  | cons _ ih =>
      cases h' with
      | cons hrest => rw [ih hrest]

/-- A node on the list starts a part of it. -/
theorem drop {l₁ l₂ : List α} (h : Chain next p (l₁ ++ a :: l₂)) :
    Chain next (some a) (a :: l₂) := by
  induction l₁ generalizing p with
  | nil => cases h with | cons hrest => exact .cons hrest
  | cons b l₁ ih => cases h with | cons hrest => exact ih hrest

theorem nodup (h : Chain next p l) : l.Nodup := by
  induction h with
  | nil => exact List.nodup_nil
  | @cons a l hrest ih =>
      rw [List.nodup_cons]
      refine ⟨?_, ih⟩
      intro ha
      rcases List.append_of_mem ha with ⟨l₁, l₂, rfl⟩
      have hsame := (cons hrest).unique hrest.drop
      have hlen := congrArg List.length hsame
      simp only [List.length_cons, List.length_append] at hlen
      omega

theorem congr (same : ∀ b ∈ l, next' b = next b) (h : Chain next p l) : Chain next' p l := by
  induction h with
  | nil => exact .nil
  | @cons a l _ ih =>
      have hrest := ih fun b hb => same b (List.mem_cons_of_mem _ hb)
      rw [← same a (by simp)] at hrest
      exact .cons hrest

variable [DecidableEq α]

theorem push (ha : a ∉ l) (h : Chain next p l) :
    Chain (Function.update next a p) (some a) (a :: l) := by
  apply cons
  rw [Function.update_self]
  apply h.congr
  intro b hb
  have hne : b ≠ a := by
    intro heq
    exact ha (heq ▸ hb)
  exact Function.update_of_ne hne ..

/-- Nothing else can be put in front: a node that is already on the list starts a cycle, and
a list that does not end still does not. -/
theorem of_push (h : Chain (Function.update next a p) (some a) l) :
    ∃ k, l = a :: k ∧ a ∉ k ∧ Chain next p k := by
  have hnodup := h.nodup
  cases h with
  | @cons _ k hrest =>
      have ha := (List.nodup_cons.1 hnodup).1
      rw [Function.update_self] at hrest
      refine ⟨k, rfl, ha, hrest.congr ?_⟩
      intro b hb
      have hne : b ≠ a := by
        intro heq
        exact ha (heq ▸ hb)
      exact (Function.update_of_ne hne ..).symm

end Chain

end OSLabs.Lib
