import Mathlib.Data.List.Basic
import Mathlib.Logic.Function.Basic

/-! # Traces of stores

A routine that only writes to a memory is given by the list of its stores. What the
memory holds afterwards at one address is decided by the stores made there.
-/

namespace OSLabs.Lib

variable {α β : Type} [DecidableEq α]

/-- The memory after a list of stores, the first one made first. -/
def storeAll (mem : α → β) (stores : List (α × β)) : α → β :=
  stores.foldl (fun m s => Function.update m s.1 s.2) mem

theorem storeAll_cons (mem : α → β) (s : α × β) (stores : List (α × β)) :
    storeAll mem (s :: stores) = storeAll (Function.update mem s.1 s.2) stores :=
  rfl

theorem storeAll_unchanged {mem : α → β} {stores : List (α × β)} {a : α}
    (h : ∀ s ∈ stores, s.1 ≠ a) :
    storeAll mem stores a = mem a := by
  induction stores generalizing mem with
  | nil => rfl
  | cons s stores ih =>
      have hs : a ≠ s.1 := (h s List.mem_cons_self).symm
      rw [storeAll_cons, ih fun t ht => h t (List.mem_cons_of_mem s ht)]
      exact Function.update_of_ne hs _ _

/-- Stores that agree on an address leave their value there. -/
theorem storeAll_eq {mem : α → β} {stores : List (α × β)} {a : α} {v : β}
    (hsome : ∃ s ∈ stores, s.1 = a) (hall : ∀ s ∈ stores, s.1 = a → s.2 = v) :
    storeAll mem stores a = v := by
  induction stores generalizing mem with
  | nil =>
      rcases hsome with ⟨s, hs, -⟩
      cases hs
  | cons s stores ih =>
      have hrest : ∀ t ∈ stores, t.1 = a → t.2 = v :=
        fun t ht => hall t (List.mem_cons_of_mem s ht)
      rw [storeAll_cons]
      by_cases hlater : ∃ t ∈ stores, t.1 = a
      · exact ih hlater hrest
      · have hs : s.1 = a := by
          rcases hsome with ⟨t, ht, hta⟩
          rcases List.mem_cons.1 ht with rfl | ht
          · exact hta
          · exact absurd ⟨t, ht, hta⟩ hlater
        rw [storeAll_unchanged fun t ht hta => hlater ⟨t, ht, hta⟩, ← hs,
          Function.update_self]
        exact hall s List.mem_cons_self hs

/-! ## Rows -/

/-- Two places in rows of `W` are the same one only if row and column are the same. -/
theorem index_inj {W a b a' b' : Nat} (ha : a < W) (ha' : a' < W) (h : W * b + a = W * b' + a') :
    a = a' ∧ b = b' := by
  have hpos : 0 < W := Nat.lt_of_le_of_lt (Nat.zero_le a) ha
  obtain ⟨hdiv, hmod⟩ := (Nat.div_mod_unique hpos).2 ⟨Nat.add_comm a _, ha⟩
  obtain ⟨hdiv', hmod'⟩ := (Nat.div_mod_unique hpos).2 ⟨Nat.add_comm a' _, ha'⟩
  rw [h] at hdiv hmod
  exact ⟨hmod.symm.trans hmod', hdiv.symm.trans hdiv'⟩

end OSLabs.Lib
