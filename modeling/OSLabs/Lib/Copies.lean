import OSLabs.Lib.Arena

/-! # Copies of blocks

A routine that copies blocks one after the other, from places that it does not write to,
leaves in each block what its source held at the start.
-/

namespace OSLabs.Lib

variable {β : Type} {n a : Int} {mem : Int → β} {copies : List (Int × Int)}

/-- The memory after a copy of `n` cells from `src` to `dst`. -/
def copyBlock (n : Int) (mem : Int → β) (dst src : Int) : Int → β :=
  fun a => if (Region.mk dst n).Has a then mem (src + (a - dst)) else mem a

/-- The memory after copies, given by destination and source, the first one made first. -/
def copyAll (n : Int) (mem : Int → β) (copies : List (Int × Int)) : Int → β :=
  copies.foldl (fun mem c => copyBlock n mem c.1 c.2) mem

theorem copyAll_cons (c : Int × Int) (copies : List (Int × Int)) :
    copyAll n mem (c :: copies) = copyAll n (copyBlock n mem c.1 c.2) copies := rfl

theorem copyAll_unchanged (h : ∀ c ∈ copies, ¬(Region.mk c.1 n).Has a) :
    copyAll n mem copies a = mem a := by
  induction copies generalizing mem with
  | nil => rfl
  | cons c copies ih =>
      rw [copyAll_cons, ih fun d hd => h d (List.mem_cons_of_mem c hd)]
      exact if_neg (h c List.mem_cons_self)

/-- No copy reads what another one writes. -/
def Undisturbed (n : Int) (copies : List (Int × Int)) : Prop :=
  ∀ c ∈ copies, ∀ d ∈ copies, (Region.mk c.1 n).Apart ⟨d.2, n⟩

theorem copyBlock_source (h : Undisturbed n copies) {c d : Int × Int} (hc : c ∈ copies)
    (hd : d ∈ copies) (ha : (Region.mk d.1 n).Has a) :
    copyBlock n mem c.1 c.2 (d.2 + (a - d.1)) = mem (d.2 + (a - d.1)) := by
  have hsource : (Region.mk d.2 n).Has (d.2 + (a - d.1)) := by
    have hbounds := Region.mk_has.1 ha
    exact Region.mk_has.2 ⟨by omega, by omega⟩
  exact if_neg fun has => (h c hc d hd).not_has has hsource

/-- Copies that agree on an address leave there what they take from the memory at the
start. -/
theorem copyAll_eq {v : β} (h : Undisturbed n copies)
    (hsome : ∃ c ∈ copies, (Region.mk c.1 n).Has a)
    (hall : ∀ c ∈ copies, (Region.mk c.1 n).Has a → mem (c.2 + (a - c.1)) = v) :
    copyAll n mem copies a = v := by
  induction copies generalizing mem with
  | nil =>
      obtain ⟨c, hc, -⟩ := hsome
      cases hc
  | cons c copies ih =>
      have hrest : Undisturbed n copies := fun d hd e he =>
        h d (List.mem_cons_of_mem c hd) e (List.mem_cons_of_mem c he)
      rw [copyAll_cons]
      by_cases hlater : ∃ d ∈ copies, (Region.mk d.1 n).Has a
      · apply ih hrest hlater
        intro d hd ha
        rw [copyBlock_source h List.mem_cons_self (List.mem_cons_of_mem c hd) ha]
        exact hall d (List.mem_cons_of_mem c hd) ha
      · have hc : (Region.mk c.1 n).Has a := by
          obtain ⟨d, hd, ha⟩ := hsome
          rcases List.mem_cons.1 hd with rfl | hd
          · exact ha
          · exact absurd ⟨d, hd, ha⟩ hlater
        rw [copyAll_unchanged fun d hd ha => hlater ⟨d, hd, ha⟩]
        exact (if_pos hc).trans (hall c List.mem_cons_self hc)

end OSLabs.Lib
