import OSLabs.Lib.Forest

/-! # Forests that grow by leaves

A node that no other node has as its parent yet is added behind the sons of its parent. On
an unfolding this is what a new edge of the graph does, so a forest can be grown edge by
edge instead of being unfolded from its root.
-/

namespace OSLabs.Lib.Forest

variable {α β : Type} [DecidableEq α] [DecidableEq β] {F G : Forest α} {p c x : α}

/-- A new last son `c` for each node `p`. -/
def addLeaf (p c : α) : Forest α → Forest α
  | nil => nil
  | cons a sons siblings =>
    cons a (if a = p then (sons.addLeaf p c).append (cons c nil nil) else sons.addLeaf p c)
      (siblings.addLeaf p c)

theorem addLeaf_of_not_mem (hp : p ∉ F.toList) : F.addLeaf p c = F := by
  induction F with
  | nil => rfl
  | cons a sons siblings ihs ih =>
      simp only [toList_cons, List.mem_cons, List.mem_append, not_or] at hp
      rw [addLeaf, if_neg (Ne.symm hp.1), ihs hp.2.1, ih hp.2.2]

theorem mem_addLeaf (hx : x ∈ (F.addLeaf p c).toList) : x ∈ F.toList ∨ x = c := by
  induction F with
  | nil => exact .inl hx
  | cons a sons siblings ihs ih =>
      rw [addLeaf, toList_cons, List.mem_cons, List.mem_append] at hx
      rw [toList_cons, List.mem_cons, List.mem_append]
      rcases hx with rfl | hx | hx
      · exact .inl (.inl rfl)
      · have hsons : x ∈ (sons.addLeaf p c).toList ∨ x = c := by
          by_cases ha : a = p
          · rw [if_pos ha, toList_append, List.mem_append] at hx
            simpa using hx
          · rw [if_neg ha] at hx
            exact .inl hx
        rcases hsons with hx | rfl
        · exact (ihs hx).imp_left fun hx => .inr (.inl hx)
        · exact .inr rfl
      · exact (ih hx).imp_left fun hx => .inr (.inr hx)

theorem addLeaf_map {f : β → α} {F : Forest β} {p c : β}
    (inj : ∀ x ∈ F.toList, f x = f p → x = p) :
    (F.map f).addLeaf (f p) (f c) = (F.addLeaf p c).map f := by
  induction F with
  | nil => rfl
  | cons a sons siblings ihs ih =>
      simp only [toList_cons, List.mem_cons, List.mem_append, forall_eq_or_imp] at inj
      rw [map, addLeaf, addLeaf, map, ihs fun x hx => inj.2 x (.inl hx),
        ih fun x hx => inj.2 x (.inr hx)]
      by_cases ha : a = p
      · rw [if_pos ha, if_pos (congrArg f ha), map_append]
        rfl
      · rw [if_neg ha, if_neg fun h => ha (inj.1 h)]

/-! ## A new edge -/

variable {children children' : α → List α} {n : Nat} {a : α}

/-- A new last child of `p` without children is a new leaf of the unfolding. -/
theorem unfold_addLeaf (hadd : ∀ b, children' b = if b = p then children b ++ [c] else children b)
    (hleaf : children' c = []) (hF : unfold children n a = some F) :
    ∃ G, unfold children' (n + 1) a = some G ∧ (cons a F nil).addLeaf p c = cons a G nil := by
  induction n generalizing a F with
  | zero => cases hF
  | succ n ih =>
      have hold : ∀ (cs : List α) (F : Forest α), graft (unfold children n) cs = some F →
          graft (unfold children' (n + 1)) cs = some (F.addLeaf p c) := by
        intro cs
        induction cs with
        | nil =>
            intro F hF
            cases hF
            rfl
        | cons b cs ihcs =>
            intro F hF
            rcases graft_cons.1 hF with ⟨sons, siblings, hsons, hsibs, rfl⟩
            rcases ih hsons with ⟨G, hG, hadded⟩
            refine graft_cons.2 ⟨G, siblings.addLeaf p c, hG, ihcs siblings hsibs, ?_⟩
            rw [addLeaf, addLeaf] at hadded
            rw [addLeaf, (cons.inj hadded).2.1]
      have hnew : graft (unfold children' (n + 1)) [c] = some (cons c nil nil) :=
        graft_cons.2 ⟨nil, nil, by rw [unfold, hleaf]; rfl, rfl, rfl⟩
      refine ⟨_, ?_, rfl⟩
      rw [unfold, hadd]
      by_cases ha : a = p
      · rw [if_pos ha, if_pos ha]
        exact graft_append (hold _ F hF) hnew
      · rw [if_neg ha, if_neg ha]
        exact hold _ F hF

end OSLabs.Lib.Forest
