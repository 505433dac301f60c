import OSLabs.Lib.Forest

/-! # Forests built by insertion

The sons of a node are inserted one after the other. An insertion walks along the siblings
as long as a condition holds, makes the new tree the next sibling of the place where it
stops, and so drops the siblings that were behind that place. Nothing is dropped exactly if
the condition holds at every sibling but the last one, and the forest is then the one that
was inserted.
-/

namespace OSLabs.Lib.Forest

variable {α β : Type}

/-! ## Properties of all nodes -/

/-- Every node of a forest, with the forest of its sons, has the property. -/
def All (P : α → Forest α → Prop) : Forest α → Prop
  | nil => True
  | cons a sons siblings => P a sons ∧ All P sons ∧ All P siblings

theorem All.imp {P Q : α → Forest α → Prop} {F : Forest α} (h : F.All P)
    (hPQ : ∀ a sons, P a sons → Q a sons) : F.All Q := by
  induction F with
  | nil => trivial
  | cons a sons siblings ihs ih => exact ⟨hPQ a sons h.1, ihs h.2.1, ih h.2.2⟩

theorem All.and {P Q : α → Forest α → Prop} {F : Forest α} (hP : F.All P) (hQ : F.All Q) :
    F.All fun a sons => P a sons ∧ Q a sons := by
  induction F with
  | nil => trivial
  | cons a sons siblings ihs ih =>
      exact ⟨⟨hP.1, hQ.1⟩, ihs hP.2.1 hQ.2.1, ih hP.2.2 hQ.2.2⟩

theorem All.of_mem {P : α → Forest α → Prop} {F : Forest α} (h : F.All P) {a : α}
    (ha : a ∈ F.toList) : ∃ sons, P a sons := by
  induction F with
  | nil => cases ha
  | cons b sons siblings ihs ih =>
      rw [toList_cons, List.mem_cons, List.mem_append] at ha
      rcases ha with rfl | ha | ha
      · exact ⟨sons, h.1⟩
      · exact ihs h.2.1 ha
      · exact ih h.2.2 ha

theorem all_map {f : α → β} {P : β → Forest β → Prop} {F : Forest α} :
    (F.map f).All P ↔ F.All fun a sons => P (f a) (sons.map f) := by
  induction F with
  | nil => exact Iff.rfl
  | cons a sons siblings ihs ih => exact and_congr_right' (and_congr ihs ih)

theorem all_unfold {children : α → List α} {n : Nat} {a : α} {F : Forest α}
    (h : unfold children n a = some F) : F.All fun c sons => sons.roots = children c := by
  have key : ∀ (n : Nat) (cs : List α) (F : Forest α),
      (∀ a G, unfold children n a = some G → G.All fun c sons => sons.roots = children c) →
      graft (unfold children n) cs = some F → F.All fun c sons => sons.roots = children c := by
    intro n cs F hsub
    induction cs generalizing F with
    | nil =>
        intro hF
        cases hF
        trivial
    | cons c cs ih =>
        intro hF
        rcases graft_cons.1 hF with ⟨sons, siblings, hsons, hsibs, rfl⟩
        exact ⟨unfold_roots hsons, hsub c sons hsons, ih siblings hsibs⟩
  induction n generalizing a F with
  | zero => cases h
  | succ n ih => exact key n _ F (fun b G hG => ih hG) h

/-- Every list of siblings of a forest has the property. -/
def AllSiblings (P : List α → Prop) (F : Forest α) : Prop :=
  P F.roots ∧ F.All fun _ sons => P sons.roots

theorem AllSiblings.imp {P Q : List α → Prop} {F : Forest α} (h : F.AllSiblings P)
    (hPQ : ∀ l, P l → Q l) : F.AllSiblings Q :=
  ⟨hPQ _ h.1, h.2.imp fun _ _ => hPQ _⟩

theorem AllSiblings.and {P Q : List α → Prop} {F : Forest α} (hP : F.AllSiblings P)
    (hQ : F.AllSiblings Q) : F.AllSiblings fun l => P l ∧ Q l :=
  ⟨⟨hP.1, hQ.1⟩, hP.2.and hQ.2⟩

theorem all_mem (F : Forest α) :
    F.All fun a sons => a ∈ F.toList ∧ ∀ x ∈ sons.toList, x ∈ F.toList := by
  induction F with
  | nil => trivial
  | cons a sons siblings ihs ih =>
      refine ⟨⟨by simp, fun x hx => by simp [hx]⟩, ihs.imp ?_, ih.imp ?_⟩
      · intro b G h
        exact ⟨by simp [h.1], fun x hx => by simp [h.2 x hx]⟩
      · intro b G h
        exact ⟨by simp [h.1], fun x hx => by simp [h.2 x hx]⟩

/-- Where no node occurs twice, none is below itself and its sons are distinct. -/
theorem all_nodup {F : Forest α} (h : F.toList.Nodup) :
    F.All fun a sons => (a :: sons.toList).Nodup := by
  induction F with
  | nil => trivial
  | cons a sons siblings ihs ih =>
      rw [toList_cons, ← List.cons_append] at h
      have hsub : sons.toList.Sublist (a :: sons.toList) := List.sublist_cons_self a _
      exact ⟨(List.nodup_append.1 h).1, ihs ((List.nodup_append.1 h).1.sublist hsub),
        ih (List.nodup_append.1 h).2.1⟩

theorem allSiblings_mem (F : Forest α) : F.AllSiblings fun l => ∀ x ∈ l, x ∈ F.toList := by
  refine ⟨fun x hx => F.roots_sublist.subset hx, F.all_mem.imp ?_⟩
  intro _ sons hmem x hx
  exact hmem.2 x (sons.roots_sublist.subset hx)

/-- Where the sons of every node are all that a relation asks for, all that it reaches is in
the forest. -/
theorem All.reach {R : α → α → Prop} {F : Forest α}
    (h : F.All fun p sons => ∀ c, R p c → c ∈ sons.roots) {a x : α} (ha : a ∈ F.toList)
    (hx : Relation.ReflTransGen R a x) : x ∈ F.toList := by
  induction hx with
  | refl => exact ha
  | @tail p c _ hpc ih =>
      rcases (h.and (allSiblings_mem F).2).of_mem ih with ⟨sons, hsons, hmem⟩
      exact hmem c (hsons c hpc)

theorem allSiblings_map {f : α → β} {P : List β → Prop} {F : Forest α} :
    (F.map f).AllSiblings P ↔ F.AllSiblings fun l => P (l.map f) := by
  simp only [AllSiblings, all_map, roots_map]

theorem allSiblings_unfold {children : α → List α} {n : Nat} {a : α} {F : Forest α}
    {P : List α → Prop} (h : unfold children n a = some F) (hP : ∀ p, P (children p)) :
    F.AllSiblings P := by
  constructor
  · rw [unfold_roots h]
    exact hP a
  · refine (all_unfold h).imp ?_
    intro p sons hsons
    rw [hsons]
    exact hP p

/-! ## Numbers for the nodes -/

/-- The nodes are numbered in preorder, from `n` on. -/
def number : Nat → Forest α → Forest (Nat × α)
  | _, nil => nil
  | n, cons a sons siblings =>
    cons (n, a) (number (n + 1) sons) (number (n + 1 + sons.toList.length) siblings)

@[simp] theorem length_map (f : α → β) (F : Forest α) :
    (F.map f).toList.length = F.toList.length := by
  rw [toList_map, List.length_map]

theorem number_map_snd (n : Nat) (F : Forest α) : (F.number n).map Prod.snd = F := by
  induction F generalizing n with
  | nil => rfl
  | cons a sons siblings ihs ih => rw [number, map, ihs, ih]

theorem number_length (n : Nat) (F : Forest α) :
    (F.number n).toList.length = F.toList.length := by
  rw [← length_map Prod.snd, number_map_snd]

theorem mem_number {n : Nat} {F : Forest α} {x : Nat × α} (h : x ∈ (F.number n).toList) :
    n ≤ x.1 ∧ x.1 < n + F.toList.length ∧ x.2 ∈ F.toList := by
  induction F generalizing n with
  | nil => cases h
  | cons a sons siblings ihs ih =>
      rw [number, toList_cons, List.mem_cons, List.mem_append] at h
      rw [toList_cons, List.length_cons, List.length_append, List.mem_cons, List.mem_append]
      rcases h with rfl | h | h
      · exact ⟨Nat.le_refl _, by omega, .inl rfl⟩
      · have := ihs h
        exact ⟨by omega, by omega, .inr (.inl this.2.2)⟩
      · have := ih h
        exact ⟨by omega, by omega, .inr (.inr this.2.2)⟩

/-! ## Insertion -/

/-- The trees up to the one at which a walk stops that goes on while `go` holds. -/
def keepTo (go : α → Bool) : Forest α → Forest α
  | nil => nil
  | cons a sons siblings => cons a sons (if go a then keepTo go siblings else nil)

/-- The trees of the second forest are inserted behind those of the first, each one with
its sons inserted in the same way. -/
def insertAll (go : α → α → Bool) (acc : Forest α) : Forest α → Forest α
  | nil => acc
  | cons q sons siblings =>
    insertAll go ((acc.keepTo (go · q)).append (cons q (insertAll go nil sons) nil)) siblings

/-- At every insertion, the walk goes on from all siblings but the last one. `before` are
the siblings that are there already. -/
def Smooth (go : α → α → Bool) (before : List α) : Forest α → Prop
  | nil => True
  | cons q sons siblings =>
    (∀ x ∈ before.dropLast, go x q = true) ∧ Smooth go [] sons ∧
      Smooth go (before ++ [q]) siblings

instance decidableSmooth (go : α → α → Bool) (before : List α) :
    (F : Forest α) → Decidable (Smooth go before F)
  | nil => inferInstanceAs (Decidable True)
  | cons q sons siblings =>
    have := decidableSmooth go [] sons
    have := decidableSmooth go (before ++ [q]) siblings
    inferInstanceAs (Decidable (_ ∧ _ ∧ _))

/-- Every element satisfies the condition with all before it but the one just before it. -/
def Appends (go : α → α → Bool) (l : List α) : Prop :=
  ∀ xs y zs, l = xs ++ y :: zs → ∀ x ∈ xs.dropLast, go x y = true

variable {go : α → Bool} {F : Forest α}

theorem keepTo_sublist (go : α → Bool) (F : Forest α) :
    (F.keepTo go).toList.Sublist F.toList := by
  induction F with
  | nil => exact .slnil
  | cons a sons siblings _ ih =>
      rw [keepTo, toList_cons, toList_cons]
      refine (List.Sublist.append (List.Sublist.refl _) ?_).cons_cons a
      split
      · exact ih
      · exact List.nil_sublist _

theorem keepTo_eq (h : ∀ x ∈ F.roots.dropLast, go x = true) : F.keepTo go = F := by
  induction F with
  | nil => rfl
  | cons a sons siblings _ ih =>
      rw [keepTo]
      cases siblings with
      | nil =>
          split
          · rfl
          · rfl
      | cons b s r =>
          rw [roots, roots, List.dropLast_cons_cons] at h
          rw [if_pos (h a List.mem_cons_self), ih fun x hx => h x (List.mem_cons_of_mem a hx)]

/-- A walk that stops before the last sibling drops something. -/
theorem go_of_length_le (h : F.toList.length ≤ (F.keepTo go).toList.length) :
    ∀ x ∈ F.roots.dropLast, go x = true := by
  induction F with
  | nil =>
      intro x hx
      cases hx
  | cons a sons siblings _ ih =>
      cases siblings with
      | nil =>
          intro x hx
          cases hx
      | cons b s r =>
          have hcons : ∀ G : Forest α,
              (cons a sons G).toList.length = 1 + sons.toList.length + G.toList.length := by
            intro G
            rw [toList_cons, List.length_cons, List.length_append]
            omega
          rw [keepTo, hcons, hcons] at h
          rw [roots, roots, List.dropLast_cons_cons]
          intro x hx
          split at h
          case isTrue hgo =>
            rcases List.mem_cons.1 hx with rfl | hx
            · exact hgo
            · exact ih (by omega) x hx
          case isFalse =>
            rw [toList_nil, toList_cons b, List.length_nil, List.length_cons] at h
            omega

theorem keepTo_map (f : β → α) (G : Forest β) :
    (G.map f).keepTo go = (G.keepTo fun x => go (f x)).map f := by
  induction G with
  | nil => rfl
  | cons a sons siblings _ ih =>
      rw [map, keepTo, keepTo, map, ih]
      split
      · rfl
      · rfl

theorem keepTo_congr {go' : α → Bool} (h : ∀ x ∈ F.toList, go x = go' x) :
    F.keepTo go = F.keepTo go' := by
  induction F with
  | nil => rfl
  | cons a sons siblings _ ih =>
      rw [keepTo, keepTo, h a (by simp), ih fun x hx => h x (by simp [hx])]

section InsertAll

variable {go : α → α → Bool} {acc F : Forest α}

theorem mem_insertAll {x : α} (h : x ∈ (insertAll go acc F).toList) :
    x ∈ acc.toList ∨ x ∈ F.toList := by
  induction F generalizing acc with
  | nil => exact .inl h
  | cons q sons siblings ihs ih =>
      rw [insertAll] at h
      rcases ih h with h | h
      · rw [toList_append, toList_cons, toList_nil, List.append_nil, List.mem_append,
          List.mem_cons] at h
        rcases h with h | rfl | h
        · exact .inl ((keepTo_sublist _ acc).subset h)
        · exact .inr (by simp)
        · rcases ihs h with h | h
          · cases h
          · exact .inr (by simp [h])
      · exact .inr (by simp [h])

theorem insertAll_eq_append (h : F.Smooth go acc.roots) : insertAll go acc F = acc.append F := by
  induction F generalizing acc with
  | nil => rw [insertAll, append_nil]
  | cons q sons siblings ihs ih =>
      rcases h with ⟨hq, hsons, hsibs⟩
      have hnil : insertAll go nil sons = sons := ihs hsons
      rw [insertAll, keepTo_eq hq, hnil, ih, append_assoc]
      · rfl
      · rw [roots_append]
        exact hsibs

theorem insertAll_nil_eq (h : F.Smooth go []) : insertAll go nil F = F :=
  @insertAll_eq_append α go nil F h

theorem insertAll_length_le (go : α → α → Bool) (acc F : Forest α) :
    (insertAll go acc F).toList.length ≤ acc.toList.length + F.toList.length := by
  induction F generalizing acc with
  | nil => exact Nat.le_refl _
  | cons q sons siblings ihs ih =>
      have hsibs := ih ((acc.keepTo (go · q)).append (cons q (insertAll go nil sons) nil))
      have hsons := ihs nil
      have hkeep := (keepTo_sublist (go · q) acc).length_le
      simp only [toList_append, toList_cons, toList_nil, List.append_nil, List.length_append,
        List.length_cons, List.length_nil] at hsibs hsons ⊢
      rw [insertAll]
      omega

/-- Where nothing is dropped, every insertion was smooth. -/
theorem smooth_of_length_le
    (h : acc.toList.length + F.toList.length ≤ (insertAll go acc F).toList.length) :
    F.Smooth go acc.roots := by
  induction F generalizing acc with
  | nil => trivial
  | cons q sons siblings ihs ih =>
      have hsibs := insertAll_length_le go
        ((acc.keepTo (go · q)).append (cons q (insertAll go nil sons) nil)) siblings
      have hsons := insertAll_length_le go nil sons
      have hkeep := (keepTo_sublist (go · q) acc).length_le
      rw [insertAll] at h
      simp only [toList_append, toList_cons, toList_nil, List.append_nil, List.length_append,
        List.length_cons, List.length_nil] at h hsibs hsons
      have hq : ∀ x ∈ acc.roots.dropLast, go x q = true := go_of_length_le (by omega)
      have hbelow : sons.Smooth go [] := by
        apply @ihs nil
        rw [toList_nil, List.length_nil]
        omega
      refine ⟨hq, hbelow, ?_⟩
      rw [keepTo_eq hq] at h
      have hrest := @ih (acc.append (cons q (insertAll go nil sons) nil)) (by
        simp only [toList_append, toList_cons, toList_nil, List.append_nil, List.length_append,
          List.length_cons]
        omega)
      rwa [roots_append] at hrest

theorem smooth_iff {before : List α} :
    F.Smooth go before ↔
      (∀ xs y zs, F.roots = xs ++ y :: zs → ∀ x ∈ (before ++ xs).dropLast, go x y = true) ∧
        F.All fun _ sons => Appends go sons.roots := by
  induction F generalizing before with
  | nil => simp [Smooth, All, roots]
  | cons q sons siblings ihs ih =>
      rw [Smooth, All, ihs, ih]
      constructor
      · rintro ⟨hq, ⟨hroots, hsons⟩, hsibs, hall⟩
        refine ⟨?_, hroots, hsons, hall⟩
        intro xs y zs hsplit x hx
        cases xs with
        | nil =>
            rw [roots, List.nil_append, List.cons.injEq] at hsplit
            rw [List.append_nil] at hx
            exact hsplit.1 ▸ hq x hx
        | cons c xs =>
            rw [roots, List.cons_append, List.cons.injEq] at hsplit
            refine hsibs xs y zs hsplit.2 x ?_
            rwa [← hsplit.1, List.append_cons] at hx
      · rintro ⟨hroots, hsub, hsons, hall⟩
        refine ⟨?_, ⟨hsub, hsons⟩, ?_, hall⟩
        · intro x hx
          refine hroots [] q siblings.roots rfl x ?_
          rwa [List.append_nil]
        · intro xs y zs hsplit x hx
          refine hroots (q :: xs) y zs (by rw [roots, hsplit]; rfl) x ?_
          rwa [List.append_cons]

theorem smooth_nil_iff : F.Smooth go [] ↔ F.AllSiblings (Appends go) := smooth_iff

end InsertAll

end OSLabs.Lib.Forest
