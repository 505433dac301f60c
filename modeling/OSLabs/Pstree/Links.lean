import OSLabs.Lib.Insertion
import OSLabs.Pstree.Model

/-! # Linked nodes as forests

`Links` says that the sibling list behind a pointer, with everything below it, is a
given forest of cells, with the `Parent` and `depth` fields that belong to it. Writes
outside the forest keep it, and linking a new sibling where a walk stops inserts it.
-/

namespace OSLabs.Pstree

open Lib

variable {h h' : Heap} {par p : Ptr} {d : Int} {F G : Forest Nat} {a q : Nat}

namespace Heap

@[simp] theorem get_some (h : Heap) (a : Nat) : h.get (some a) = .ok (h.node a) := rfl

@[simp] theorem set_some (h : Heap) (a : Nat) (f : PsNode → PsNode) :
    h.set (some a) f = .ok (h.modify a f) := rfl

@[simp] theorem modify_size (h : Heap) (a : Nat) (f : PsNode → PsNode) :
    (h.modify a f).size = h.size := rfl

@[simp] theorem modify_self (h : Heap) (a : Nat) (f : PsNode → PsNode) :
    (h.modify a f).node a = f (h.node a) := by
  simp [modify]

theorem modify_of_ne (h : Heap) {a x : Nat} (f : PsNode → PsNode) (hx : x ≠ a) :
    (h.modify a f).node x = h.node x := by
  simp [modify, hx]

@[simp] theorem push_size (h : Heap) (n : PsNode) : (h.push n).size = h.size + 1 := rfl

@[simp] theorem push_self (h : Heap) (n : PsNode) : (h.push n).node h.size = n := by
  simp [push]

theorem push_of_ne (h : Heap) {x : Nat} (n : PsNode) (hx : x ≠ h.size) :
    (h.push n).node x = h.node x := by
  simp [push, hx]

@[simp] theorem push_modify (h : Heap) (n : PsNode) (f : PsNode → PsNode) :
    (h.push n).modify h.size f = h.push (f n) := by
  simp [push, modify]

end Heap

/-- The sibling list at `p` and all that is below it, as a forest of cells. -/
def Links (h : Heap) : Ptr → Int → Ptr → Forest Nat → Prop
  | _, _, p, .nil => p = none
  | par, d, p, .cons a sons siblings =>
    p = some a ∧ (h.node a).parent = par ∧ (h.node a).depth = d ∧
      Links h (some a) (d + 1) (h.node a).firstSon sons ∧
      Links h par d (h.node a).nextSibling siblings

theorem Links.congr (same : ∀ x ∈ F.toList, h'.node x = h.node x) (hl : Links h par d p F) :
    Links h' par d p F := by
  induction F generalizing par d p with
  | nil => exact hl
  | cons a sons siblings ihs ih =>
      rcases hl with ⟨hp, hpar, hdepth, hsons, hsibs⟩
      have ha : h'.node a = h.node a := same a (by simp)
      refine ⟨hp, by rw [ha]; exact hpar, by rw [ha]; exact hdepth, ?_, ?_⟩
      · rw [ha]
        exact ihs (fun x hx => same x (by simp [hx])) hsons
      · rw [ha]
        exact ih (fun x hx => same x (by simp [hx])) hsibs

theorem Links.unique (hF : Links h par d p F) (hG : Links h par d p G) : F = G := by
  induction F generalizing par d p G with
  | nil =>
      cases G with
      | nil => rfl
      | cons b _ _ => exact absurd (hF.symm.trans hG.1) (by simp)
  | cons a sons siblings ihs ih =>
      cases G with
      | nil => exact absurd (hG.symm.trans hF.1) (by simp)
      | cons b sons' siblings' =>
          rcases hF with ⟨hp, _, _, hsons, hsibs⟩
          rcases hG with ⟨hp', _, _, hsons', hsibs'⟩
          have hab : a = b := Option.some.inj (hp.symm.trans hp')
          subst hab
          rw [ihs hsons hsons', ih hsibs hsibs']

/-! ## A new sibling -/

/-- Link `q` behind the last root that is kept; the roots that followed it are dropped. -/
theorem Links.insert {go : Nat → Bool} (hl : Links h par d p F) (hnodup : F.toList.Nodup)
    {l : Nat} (hlast : (F.keepTo go).roots.getLast? = some l)
    (same : ∀ x ∈ F.toList, x ≠ l → h'.node x = h.node x)
    (link : h'.node l = { h.node l with nextSibling := some q })
    (hG : Links h' par d (some q) G) : Links h' par d p ((F.keepTo go).append G) := by
  induction F generalizing p with
  | nil => simp [Forest.keepTo, Forest.roots] at hlast
  | cons a sons siblings ihs ih =>
      rcases hl with ⟨hp, hpar, hdepth, hsons, hsibs⟩
      simp only [Forest.toList_cons, List.nodup_cons, List.mem_append, not_or] at hnodup
      rcases hnodup with ⟨⟨hasons, hasibs⟩, hnodup⟩
      rcases List.nodup_append.1 hnodup with ⟨hnsons, hnsibs, hapart⟩
      obtain ⟨kept, hkept⟩ : ∃ kept, kept = if go a then siblings.keepTo go else .nil := ⟨_, rfl⟩
      rw [Forest.keepTo, ← hkept] at hlast ⊢
      cases kept with
      | nil =>
          have hla : l = a := (Option.some.inj hlast).symm
          subst hla
          have hsons' : Links h' (some l) (d + 1) (h.node l).firstSon sons :=
            hsons.congr fun x hx => same x (by simp [hx]) (fun hxl => hasons (hxl ▸ hx))
          refine ⟨hp, by rw [link]; exact hpar, by rw [link]; exact hdepth, ?_, ?_⟩
          · rw [link]; exact hsons'
          · rw [link]; exact hG
      | cons b s r =>
          have hgo : go a = true := by
            by_contra hnot
            rw [if_neg hnot] at hkept
            cases hkept
          rw [if_pos hgo] at hkept
          rw [Forest.roots, Forest.roots, List.getLast?_cons_cons] at hlast
          have hlast' : (siblings.keepTo go).roots.getLast? = some l := by
            rw [← hkept]
            exact hlast
          have hl : l ∈ siblings.toList := (siblings.keepTo_sublist go).subset
            ((Forest.roots_sublist _).subset (List.mem_of_getLast? hlast'))
          have hla : a ≠ l := fun hal => hasibs (hal ▸ hl)
          have ha : h'.node a = h.node a := same a (by simp) hla
          refine ⟨hp, by rw [ha]; exact hpar, by rw [ha]; exact hdepth, ?_, ?_⟩
          · rw [ha]
            exact hsons.congr fun x hx =>
              same x (by simp [hx]) (fun hxl => hapart x hx l hl hxl)
          · rw [ha]
            rw [hkept]
            exact ih hsibs hnsibs hlast' fun x hx hxl => same x (by simp [hx]) hxl

/-- Give the only new root `q` at the end of the list the forest below it. -/
theorem Links.fill (hl : Links h par d p (F.append (.cons q .nil .nil)))
    (hq : q ∉ F.toList) (same : ∀ x ∈ F.toList, h'.node x = h.node x)
    (node : h'.node q = { h.node q with firstSon := (h'.node q).firstSon })
    (hG : Links h' (some q) ((h.node q).depth + 1) (h'.node q).firstSon G) :
    Links h' par d p (F.append (.cons q G .nil)) := by
  induction F generalizing p with
  | nil =>
      rcases hl with ⟨hp, hpar, hdepth, _, hnext⟩
      rw [hdepth] at hG
      exact ⟨hp, by rw [node]; exact hpar, by rw [node]; exact hdepth, hG,
        by rw [node]; exact hnext⟩
  | cons a sons siblings ihs ih =>
      rcases hl with ⟨hp, hpar, hdepth, hsons, hsibs⟩
      simp only [Forest.toList_cons, List.mem_cons, List.mem_append, not_or] at hq
      have ha : h'.node a = h.node a := same a (by simp)
      refine ⟨hp, by rw [ha]; exact hpar, by rw [ha]; exact hdepth, ?_, ?_⟩
      · rw [ha]
        exact hsons.congr fun x hx => same x (by simp [hx])
      · rw [ha]
        exact ih hsibs hq.2.2 fun x hx => same x (by simp [hx])

theorem walk_spec (go : PsNode → Bool) {t : Nat} (hl : Links h par d (some t) F) {fuel : Nat}
    (hfuel : F.roots.length ≤ fuel) :
    ∃ l, (F.keepTo fun x => go (h.node x)).roots.getLast? = some l ∧
      walk go h fuel t = .ok l := by
  induction F generalizing t fuel with
  | nil => exact absurd hl (by simp [Links])
  | cons a sons siblings ihs ih =>
      rcases hl with ⟨hp, _, _, _, hsibs⟩
      have hta : t = a := Option.some.inj hp
      subst hta
      cases fuel with
      | zero => simp [Forest.roots] at hfuel
      | succ fuel =>
          rw [Forest.keepTo]
          by_cases hgo : go (h.node t) = true
          · rw [if_pos hgo]
            cases siblings with
            | nil =>
                have hnext : (h.node t).nextSibling = none := hsibs
                exact ⟨t, rfl, by simp [walk, hnext]⟩
            | cons b s r =>
                have hnext : (h.node t).nextSibling = some b := hsibs.1
                rw [hnext] at hsibs
                rcases ih hsibs (Nat.le_of_succ_le_succ hfuel) with ⟨l, hlast, hwalk⟩
                refine ⟨l, ?_, ?_⟩
                · rw [Forest.keepTo, Forest.roots] at hlast
                  rw [Forest.keepTo, Forest.roots, Forest.roots, List.getLast?_cons_cons]
                  exact hlast
                · rw [walk, hnext, hgo]
                  exact hwalk
          · rw [if_neg hgo]
            have hstop : go (h.node t) = false := eq_false_of_ne_true hgo
            exact ⟨t, rfl, by rw [walk, hstop]⟩

end OSLabs.Pstree
