import Mathlib.Data.List.Nodup
import Mathlib.Data.List.Perm.Subperm
import Mathlib.Logic.Relation

/-! # Forests and unfoldings

A forest is kept as first son and next sibling. `unfold` grows the forest below a
node of a graph given by lists of children; it succeeds, with enough fuel, exactly
where no cycle is reachable, and shows every reachable node, once if no node has two
parents.
-/

namespace OSLabs.Lib

variable {α β : Type}

inductive Forest (α : Type) where
  | nil
  | cons (a : α) (sons siblings : Forest α)
  deriving DecidableEq, Repr

namespace Forest

def toList : Forest α → List α
  | nil => []
  | cons a sons siblings => a :: (sons.toList ++ siblings.toList)

def map (f : α → β) : Forest α → Forest β
  | nil => nil
  | cons a sons siblings => cons (f a) (sons.map f) (siblings.map f)

def append : Forest α → Forest α → Forest α
  | nil, G => G
  | cons a sons siblings, G => cons a sons (siblings.append G)

def roots : Forest α → List α
  | nil => []
  | cons a _ siblings => a :: siblings.roots

@[simp] theorem toList_nil : (nil : Forest α).toList = [] := rfl

@[simp] theorem toList_cons (a : α) (sons siblings : Forest α) :
    (cons a sons siblings).toList = a :: (sons.toList ++ siblings.toList) := rfl

@[simp] theorem append_nil (F : Forest α) : F.append nil = F := by
  induction F with
  | nil => rfl
  | cons a sons siblings _ ih => simp [append, ih]

theorem append_assoc (F G H : Forest α) : (F.append G).append H = F.append (G.append H) := by
  induction F with
  | nil => rfl
  | cons a sons siblings _ ih => simp [append, ih]

@[simp] theorem toList_append (F G : Forest α) :
    (F.append G).toList = F.toList ++ G.toList := by
  induction F with
  | nil => rfl
  | cons a sons siblings _ ih => simp [append, ih]

@[simp] theorem roots_append (F G : Forest α) :
    (F.append G).roots = F.roots ++ G.roots := by
  induction F with
  | nil => rfl
  | cons a sons siblings _ ih => simp [append, roots, ih]

@[simp] theorem map_append (f : α → β) (F G : Forest α) :
    (F.append G).map f = (F.map f).append (G.map f) := by
  induction F with
  | nil => rfl
  | cons a sons siblings _ ih => simp [append, map, ih]

@[simp] theorem toList_map (f : α → β) (F : Forest α) :
    (F.map f).toList = F.toList.map f := by
  induction F with
  | nil => rfl
  | cons a sons siblings ihs ih => simp [map, ihs, ih]

@[simp] theorem roots_map (f : α → β) (F : Forest α) :
    (F.map f).roots = F.roots.map f := by
  induction F with
  | nil => rfl
  | cons a sons siblings _ ih => simp [map, roots, ih]

theorem map_congr {f g : α → β} {F : Forest α} (h : ∀ a ∈ F.toList, f a = g a) :
    F.map f = F.map g := by
  induction F with
  | nil => rfl
  | cons a sons siblings ihs ih =>
      simp only [map]
      rw [h a (by simp), ihs fun b hb => h b (by simp [hb]), ih fun b hb => h b (by simp [hb])]

theorem map_map {γ : Type} (f : β → γ) (g : α → β) (F : Forest α) :
    (F.map g).map f = F.map fun a => f (g a) := by
  induction F with
  | nil => rfl
  | cons a sons siblings ihs ih => simp only [map, ihs, ih]

theorem roots_sublist (F : Forest α) : F.roots.Sublist F.toList := by
  induction F with
  | nil => exact .slnil
  | cons a sons siblings _ ih =>
      exact (ih.trans (List.sublist_append_right _ _)).cons_cons a

/-! ## Unfolding a graph -/

/-- A tree for each of the given nodes, with the forest below it from `sub`. -/
def graft (sub : α → Option (Forest α)) : List α → Option (Forest α)
  | [] => some nil
  | c :: cs =>
    match sub c, graft sub cs with
    | some sons, some siblings => some (cons c sons siblings)
    | _, _ => none

/-- The forest of all nodes below `a`, as long as no path is longer than the fuel. -/
def unfold (children : α → List α) : Nat → α → Option (Forest α)
  | 0, _ => none
  | n + 1, a => graft (unfold children n) (children a)

def Child (children : α → List α) (p c : α) : Prop := c ∈ children p

variable {sub : α → Option (Forest α)} {children : α → List α} {n : Nat} {a x : α}
  {F : Forest α}

theorem graft_cons {c : α} {cs : List α} :
    graft sub (c :: cs) = some F ↔ ∃ sons siblings, sub c = some sons ∧
      graft sub cs = some siblings ∧ F = cons c sons siblings := by
  rw [graft]
  cases hc : sub c with
  | none => simp
  | some sons =>
      cases hcs : graft sub cs with
      | none => simp
      | some siblings => simp [eq_comm]

theorem graft_isSome {cs : List α} (h : ∀ c ∈ cs, (sub c).isSome) : (graft sub cs).isSome := by
  induction cs with
  | nil => rfl
  | cons c cs ih =>
      rcases Option.isSome_iff_exists.1 (h c (by simp)) with ⟨sons, hsons⟩
      rcases Option.isSome_iff_exists.1 (ih fun d hd => h d (by simp [hd])) with ⟨sibs, hsibs⟩
      exact Option.isSome_iff_exists.2 ⟨_, graft_cons.2 ⟨sons, sibs, hsons, hsibs, rfl⟩⟩

theorem graft_roots {cs : List α} (h : graft sub cs = some F) : F.roots = cs := by
  induction cs generalizing F with
  | nil => cases h; rfl
  | cons c cs ih =>
      rcases graft_cons.1 h with ⟨sons, siblings, _, hsibs, rfl⟩
      rw [roots, ih hsibs]

/-- The nodes of the trees for `cs` are these nodes and those below them. -/
theorem mem_graft {cs : List α} (h : graft sub cs = some F) :
    x ∈ F.toList ↔ ∃ c ∈ cs, x = c ∨ ∃ sons, sub c = some sons ∧ x ∈ sons.toList := by
  induction cs generalizing F with
  | nil => cases h; simp
  | cons c cs ih =>
      rcases graft_cons.1 h with ⟨sons, siblings, hsons, hsibs, rfl⟩
      simp only [toList_cons, List.mem_cons, List.mem_append, ih hsibs, exists_eq_or_imp, hsons,
        Option.some.injEq, exists_eq_left', or_assoc]

theorem sub_isSome {cs : List α} (h : graft sub cs = some F) {c : α} (hc : c ∈ cs) :
    (sub c).isSome := by
  induction cs generalizing F with
  | nil => simp at hc
  | cons d cs ih =>
      rcases graft_cons.1 h with ⟨sons, siblings, hsons, hsibs, _⟩
      rcases List.mem_cons.1 hc with rfl | hc
      · simp [hsons]
      · exact ih hsibs hc

theorem unfold_roots (h : unfold children n a = some F) : F.roots = children a := by
  cases n with
  | zero => simp [unfold] at h
  | succ n => exact graft_roots h

/-- The unfolding below `a` shows the nodes reachable from `a`. -/
theorem mem_unfold (h : unfold children n a = some F) :
    x ∈ F.toList ↔ Relation.TransGen (Child children) a x := by
  induction n generalizing a F with
  | zero => simp [unfold] at h
  | succ n ih =>
      rw [unfold] at h
      rw [mem_graft h, Relation.TransGen.head'_iff]
      apply exists_congr
      intro c
      apply and_congr_right
      intro hc
      rcases Option.isSome_iff_exists.1 (sub_isSome h hc) with ⟨sons, hsons⟩
      simp only [hsons, Option.some.injEq, exists_eq_left', ih hsons]
      rw [Relation.reflTransGen_iff_eq_or_transGen]

theorem graft_congr {sub' : α → Option (Forest α)} {cs : List α}
    (h : ∀ c ∈ cs, sub c = sub' c) : graft sub cs = graft sub' cs := by
  induction cs with
  | nil => rfl
  | cons c cs ih =>
      rw [graft, graft, h c List.mem_cons_self, ih fun d hd => h d (List.mem_cons_of_mem c hd)]

theorem graft_append {G : Forest α} {cs ds : List α} (hF : graft sub cs = some F)
    (hG : graft sub ds = some G) : graft sub (cs ++ ds) = some (F.append G) := by
  induction cs generalizing F with
  | nil =>
      cases hF
      exact hG
  | cons b cs ih =>
      rcases graft_cons.1 hF with ⟨sons, siblings, hsons, hsibs, rfl⟩
      exact graft_cons.2 ⟨sons, siblings.append G, hsons, ih hsibs, rfl⟩

/-- The unfolding depends on the children of the nodes that it reaches. -/
theorem unfold_congr {children' : α → List α}
    (h : ∀ p, Relation.ReflTransGen (Child children) a p → children p = children' p) :
    unfold children n a = unfold children' n a := by
  induction n generalizing a with
  | zero => rfl
  | succ n ih =>
      rw [unfold, unfold, ← h a .refl]
      exact graft_congr fun c hc => ih fun p hp => h p (.head hc hp)

theorem graft_mono {sub' : α → Option (Forest α)} {cs : List α}
    (h : ∀ c G, sub c = some G → sub' c = some G) (hF : graft sub cs = some F) :
    graft sub' cs = some F := by
  induction cs generalizing F with
  | nil => exact hF
  | cons c cs ih =>
      rcases graft_cons.1 hF with ⟨sons, siblings, hsons, hsibs, rfl⟩
      exact graft_cons.2 ⟨sons, siblings, h c sons hsons, ih hsibs, rfl⟩

theorem unfold_mono {m : Nat} (h : unfold children n a = some F) (hm : n ≤ m) :
    unfold children m a = some F := by
  induction n generalizing a F m with
  | zero => cases h
  | succ n ih =>
      cases m with
      | zero => omega
      | succ m => exact graft_mono (fun c G hG => ih hG (Nat.le_of_succ_le_succ hm)) h

theorem unfold_isSome_of_child (h : (unfold children (n + 1) a).isSome) {c : α}
    (hc : c ∈ children a) : (unfold children n c).isSome := by
  rcases Option.isSome_iff_exists.1 h with ⟨F, hF⟩
  exact sub_isSome hF hc

/-- Every step of a path takes one unit of fuel. -/
theorem unfold_isSome_of_reach (h : (unfold children n a).isSome)
    (reach : Relation.TransGen (Child children) a x) :
    ∃ m < n, (unfold children m x).isSome := by
  induction reach with
  | single hc =>
      cases n with
      | zero => simp [unfold] at h
      | succ n => exact ⟨n, Nat.lt_succ_self n, unfold_isSome_of_child h hc⟩
  | tail _ hc ih =>
      rcases ih with ⟨m, hm, hb⟩
      cases m with
      | zero => simp [unfold] at hb
      | succ m => exact ⟨m, by omega, unfold_isSome_of_child hb hc⟩

/-- A node that can be unfolded lies on no cycle. -/
theorem unfold_acyclic (h : (unfold children n a).isSome) :
    ¬ Relation.TransGen (Child children) a a := by
  induction n using Nat.strongRecOn with
  | ind n ih =>
      intro cycle
      rcases unfold_isSome_of_reach h cycle with ⟨m, hm, hsome⟩
      exact ih m hm hsome cycle

/-! ## Graphs without shared children -/

section UniqueParents

variable (unique : ∀ {p q c : α}, c ∈ children p → c ∈ children q → p = q)

include unique

/-- Two nodes above a common one lie on one path. -/
theorem comparable {b : α} (ha : Relation.ReflTransGen (Child children) a x)
    (hb : Relation.ReflTransGen (Child children) b x) :
    Relation.ReflTransGen (Child children) a b ∨ Relation.ReflTransGen (Child children) b a := by
  have right : Relator.RightUnique (Function.swap (Child children)) :=
    fun _ _ _ hp hq => unique hp hq
  rcases Relation.ReflTransGen.total_of_right_unique right
    (Relation.reflTransGen_swap.2 ha) (Relation.reflTransGen_swap.2 hb) with h | h
  · exact .inr (Relation.reflTransGen_swap.1 h)
  · exact .inl (Relation.reflTransGen_swap.1 h)

/-- What lies properly below a child of `a` but is a child of `a` lies below `a` twice. -/
theorem reach_of_siblings {c d : α} (hc : c ∈ children a) (hd : d ∈ children a) (hne : c ≠ d)
    (reach : Relation.ReflTransGen (Child children) c d) :
    Relation.TransGen (Child children) a a := by
  rcases Relation.reflTransGen_iff_eq_or_transGen.1 reach with h | h
  · exact (hne h.symm).elim
  · rcases Relation.TransGen.tail'_iff.1 h with ⟨p, hcp, hpd⟩
    have hp : p = a := unique hpd hd
    exact Relation.TransGen.head' hc (hp ▸ hcp)

theorem graft_nodup (acyclic : ¬ Relation.TransGen (Child children) a a)
    (hnodup : ∀ {c F}, c ∈ children a → unfold children n c = some F → F.toList.Nodup)
    {cs : List α} (hcs : cs.Nodup) (hsub : ∀ c ∈ cs, c ∈ children a)
    (h : graft (unfold children n) cs = some F) : F.toList.Nodup := by
  induction cs generalizing F with
  | nil => cases h; exact .nil
  | cons c cs ih =>
      rcases graft_cons.1 h with ⟨sons, siblings, hsons, hsibs, rfl⟩
      have hc : c ∈ children a := hsub c (by simp)
      rcases List.nodup_cons.1 hcs with ⟨hnot, hcs⟩
      -- whatever the later trees show lies below a later child
      have hlater : ∀ {x}, x ∈ siblings.toList → ∃ d ∈ cs,
          Relation.ReflTransGen (Child children) d x := by
        intro x hx
        rcases (mem_graft hsibs).1 hx with ⟨d, hd, rfl | ⟨G, hG, hx⟩⟩
        · exact ⟨_, hd, .refl⟩
        · exact ⟨d, hd, ((mem_unfold hG).1 hx).to_reflTransGen⟩
      have hapart : ∀ {x}, Relation.ReflTransGen (Child children) c x → x ∉ siblings.toList := by
        intro x hcx hx
        rcases hlater hx with ⟨d, hd, hdx⟩
        have hda : d ∈ children a := hsub d (by simp [hd])
        have hne : c ≠ d := fun heq => hnot (heq ▸ hd)
        rcases comparable unique hcx hdx with hcd | hdc
        · exact acyclic (reach_of_siblings unique hc hda hne hcd)
        · exact acyclic (reach_of_siblings unique hda hc hne.symm hdc)
      have hself : c ∉ sons.toList := by
        intro hmem
        exact unfold_acyclic (by rw [hsons]; rfl) ((mem_unfold hsons).1 hmem)
      simp only [toList_cons, List.nodup_cons, List.mem_append, List.nodup_append, not_or]
      refine ⟨⟨hself, hapart .refl⟩, hnodup hc hsons,
        ih hcs (fun d hd => hsub d (by simp [hd])) hsibs, ?_⟩
      intro x hx y hy hxy
      subst hxy
      exact hapart ((mem_unfold hsons).1 hx).to_reflTransGen hy

/-- Without shared children, the unfolding shows every node once. -/
theorem unfold_nodup
    (distinct : ∀ p, Relation.ReflTransGen (Child children) a p → (children p).Nodup)
    (h : unfold children n a = some F) : F.toList.Nodup := by
  induction n generalizing a F with
  | zero => simp [unfold] at h
  | succ n ih =>
      have acyclic := unfold_acyclic (show (unfold children (n + 1) a).isSome by rw [h]; rfl)
      refine graft_nodup unique acyclic ?_ (distinct a .refl) (fun c hc => hc) h
      intro c G hc hG
      exact ih (fun p hp => distinct p (hp.head hc)) hG

/-- Where the root is not below itself, no node that it reaches is. -/
theorem acyclic_of_root (hroot : ¬ Relation.TransGen (Child children) a a)
    (hx : Relation.ReflTransGen (Child children) a x) :
    ¬ Relation.TransGen (Child children) x x := by
  induction hx with
  | refl => exact hroot
  | @tail p x _ hpx ih =>
      intro cycle
      rcases Relation.TransGen.tail'_iff.1 cycle with ⟨q, hxq, hqx⟩
      rw [unique hqx hpx] at hxq
      exact ih (Relation.TransGen.head' hpx hxq)

end UniqueParents

/-! ## Fuel -/

/-- In a finite graph, paths without cycles are short: the fuel suffices. `above` are
the nodes of the list `s` on the path that has led to `x`. -/
theorem unfold_isSome_of_path {s : List α}
    (closed : ∀ p, ∀ c ∈ children p, c ∈ s)
    (acyclic : ∀ y, Relation.ReflTransGen (Child children) a y →
      ¬ Relation.TransGen (Child children) y y)
    {above : List α} (hnodup : above.Nodup) (hsub : ∀ v ∈ above, v ∈ s)
    (hpath : ∀ v ∈ above, Relation.ReflTransGen (Child children) v x)
    (hax : Relation.ReflTransGen (Child children) a x)
    (hfuel : s.length < n + above.length) : (unfold children n x).isSome := by
  induction n generalizing x above with
  | zero =>
      have hle := (List.subperm_of_subset hnodup hsub).length_le
      omega
  | succ n ih =>
      apply graft_isSome
      intro c hc
      have hac : Relation.ReflTransGen (Child children) a c := hax.tail hc
      have hnew : c ∉ above := fun hmem =>
        acyclic c hac (Relation.TransGen.tail' (hpath c hmem) hc)
      have hnodup' : (c :: above).Nodup := List.nodup_cons.2 ⟨hnew, hnodup⟩
      refine ih hnodup' ?_ ?_ hac ?_
      · intro v hv
        rcases List.mem_cons.1 hv with rfl | hv
        · exact closed x v hc
        · exact hsub v hv
      · intro v hv
        rcases List.mem_cons.1 hv with rfl | hv
        · exact .refl
        · exact (hpath v hv).tail hc
      · simp only [List.length_cons]
        omega

theorem unfold_isSome {s : List α} (closed : ∀ p, ∀ c ∈ children p, c ∈ s)
    (acyclic : ∀ y, Relation.ReflTransGen (Child children) a y →
      ¬ Relation.TransGen (Child children) y y)
    (hn : s.length < n) : (unfold children n a).isSome :=
  unfold_isSome_of_path closed acyclic List.nodup_nil (by simp) (by simp) .refl (by simpa)

/-- Where every node of a kind has a child of that kind, no fuel is enough. -/
theorem unfold_eq_none (kind : α → Prop) (next : ∀ x, kind x → ∃ c ∈ children x, kind c)
    (hx : kind x) : unfold children n x = none := by
  induction n generalizing x with
  | zero => rfl
  | succ n ih =>
      rcases next x hx with ⟨c, hc, hkind⟩
      cases hF : unfold children (n + 1) x with
      | none => rfl
      | some F =>
          have hsome := unfold_isSome_of_child (by rw [hF]; rfl) hc
          rw [ih hkind] at hsome
          contradiction

end Forest

end OSLabs.Lib
