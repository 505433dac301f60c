import OSLabs.Vme.Words

/-! # The tables of the address spaces

`Rooted` says what the tables below the `ptr` cells look like: they form trees without
common tables, on paths of addresses that were walked, and every entry above the last
level is empty or a pointer with the flags that `ptwalk` gives. `Grown` is all that
`ptwalk` may do to them, and its specification follows the levels one by one.
-/

namespace OSLabs.Vme

open OSLabs.Lib
open OSLabs.Lib.Heap

variable {c : Arch}

/-! ## Memory accesses as operations on the heap -/

section Memory

variable {σ σ' : State} {b : Base} {t : Nat → Nat} {i w q : Nat}

theorem load_eq (ht : σ.heap b = some t) (i : Nat) : load σ b i = .ok (t i) := by
  simp [load, ht]

/-- Where the entry exists, `store` writes it and nothing else. -/
theorem store_spec (ht : σ.heap b = some t) (hi : ∀ as, b = .space as → i = 0) (w : Nat) :
    ∃ σ', store σ b i w = .ok σ' ∧ σ'.heap = put σ.heap b i w ∧ σ'.kpt = σ.kpt ∧
      σ'.calls = σ.calls ∧ ∀ as, b ≠ .space as → σ'.spaces as = σ.spaces as := by
  cases b with
  | space as =>
      cases ha : σ.spaces as with
      | none => simp [State.heap, ha] at ht
      | some a =>
          refine ⟨{ σ with
            spaces := Function.update σ.spaces as (some { a with ptr := w }) },
            by simp [store, ha, hi as rfl], ?_, rfl, rfl, ?_⟩
          · funext b
            cases b with
            | space as' =>
                by_cases has : as' = as
                · simp only [put, has, State.heap, Function.update_self, ha, if_pos, Option.map_some]
                  congr 1
                  funext j
                  by_cases hj : j = 0
                  · simp [hj, hi as rfl]
                  · simp [hj, hi as rfl]
                · simp [put, has, State.heap]
            | page p => simp [put, State.heap]
          · intro as' hne
            have has : as' ≠ as := fun h => hne (congrArg Base.space h.symm)
            exact Function.update_of_ne has ..
  | page p =>
      have hp : σ.pages p = some t := ht
      refine ⟨{ σ with
        pages := Function.update σ.pages p (some (Function.update t i w)) },
        by simp [store, hp], ?_, rfl, rfl, fun _ _ => rfl⟩
      funext b
      cases b with
      | space as => simp [put, State.heap]
      | page p' =>
          by_cases hpp : p' = p
          · simp [put, hpp, State.heap, hp]
          · simp [put, hpp, State.heap]

/-- `pgallocz` fails for want of memory only; else it adds an empty page. -/
theorem pgallocz_spec (pgalloc : Pgalloc c) (σ : State) :
    (∃ text, pgallocz c pgalloc σ = .error (.panic text)) ∨
      ∃ q σ', pgallocz c pgalloc σ = .ok (q, σ') ∧ IsPage c q ∧ σ.pages q = none ∧
        σ'.heap = add σ.heap (.page q) (fun _ => 0) ∧ σ'.kpt = σ.kpt ∧
        σ'.calls = σ.calls ++ [.pgalloc q] ∧ σ'.spaces = σ.spaces := by
  cases hq : pgalloc.answer σ.calls σ.pages with
  | none => exact Or.inl ⟨"cannot allocate page", by simp [pgallocz, hq]⟩
  | some q =>
      rcases pgalloc.fresh hq with ⟨hpage, hfresh⟩
      refine Or.inr ⟨q, { σ with
        pages := Function.update σ.pages q (some fun _ => 0)
        calls := σ.calls ++ [.pgalloc q] },
        by simp [pgallocz, hq], hpage, hfresh, ?_, rfl, rfl, rfl⟩
      funext b
      cases b with
      | space as => simp [add, State.heap]
      | page p =>
          by_cases hp : p = q
          · simp [add, hp, State.heap]
          · simp [add, hp, State.heap]

end Memory

/-! ## Rooted tables -/

/-- A use of page tables: the flags by which an entry points to a table, the flags handed
to `ptwalk`, the level-1 indices that belong to others, and the addresses walked. -/
structure Use (c : Arch) where
  mask : Nat
  flags : Nat
  shared : Nat → Prop
  allowed : Nat → Prop
  mask_lt : mask < 4096
  mask_p : mask &&& pteP = pteP
  flags_lt : pteP ||| flags < 4096
  flags_mask : (pteP ||| flags) &&& mask = mask
  root_mask : (pteP ||| pteU) &&& mask = mask
  unshared : ∀ {va}, allowed va → ¬shared (topIndex c va)

def next (u : Use c) (e : Nat) : Option Base :=
  if e &&& u.mask = u.mask then some (.page (baseof c e)) else none

variable {u : Use c} {q f e : Nat}

theorem Use.mask_pos (u : Use c) : u.mask ≠ 0 := by
  intro h
  have := u.mask_p
  rw [h] at this
  cases this

@[simp] theorem next_zero : next u 0 = none := by
  simp [next, u.mask_pos.symm]

theorem next_page (hq : IsPage c q) (hf : f < 4096) (hm : f &&& u.mask = u.mask) :
    next u (q ||| f) = some (.page q) := by
  rw [next, hq.and_flags u.mask_lt, if_pos hm, baseof_page hq hf]

theorem next_of_not_present (he : e &&& pteP = 0) : next u e = none := by
  rw [next, if_neg]
  intro hm
  have hp := u.mask_p
  rw [← hm, Nat.and_assoc, Nat.and_comm u.mask, ← Nat.and_assoc, he, Nat.zero_and] at hp
  cases hp

/-- Below the root a path ends in a page. -/
theorem descend_space {h : Heap Base Nat Nat} {a : Base} {π : List Nat} {as : Nat}
    (hb : descend (next u) h a π = some (.space as)) : π = [] ∧ a = .space as := by
  rcases List.eq_nil_or_concat π with hnil | ⟨ρ, j, hcat⟩
  · rw [hnil] at hb
    exact ⟨hnil, Option.some.inj hb⟩
  · rw [hcat, List.concat_eq_append, descend_snoc] at hb
    rcases Option.bind_eq_some_iff.1 hb with ⟨d, _, hd⟩
    rcases Option.bind_eq_some_iff.1 hd with ⟨s, _, hs⟩
    rw [next] at hs
    split at hs
    · simp at hs
    · cases hs

inductive Points (u : Use c) (π : List Nat) (e q : Nat) : Prop where
  | walked (page : IsPage c q) (eq : e = q ||| (pteP ||| u.flags))
  | root (page : IsPage c q) (at_root : π = []) (eq : e = q ||| (pteP ||| pteU))

theorem Points.next {π : List Nat} (h : Points u π e q) : next u e = some (.page q) := by
  cases h with
  | walked hq he =>
      rw [he]
      exact next_page hq u.flags_lt u.flags_mask
  | root hq _ he =>
      rw [he]
      exact next_page hq (by decide) u.root_mask

theorem Points.present {π : List Nat} (h : Points u π e q) : e &&& pteP ≠ 0 := by
  intro hp
  have := h.next
  rw [next_of_not_present hp] at this
  cases this

theorem Points.baseof {π : List Nat} (h : Points u π e q) : baseof c e = q := by
  cases h with
  | walked hq he => rw [he, baseof_page hq u.flags_lt]
  | root hq _ he => rw [he, baseof_page hq (by decide)]

theorem Points.frame {π : List Nat} (h : Points u π e q) :
    frame c e = q := by
  cases h with
  | walked hq he => rw [he, frame_or u.flags_lt, frame_page hq.2.1 hq.2.2]
  | root hq _ he => rw [he, frame_or (by decide), frame_page hq.2.1 hq.2.2]

/-- The roots: the `ptr` cells of the live address spaces. -/
def Roots (live : Nat → Prop) (b : Base) : Prop := ∃ as, live as ∧ b = .space as

theorem Roots.intro {live : Nat → Prop} {as : Nat} (h : live as) : Roots live (.space as) :=
  ⟨as, h, rfl⟩

/-- The tables of one address space: the entries above the last level, and the paths. -/
structure Shaped (u : Use c) (h : Heap Base Nat Nat) (as : Nat) : Prop where
  inner : ∀ {π b t i}, π.length < (mmu c).ptlevels →
    descend (next u) h (.space as) π = some b → h b = some t →
    (π.length = 1 → ¬u.shared i) → t i = 0 ∨ ∃ q, Points u π (t i) q
  walked : ∀ {π b}, π.length ≤ (mmu c).ptlevels →
    descend (next u) h (.space as) π = some b →
    ∃ va, u.allowed va ∧ π = (indices c va).take π.length

structure Rooted (u : Use c) (live : Nat → Prop) (h : Heap Base Nat Nat) : Prop where
  ranked : Ranked (next u) (Roots live) (mmu c).ptlevels h
  shaped : ∀ {as}, live as → Shaped u h as

def SameTables (u : Use c) (h h' : Heap Base Nat Nat) (as : Nat) : Prop :=
  ∀ {π b}, π.length ≤ (mmu c).ptlevels → descend (next u) h (.space as) π = some b → h' b = h b

theorem SameTables.descend {h h' : Heap Base Nat Nat} {as : Nat} (same : SameTables u h h' as)
    {π : List Nat} (hlen : π.length ≤ (mmu c).ptlevels) :
    descend (next u) h' (.space as) π = descend (next u) h (.space as) π :=
  descend_congr fun _ _ hρ hb => same (by omega) hb

theorem SameTables.lookup {h h' : Heap Base Nat Nat} {as : Nat} (same : SameTables u h h' as)
    {π : List Nat} (hlen : π.length ≤ (mmu c).ptlevels) (i : Nat) :
    lookup (next u) h' (.space as) π i = lookup (next u) h (.space as) π i := by
  rw [Heap.lookup, Heap.lookup, same.descend hlen]
  cases hb : Heap.descend (next u) h (.space as) π with
  | none => rfl
  | some b => simp [same hlen hb]

theorem SameTables.shaped {h h' : Heap Base Nat Nat} {as : Nat} (same : SameTables u h h' as)
    (hs : Shaped u h as) : Shaped u h' as where
  inner := by
    intro π b t i hlen hb ht
    rw [same.descend (Nat.le_of_lt hlen)] at hb
    exact hs.inner hlen hb ((same (Nat.le_of_lt hlen) hb).symm.trans ht)
  walked := by
    intro π b hlen hb
    rw [same.descend hlen] at hb
    exact hs.walked hlen hb

theorem Rooted.put_leaf {live : Nat → Prop} {h : Heap Base Nat Nat} {as i w : Nat}
    {π : List Nat} {b : Base} (hh : Rooted u live h) (hlive : live as)
    (hlen : π.length = (mmu c).ptlevels) (hb : descend (next u) h (.space as) π = some b) :
    Rooted u live (put h b i w) where
  ranked := hh.ranked.put_leaf (Roots.intro hlive) hlen hb
  shaped := by
    intro as' hlive'
    have hdesc {ρ : List Nat} (hρ : ρ.length ≤ (mmu c).ptlevels) :=
      descend_put_leaf (i := i) (w := w) hh.ranked (Roots.intro hlive) hlen hb
        (Roots.intro hlive') hρ
    constructor
    · intro ρ a t j hρ ha ht
      rw [hdesc (Nat.le_of_lt hρ)] at ha
      rw [put_leaf_agree hh.ranked (Roots.intro hlive) hlen hb (Roots.intro hlive') hρ ha] at ht
      exact (hh.shaped hlive').inner hρ ha ht
    · intro ρ a hρ ha
      rw [hdesc hρ] at ha
      exact (hh.shaped hlive').walked hρ ha

def Above (u : Use c) (h : Heap Base Nat Nat) (as : Nat) (b : Base) : Prop :=
  ∃ π, π.length < (mmu c).ptlevels ∧ descend (next u) h (.space as) π = some b

/-- From `σ` to `σ'` the address space `as` grew by the pages `ps`, in this order, and
nothing else happened. -/
structure Grown (u : Use c) (live : Nat → Prop) (as : Nat) (σ σ' : State) (ps : List Nat) :
    Prop where
  rooted : Rooted u live σ'.heap
  kpt : σ'.kpt = σ.kpt
  calls : σ'.calls = σ.calls ++ ps.map .pgalloc
  spaces : ∀ as', as' ≠ as → σ'.spaces as' = σ.spaces as'
  keep : ∀ {b t}, σ.heap b = some t → ∃ t', σ'.heap b = some t'
  old : ∀ {as' π b}, live as' → π.length ≤ (mmu c).ptlevels →
    descend (next u) σ.heap (.space as') π = some b →
    descend (next u) σ'.heap (.space as') π = some b
  new : ∀ {as' π b}, live as' → π.length ≤ (mmu c).ptlevels →
    descend (next u) σ'.heap (.space as') π = some b →
    descend (next u) σ.heap (.space as') π = some b ∨ as' = as ∧ ∃ p ∈ ps, b = .page p
  obtained : ∀ p ∈ ps, σ.pages p = none ∧ ∃ π, π ≠ [] ∧ π.length ≤ (mmu c).ptlevels ∧
    descend (next u) σ'.heap (.space as) π = some (.page p)
  nodup : ps.Nodup
  leaves : ∀ {as' π}, live as' → π.length = (mmu c).ptlevels → ∀ j,
    (lookup (next u) σ'.heap (.space as') π j).getD 0 =
      (lookup (next u) σ.heap (.space as') π j).getD 0
  shared : ∀ {as' π b t i}, live as' → π.length = 1 → π.length < (mmu c).ptlevels →
    descend (next u) σ.heap (.space as') π = some b → σ.heap b = some t → u.shared i →
    ∃ t', σ'.heap b = some t' ∧ t' i = t i
  frame : ∀ {b t}, σ.heap b = some t → ¬Above u σ.heap as b → σ'.heap b = some t

variable {live : Nat → Prop} {as : Nat} {σ σ' σ'' : State} {ps qs : List Nat}

theorem Grown.refl (hσ : Rooted u live σ.heap) : Grown u live as σ σ [] where
  rooted := hσ
  kpt := rfl
  calls := by simp
  spaces _ _ := rfl
  keep ht := ⟨_, ht⟩
  old _ _ hb := hb
  new _ _ hb := Or.inl hb
  obtained _ hp := absurd hp List.not_mem_nil
  nodup := List.nodup_nil
  leaves _ _ _ := rfl
  shared _ _ _ _ ht _ := ⟨_, ht, rfl⟩
  frame ht _ := ht

theorem Grown.trans (hlive : live as) (h₁ : Grown u live as σ σ' ps)
    (h₂ : Grown u live as σ' σ'' qs) : Grown u live as σ σ'' (ps ++ qs) where
  rooted := h₂.rooted
  kpt := h₂.kpt.trans h₁.kpt
  calls := by rw [h₂.calls, h₁.calls, List.map_append, List.append_assoc]
  spaces as' hne := (h₂.spaces as' hne).trans (h₁.spaces as' hne)
  keep ht := by
    rcases h₁.keep ht with ⟨t', ht'⟩
    exact h₂.keep ht'
  old hl hlen hb := h₂.old hl hlen (h₁.old hl hlen hb)
  new hl hlen hb := by
    rcases h₂.new hl hlen hb with hb | ⟨has, p, hp, rfl⟩
    · rcases h₁.new hl hlen hb with hb | ⟨has, p, hp, rfl⟩
      · exact Or.inl hb
      · exact Or.inr ⟨has, p, List.mem_append_left _ hp, rfl⟩
    · exact Or.inr ⟨has, p, List.mem_append_right _ hp, rfl⟩
  obtained p hp := by
    rcases List.mem_append.1 hp with hp | hp
    · rcases h₁.obtained p hp with ⟨hfresh, π, hne, hlen, hdesc⟩
      exact ⟨hfresh, π, hne, hlen, h₂.old hlive hlen hdesc⟩
    · rcases h₂.obtained p hp with ⟨hfresh, hpath⟩
      refine ⟨?_, hpath⟩
      cases hold : σ.pages p with
      | none => rfl
      | some t =>
          rcases h₁.keep (b := .page p) hold with ⟨t', ht'⟩
          exact absurd (hfresh.symm.trans ht') (by simp)
  nodup := by
    rw [List.nodup_append]
    refine ⟨h₁.nodup, h₂.nodup, ?_⟩
    intro p hp q hq heq
    rcases h₁.obtained p hp with ⟨_, π, _, hlen, hdesc⟩
    rcases h₁.rooted.ranked.alloc (Roots.intro hlive) hlen hdesc with ⟨t, ht⟩
    have hfresh := (h₂.obtained q hq).1
    rw [← heq] at hfresh
    exact absurd (hfresh.symm.trans ht) (by simp)
  leaves hl hlen j := (h₂.leaves hl hlen j).trans (h₁.leaves hl hlen j)
  shared hl hone hlen hb ht hi := by
    rcases h₁.shared hl hone hlen hb ht hi with ⟨t', ht', heq⟩
    rcases h₂.shared hl hone hlen (h₁.old hl (Nat.le_of_lt hlen) hb) ht' hi with ⟨t'', ht'', heq'⟩
    exact ⟨t'', ht'', heq'.trans heq⟩
  frame := by
    intro b t ht habove
    apply h₂.frame (h₁.frame ht habove)
    intro h
    rcases h with ⟨π, hlen, hdesc⟩
    rcases h₁.new hlive (Nat.le_of_lt hlen) hdesc with hdesc | ⟨_, p, hp, rfl⟩
    · exact habove ⟨π, hlen, hdesc⟩
    · exact absurd ((h₁.obtained p hp).1.symm.trans ht) (by simp)

end OSLabs.Vme
