import OSLabs.Vme.Spaces

/-! # A new address space

`protect` plants a tree of one table, a copy of the kernel's entries in the kernel's
places and empty elsewhere.
-/

namespace OSLabs.Vme

open OSLabs.Lib
open OSLabs.Lib.Heap

variable {c : Arch} {σ₀ σ σ' : State} {m : Spaces} {tables : Nat → List Nat} {as q : Nat}
  {kt : Nat → Nat}

/-! ## Copying the kernel's entries -/

def copyEntry (c : Arch) (upt : Nat) (σ : State) (cur : Nat) : Except Halt State := do
  let index := indexof cur (level1 c)
  let e ← load σ (.page σ.kpt) index
  store σ (.page upt) index e

theorem protect_eq (pgalloc : Pgalloc c) (as : Nat) (σ : State) :
    protect c pgalloc as σ = pgallocz c pgalloc σ >>= fun r =>
      (kernelAddrs c (2 ^ (level1 c).shift)).foldlM (copyEntry c r.1) r.2 >>= fun σ =>
        .ok { σ with
          spaces := Function.update σ.spaces as
            (some ⟨(mmu c).pgsize, uvmArea c, r.1 ||| pteP ||| pteU⟩) } := rfl

theorem copyEntry_spec {upt : Nat} (kt t : Nat → Nat) (hne : upt ≠ σ.kpt)
    (hkt : σ.pages σ.kpt = some kt) (ht : σ.pages upt = some t) (curs : List Nat) :
    curs.foldlM (copyEntry c upt) σ = .ok { σ with
      pages := Function.update σ.pages upt (some fun i =>
        if ∃ cur ∈ curs, indexof cur (level1 c) = i then kt i else t i) } := by
  induction curs generalizing σ t with
  | nil =>
      have hsame : Function.update σ.pages upt (some t) = σ.pages := by
        rw [← ht, Function.update_eq_self]
      simp [hsame, pure, Except.pure]
  | cons cur curs ih =>
      have hcopy : copyEntry c upt σ cur = .ok { σ with
          pages := Function.update σ.pages upt (some
            (Function.update t (indexof cur (level1 c)) (kt (indexof cur (level1 c))))) } := by
        simp only [copyEntry, load_eq (b := .page σ.kpt) hkt, bind, Except.bind, store, ht]
      rw [List.foldlM_cons, hcopy]
      simp only [bind, Except.bind]
      rw [ih _ (by exact hne) (by simp [Function.update_of_ne hne.symm, hkt])
        (Function.update_self ..)]
      simp only [Function.update_idem, List.exists_mem_cons_iff]
      congr 4
      funext i
      by_cases hcur : indexof cur (level1 c) = i
      · simp [hcur]
      · simp [hcur, Function.update_of_ne (Ne.symm hcur)]

/-! ## The planted tree -/

def topTable (c : Arch) (kt : Nat → Nat) (i : Nat) : Nat := if KernelTop c i then kt i else 0

/-- The new state, apart from the recorded call. -/
structure Protected (c : Arch) (as q : Nat) (kt : Nat → Nat) (σ σ' : State) : Prop where
  page : IsPage c q
  fresh : σ.pages q = none
  pages : σ'.pages = Function.update σ.pages q (some (topTable c kt))
  spaces : σ'.spaces = Function.update σ.spaces as
    (some ⟨(mmu c).pgsize, uvmArea c, q ||| pteP ||| pteU⟩)
  kpt : σ'.kpt = σ.kpt
  calls : σ'.calls = σ.calls ++ [.pgalloc q]

theorem protect_cases (pgalloc : Pgalloc c) {kt : Nat → Nat} (hkt : σ.pages σ.kpt = some kt)
    (as : Nat) :
    (∃ text, protect c pgalloc as σ = .error (.panic text)) ∨
      ∃ σ' q, protect c pgalloc as σ = .ok σ' ∧ Protected c as q kt σ σ' := by
  rw [protect_eq]
  cases hq : pgalloc.answer σ.calls σ.pages with
  | none => exact Or.inl ⟨"cannot allocate page", by simp [pgallocz, hq, bind, Except.bind]⟩
  | some q =>
      rcases pgalloc.fresh hq with ⟨hpage, hfresh⟩
      have hne : q ≠ σ.kpt := by
        intro h
        rw [h, hkt] at hfresh
        cases hfresh
      refine Or.inr ⟨{ σ with
        pages := Function.update σ.pages q (some (topTable c kt))
        spaces := Function.update σ.spaces as
          (some ⟨(mmu c).pgsize, uvmArea c, q ||| pteP ||| pteU⟩)
        calls := σ.calls ++ [.pgalloc q] }, q, ?_, hpage, hfresh, rfl, rfl, rfl, rfl⟩
      simp only [pgallocz, hq, bind, Except.bind]
      rw [copyEntry_spec kt (fun _ => 0) (by exact hne)
        (by simp [Function.update_of_ne hne.symm, hkt]) (Function.update_self ..)]
      simp only [Function.update_idem, kernelAddrs_top]
      rfl

section Plant

variable (hp : Protected c as q kt σ σ')

include hp

theorem Protected.heap_page : σ'.heap (.page q) = some (topTable c kt) := by
  simp [State.heap, hp.pages]

theorem Protected.heap_space :
    σ'.heap (.space as) = some fun i => if i = 0 then q ||| pteP ||| pteU else 0 := by
  simp [State.heap, hp.spaces]

theorem Protected.heap_others {b : Base} (hs : b ≠ .space as) (hq : b ≠ .page q) :
    σ'.heap b = σ.heap b := by
  cases b with
  | space as' =>
      have hne : as' ≠ as := fun h => hs (congrArg Base.space h)
      simp [State.heap, hp.spaces, Function.update_of_ne hne]
  | page p =>
      have hne : p ≠ q := fun h => hq (congrArg Base.page h)
      simp [State.heap, hp.pages, Function.update_of_ne hne]

theorem Protected.points : Points (userUse c) [] (q ||| pteP ||| pteU) q :=
  .root hp.page rfl (Nat.or_assoc ..)

/-- No kernel entry of the new table points to a table of the address space. -/
theorem Protected.plantable (hkt : ∀ i, kt i &&& pteU = 0) (live : Nat → Prop) :
    Plantable (next (userUse c)) (Roots live) (mmu c).ptlevels σ.heap σ'.heap (.space as)
      (fun i => if i = 0 then q ||| pteP ||| pteU else 0) 0 (.page q) (topTable c kt) where
  apart := by
    intro r π hr hne _ hdesc
    exact hne (descend_space hdesc).2
  fresh := hp.fresh
  ne := by simp
  root := hp.heap_space
  child := hp.heap_page
  others := hp.heap_others
  only := by
    intro j b
    by_cases hj : j = 0
    · simp only [hj, if_true, hp.points.next, Option.some.injEq, true_and]
      exact eq_comm
    · simp [hj]
  empty := by
    intro j
    by_cases hj : KernelTop c j
    · rw [topTable, if_pos hj, next_of_not_user (hkt j)]
    · rw [topTable, if_neg hj, next_zero]

end Plant

theorem Protected.descend (hp : Protected c as q kt σ σ') (hkt : ∀ i, kt i &&& pteU = 0)
    {π : List Nat} {b : Base} : descend (next (userUse c)) σ'.heap (.space as) π = some b ↔
      π = [] ∧ b = .space as ∨ π = [0] ∧ b = .page q :=
  descend_planted (hp.plantable hkt fun _ => False)

theorem uvmArea_start (c : Arch) : inRange (uvmArea c).start (uvmArea c) := by
  cases c <;> decide

theorem Protected.shaped (hp : Protected c as q kt σ σ') (hkt : ∀ i, kt i &&& pteU = 0) :
    Shaped (userUse c) σ'.heap as where
  inner := by
    intro π b t i _ hb ht hshared
    rcases (hp.descend hkt).1 hb with ⟨hπ, hb⟩ | ⟨hπ, hb⟩
    · rw [hb, hp.heap_space] at ht
      rw [hπ, ← Option.some.inj ht]
      by_cases hi : i = 0
      · exact Or.inr ⟨q, by simpa [hi] using hp.points⟩
      · exact Or.inl (if_neg hi)
    · rw [hb, hp.heap_page] at ht
      rw [← Option.some.inj ht]
      exact Or.inl (if_neg (hshared (by rw [hπ]; rfl)))
  walked := by
    intro π b _ hb
    refine ⟨(uvmArea c).start, uvmArea_start c, ?_⟩
    rcases (hp.descend hkt).1 hb with ⟨hπ, _⟩ | ⟨hπ, _⟩
    · simp [hπ]
    · rw [hπ]
      cases c <;> rfl

theorem Protected.holds (hp : Protected c as q kt σ σ') (hkt₀ : σ₀.pages σ₀.kpt = some kt)
    (hkt : ∀ i, kt i &&& pteU = 0) (kernel : ∀ {p t}, σ₀.pages p = some t → σ.pages p = some t) :
    Holds c σ₀ σ' as (fun _ => none) [q] := by
  have hlevels : 2 ≤ (mmu c).ptlevels := by cases c <;> decide
  have owns : ∀ {p}, Owns c σ' as p ↔ p = q := by
    intro p
    constructor
    · intro h
      rcases h with ⟨π, hne, _, hdesc⟩
      rcases (hp.descend hkt).1 hdesc with ⟨hπ, _⟩ | ⟨_, hb⟩
      · exact absurd hπ hne
      · exact Base.page.inj hb
    · intro h
      exact ⟨[0], by simp, by simp; omega, (hp.descend hkt).2 (Or.inr ⟨rfl, by rw [h]⟩)⟩
  constructor
  · intro p h
    cases hpages : σ₀.pages p with
    | none => rfl
    | some t =>
        have hold := kernel hpages
        rw [owns.1 h, hp.fresh] at hold
        cases hold
  · refine ⟨q, _, (hp.descend hkt).2 (Or.inr ⟨rfl, rfl⟩), hp.heap_page, ?_⟩
    intro kt' i hkt' hi
    rw [topTable, if_pos hi, ← Option.some.inj (hkt₀.symm.trans hkt')]
  · intro va _ _
    have hnone : Heap.descend (next (userUse c)) σ'.heap (.space as) (path c va) = none := by
      rw [Option.eq_none_iff_forall_ne_some]
      intro b hb
      have hlen := path_length c va
      rcases (hp.descend hkt).1 hb with ⟨hπ, _⟩ | ⟨hπ, _⟩
      · rw [hπ, List.length_nil] at hlen
        omega
      · rw [hπ, List.length_singleton] at hlen
        omega
    simp [lookup, hnone, entryOf]
  · intro va mp h
    cases h
  · exact List.nodup_singleton q
  · intro p
    rw [owns, List.mem_singleton]

/-- `protect` fails for want of memory only. Else it makes one table, and the address
space is empty. -/
theorem protect_spec (hboot : Booted c σ₀) (ref : Refines c σ₀ m tables σ)
    (pgalloc : Pgalloc c) (as : Nat) :
    (∃ text, protect c pgalloc as σ = .error (.panic text)) ∨
      ∃ σ' q, protect c pgalloc as σ = .ok σ' ∧ σ'.calls = σ.calls ++ [.pgalloc q] ∧
        Refines c σ₀ (m.protect as) (Function.update tables as [q]) σ' := by
  rcases hboot.top with ⟨kt, hkt₀, huser⟩
  have hkt : σ.pages σ.kpt = some kt := by
    rw [ref.kpt]
    exact ref.kernel hkt₀
  rcases protect_cases pgalloc hkt as with herr | ⟨σ', q, hok, hp⟩
  · exact Or.inl herr
  · refine Or.inr ⟨σ', q, hok, hp.calls, ?_⟩
    have live_iff : ∀ {as'}, as' ≠ as → ((m.protect as).Live as' ↔ m.Live as') := by
      intro as' hne
      rw [Spaces.Live, Spaces.protect, Function.update_of_ne hne]
      rfl
    have same : ∀ {as'}, m.Live as' → as' ≠ as →
        SameTables (userUse c) σ.heap σ'.heap as' := by
      intro as' hlive hne π b hlen hb
      apply hp.heap_others
      · intro h
        rw [h] at hb
        exact hne (Base.space.inj (descend_space hb).2)
      · intro h
        rcases ref.rooted.ranked.alloc (Roots.intro hlive) hlen hb with ⟨t, ht⟩
        rw [h] at ht
        exact absurd (hp.fresh.symm.trans ht) (by simp)
    constructor
    · constructor
      · apply (ref.rooted.ranked.plant (hp.plantable huser m.Live)).mono
        intro r hr
        rcases hr with ⟨as', hlive, rfl⟩
        by_cases hne : as' = as
        · exact Or.inl (by rw [hne])
        · exact Or.inr (Roots.intro ((live_iff hne).1 hlive))
      · intro as' hlive
        by_cases hne : as' = as
        · rw [hne]
          exact hp.shaped huser
        · have hlive := (live_iff hne).1 hlive
          exact SameTables.shaped (same hlive hne) (ref.rooted.shaped hlive)
    · exact hp.kpt.trans ref.kpt
    · intro p t ht
      have hold := ref.kernel ht
      have hne : p ≠ q := by
        intro h
        rw [h, hp.fresh] at hold
        cases hold
      rw [hp.pages, Function.update_of_ne hne, hold]
    · intro as' f hf
      by_cases hne : as' = as
      · rw [hne, Spaces.protect, Function.update_self] at hf
        rw [hne, Function.update_self, ← Option.some.inj hf]
        exact hp.holds hkt₀ huser ref.kernel
      · rw [Spaces.protect, Function.update_of_ne hne] at hf
        rw [Function.update_of_ne hne]
        exact (ref.holds hf).frame (same (.intro hf) hne)

end OSLabs.Vme
