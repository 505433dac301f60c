import OSLabs.Vme.Map

/-! # Giving an address space back

`teardown` frees the tables below an entry before their parent. Its result is computed
from the list of these tables alone: they are freed in the order of the list and nothing
else is touched. That it returns means that every table it read was still there.
-/

namespace OSLabs.Vme

open OSLabs.Lib
open OSLabs.Lib.Heap

variable {c : Arch} {σ₀ σ σ' : State} {m : Spaces} {tables : Nat → List Nat} {as : Nat}
  {l l' : List Base} {b : Base} {t : Nat → Nat}

/-! ## Memory without the listed tables -/

def pagesOf (l : List Base) : List Nat :=
  l.filterMap fun b =>
    match b with
    | .page p => some p
    | .space _ => none

@[simp] theorem pagesOf_append (l l' : List Base) :
    pagesOf (l ++ l') = pagesOf l ++ pagesOf l' := List.filterMap_append

@[simp] theorem pagesOf_page (p : Nat) : pagesOf [.page p] = [p] := rfl

@[simp] theorem pagesOf_space (as : Nat) : pagesOf [.space as] = [] := rfl

theorem mem_pagesOf {p : Nat} : p ∈ pagesOf l ↔ Base.page p ∈ l := by
  rw [pagesOf, List.mem_filterMap]
  constructor
  · intro h
    rcases h with ⟨b, hb, hp⟩
    cases b with
    | space as => cases hp
    | page q => exact Option.some.inj hp ▸ hb
  · intro h
    exact ⟨.page p, h, rfl⟩

theorem pagesOf_nodup (h : l.Nodup) : (pagesOf l).Nodup := by
  apply h.filterMap
  intro a a' p ha ha'
  cases a with
  | space as => cases ha
  | page q =>
      cases a' with
      | space as => cases ha'
      | page q' => rw [Option.some.inj ha, Option.some.inj ha']

def freed (σ : State) (l : List Base) : State :=
  { σ with
    pages := fun p => if Base.page p ∈ l then none else σ.pages p
    calls := σ.calls ++ (pagesOf l).map .pgfree }

@[simp] theorem freed_nil : freed σ [] = σ := by
  simp [freed, pagesOf]

theorem freed_append (l l' : List Base) : freed (freed σ l) l' = freed σ (l ++ l') := by
  simp only [freed, List.mem_append, pagesOf_append, List.map_append, List.append_assoc]
  congr 1
  funext p
  by_cases h : Base.page p ∈ l' <;> by_cases h' : Base.page p ∈ l <;> simp [h, h']

theorem freed_heap (hb : b ∉ l) : (freed σ l).heap b = σ.heap b := by
  cases b with
  | space as => rfl
  | page p => simp [freed, State.heap, hb]

theorem freed_space (as : Nat) : freed σ [.space as] = σ := by
  simp [freed]

theorem pgfree_eq {p : Nat} (hp : σ.pages p = some t) :
    pgfree σ (.page p) = .ok (freed σ [.page p]) := by
  simp only [pgfree, hp, freed, pagesOf_page, List.map_singleton, List.mem_singleton,
    Base.page.injEq]
  congr 2
  funext q
  by_cases hq : q = p
  · simp [hq]
  · simp [hq]

/-! ## The recursion -/

/-- `teardown` follows the entries that count as pointers to tables of address spaces. -/
theorem next_user (e : Nat) : next (userUse c) e =
    if e &&& pteP ≠ 0 ∧ e &&& pteU ≠ 0 then some (.page (baseof c e)) else none := by
  have hbits : ∀ r < 8, r &&& (pteP ||| pteU) = pteP ||| pteU ↔
      r &&& pteP ≠ 0 ∧ r &&& pteU ≠ 0 := by decide
  have hlow : ∀ mask, 7 &&& mask = mask → e &&& mask = e % 8 &&& mask := by
    intro mask hmask
    rw [← Nat.and_two_pow_sub_one_eq_mod e 3, Nat.and_assoc, hmask]
  have h := hbits (e % 8) (Nat.mod_lt _ (by decide))
  rw [← hlow _ (by decide), ← hlow _ (by decide), ← hlow _ (by decide)] at h
  rw [next]
  exact if_congr h rfl rfl

def ranges (infos : List PtInfo) : List (List Nat) :=
  infos.map fun info => List.range (2 ^ info.bits)

def belowEntry (c : Arch) (σ : State) (rest : List PtInfo) (pt : Base) (index : Nat) :
    List Base :=
  match (σ.heap pt).bind fun t => next (userUse c) (t index) with
  | some b => nodes (next (userUse c)) σ.heap (ranges rest) b
  | none => []

theorem nodes_cons (info : PtInfo) (rest : List PtInfo) (pt : Base) :
    nodes (next (userUse c)) σ.heap (ranges (info :: rest)) pt =
      (List.range (2 ^ info.bits)).flatMap (belowEntry c σ rest pt) ++ [pt] := by
  simp only [ranges, List.map_cons, nodes]
  congr 1
  apply List.flatMap_congr
  intro i _
  rw [belowEntry, ranges]
  cases (σ.heap pt).bind fun t => next (userUse c) (t i) <;> rfl

def teardownEntry (c : Arch) (rest : List PtInfo) (level : Nat) (pt : Base) (σ : State)
    (index : Nat) : Except Halt State := do
  let e ← load σ pt index
  if e &&& pteP ≠ 0 ∧ e &&& pteU ≠ 0 then
    teardown c rest (level + 1) (.page (baseof c e)) σ
  else .ok σ

theorem teardown_cons (info : PtInfo) (rest : List PtInfo) (level : Nat) (pt : Base) :
    teardown c (info :: rest) level pt σ =
      (List.range (2 ^ info.bits)).foldlM (teardownEntry c rest level pt) σ >>= fun σ =>
        if level ≥ 1 then pgfree σ pt else .ok σ := rfl

/-- What `teardown` of the levels `rest` does below a table. -/
def Frees (c : Arch) (rest : List PtInfo) (level : Nat) : Prop :=
  ∀ (σ : State) (p : Nat), (nodes (next (userUse c)) σ.heap (ranges rest) (.page p)).Nodup →
    (∀ b ∈ nodes (next (userUse c)) σ.heap (ranges rest) (.page p), ∃ t, σ.heap b = some t) →
    teardown c rest level (.page p) σ =
      .ok (freed σ (nodes (next (userUse c)) σ.heap (ranges rest) (.page p)))

/-- The loop frees the tables below the entries it visits, one entry after the other. -/
theorem teardownEntry_spec {rest : List PtInfo} {level : Nat} {pt : Base}
    (hrest : Frees c rest (level + 1)) (is : List Nat) (σ : State) (hpt : σ.heap pt = some t)
    (hnodup : (is.flatMap (belowEntry c σ rest pt)).Nodup)
    (hself : pt ∉ is.flatMap (belowEntry c σ rest pt))
    (halloc : ∀ b ∈ is.flatMap (belowEntry c σ rest pt), ∃ t, σ.heap b = some t) :
    is.foldlM (teardownEntry c rest level pt) σ =
      .ok (freed σ (is.flatMap (belowEntry c σ rest pt))) := by
  induction is generalizing σ with
  | nil => simp [pure, Except.pure]
  | cons i is ih =>
      rw [List.flatMap_cons] at hnodup hself halloc ⊢
      have hfirst : teardownEntry c rest level pt σ i =
          .ok (freed σ (belowEntry c σ rest pt i)) := by
        have hbelow : belowEntry c σ rest pt i =
            match next (userUse c) (t i) with
            | some b => nodes (next (userUse c)) σ.heap (ranges rest) b
            | none => [] := by
          simp only [belowEntry, hpt, Option.bind_some]
        have hsub : ∀ b ∈ belowEntry c σ rest pt i, ∃ t, σ.heap b = some t :=
          fun b hb => halloc b (List.mem_append_left _ hb)
        have hnd := (List.nodup_append.1 hnodup).1
        simp only [teardownEntry, load_eq hpt, bind, Except.bind]
        rw [next_user] at hbelow
        split
        next he =>
          rw [if_pos he] at hbelow
          rw [hbelow] at hnd hsub ⊢
          exact hrest σ _ hnd hsub
        next he =>
          rw [if_neg he] at hbelow
          rw [hbelow, freed_nil]
      -- what was freed is not among what the other entries lead to
      have hpt' : (freed σ (belowEntry c σ rest pt i)).heap pt = some t := by
        rw [freed_heap (fun h => hself (List.mem_append_left _ h)), hpt]
      have hlater : ∀ j ∈ is, belowEntry c (freed σ (belowEntry c σ rest pt i)) rest pt j =
          belowEntry c σ rest pt j := by
        intro j hj
        have hmem : ∀ b ∈ belowEntry c σ rest pt j, b ∉ belowEntry c σ rest pt i := by
          intro b hb hbi
          exact (List.nodup_append.1 hnodup).2.2 b hbi b (List.mem_flatMap.2 ⟨j, hj, hb⟩) rfl
        have hunfold : belowEntry c σ rest pt j =
            match next (userUse c) (t j) with
            | some b => nodes (next (userUse c)) σ.heap (ranges rest) b
            | none => [] := by
          simp only [belowEntry, hpt, Option.bind_some]
        rw [hunfold] at hmem ⊢
        generalize belowEntry c σ rest pt i = gone at hmem hpt' ⊢
        simp only [belowEntry, hpt', Option.bind_some]
        split
        next b hb =>
          rw [hb] at hmem
          exact nodes_congr fun b' hb' => freed_heap (hmem b' hb')
        next => rfl
      have hrestList : is.flatMap (belowEntry c (freed σ (belowEntry c σ rest pt i)) rest pt) =
          is.flatMap (belowEntry c σ rest pt) := List.flatMap_congr hlater
      rw [List.foldlM_cons, hfirst]
      simp only [bind, Except.bind]
      rw [ih _ hpt', hrestList, freed_append]
      · rw [hrestList]
        exact (List.nodup_append.1 hnodup).2.1
      · rw [hrestList]
        exact fun h => hself (List.mem_append_right _ h)
      · rw [hrestList]
        intro b hb
        have hnot : b ∉ belowEntry c σ rest pt i := fun h =>
          (List.nodup_append.1 hnodup).2.2 b h b hb rfl
        rw [freed_heap hnot]
        exact halloc b (List.mem_append_right _ hb)

/-- Where the tables are there and none is on two paths, `teardown` frees them. -/
theorem teardown_frees (infos : List PtInfo) (level : Nat) (hlevel : 1 ≤ level) :
    Frees c infos level := by
  induction infos generalizing level with
  | nil =>
      intro σ p _ _
      simp [teardown, ranges, nodes]
  | cons info rest ih =>
      intro σ p hnodup halloc
      rw [nodes_cons] at hnodup halloc ⊢
      rcases halloc (.page p) (by simp) with ⟨t, ht⟩
      have hself : Base.page p ∉ (List.range (2 ^ info.bits)).flatMap
          (belowEntry c σ rest (.page p)) := fun h =>
        (List.nodup_append.1 hnodup).2.2 _ h _ (List.mem_singleton_self _) rfl
      rw [teardown_cons, teardownEntry_spec (ih (level + 1) (by omega)) _ σ ht
        (List.nodup_append.1 hnodup).1 hself fun b hb => halloc b (List.mem_append_left _ hb)]
      have hpage : (freed σ ((List.range (2 ^ info.bits)).flatMap
          (belowEntry c σ rest (.page p)))).pages p = some t :=
        (freed_heap (b := .page p) hself).trans ht
      simp only [bind, Except.bind]
      rw [if_pos hlevel, pgfree_eq hpage, freed_append]

theorem unprotect_eq (hnodup : (nodes (next (userUse c)) σ.heap (ranges (mmu c).pgtables)
      (.space as)).Nodup)
    (halloc : ∀ b ∈ nodes (next (userUse c)) σ.heap (ranges (mmu c).pgtables) (.space as),
      ∃ t, σ.heap b = some t) :
    unprotect c as σ =
      .ok (freed σ (nodes (next (userUse c)) σ.heap (ranges (mmu c).pgtables) (.space as))) := by
  rcases (show ∃ info rest, (mmu c).pgtables = info :: rest by cases c <;> exact ⟨_, _, rfl⟩) with
    ⟨info, rest, hinfos⟩
  rw [unprotect]
  rw [hinfos, nodes_cons] at hnodup halloc ⊢
  rcases halloc (.space as) (by simp) with ⟨t, ht⟩
  have hself : Base.space as ∉ (List.range (2 ^ info.bits)).flatMap
      (belowEntry c σ rest (.space as)) := fun h =>
    (List.nodup_append.1 hnodup).2.2 _ h _ (List.mem_singleton_self _) rfl
  rw [teardown_cons, teardownEntry_spec (teardown_frees rest 1 (by omega)) _ σ ht
    (List.nodup_append.1 hnodup).1 hself fun b hb => halloc b (List.mem_append_left _ hb)]
  simp only [bind, Except.bind]
  rw [if_neg (by omega), ← freed_append, freed_space]

/-! ## The tables of an address space -/

theorem follows_indices (va : Nat) (infos : List PtInfo)
    (hinfos : ∀ info ∈ infos, info ∈ (mmu c).pgtables) (k : Nat) (hk : k < infos.length) :
    Follows ((infos.map (indexof va)).take k) (ranges infos) := by
  induction infos generalizing k with
  | nil => simp at hk
  | cons info rest ih =>
      cases k with
      | zero => trivial
      | succ k =>
          refine ⟨List.mem_range.2 (indexof_lt (hinfos info (by simp))), ?_⟩
          exact ih (fun i hi => hinfos i (List.mem_cons_of_mem _ hi)) k (by simpa using hk)

theorem Follows.length {ι : Type} {π : List ι} {ss : List (List ι)} (h : Follows π ss) :
    π.length < ss.length := by
  induction ss generalizing π with
  | nil => cases π <;> cases h
  | cons s ss ih =>
      cases π with
      | nil => simp
      | cons i π =>
          have := ih h.2
          simp only [List.length_cons]
          omega

def allTables (c : Arch) (σ : State) (as : Nat) : List Base :=
  nodes (next (userUse c)) σ.heap (ranges (mmu c).pgtables) (.space as)

section Owned

variable (ref : Refines c σ₀ m tables σ) (hlive : m.Live as)

include ref hlive

theorem Refines.mem_allTables : b ∈ allTables c σ as ↔ ∃ π, π.length ≤ (mmu c).ptlevels ∧
    descend (next (userUse c)) σ.heap (.space as) π = some b := by
  rw [allTables, mem_nodes]
  constructor
  · intro h
    rcases h with ⟨π, hπ, hdesc⟩
    have hlen := Follows.length hπ
    rw [ranges, List.length_map, pgtables_length] at hlen
    exact ⟨π, by omega, hdesc⟩
  · intro h
    rcases h with ⟨π, hlen, hdesc⟩
    rcases (ref.rooted.shaped hlive).walked hlen hdesc with ⟨va, _, hπ⟩
    refine ⟨π, ?_, hdesc⟩
    rw [hπ]
    exact follows_indices va _ (fun _ h => h) _ (by rw [pgtables_length]; omega)

theorem Refines.mem_pages {p : Nat} : p ∈ pagesOf (allTables c σ as) ↔ Owns c σ as p := by
  rw [mem_pagesOf, ref.mem_allTables hlive]
  constructor
  · intro h
    rcases h with ⟨π, hlen, hdesc⟩
    refine ⟨π, ?_, hlen, hdesc⟩
    intro hnil
    rw [hnil] at hdesc
    cases hdesc
  · intro h
    rcases h with ⟨π, _, hlen, hdesc⟩
    exact ⟨π, hlen, hdesc⟩

theorem Refines.nodup_allTables : (allTables c σ as).Nodup := by
  apply nodes_nodup
  · intro s hs
    rcases List.mem_map.1 hs with ⟨info, _, rfl⟩
    exact List.nodup_range
  · intro π π' b hπ hπ' hdesc hdesc'
    have hlen := Follows.length hπ
    have hlen' := Follows.length hπ'
    rw [ranges, List.length_map, pgtables_length] at hlen hlen'
    exact (ref.rooted.ranked.inj (Roots.intro hlive) (Roots.intro hlive) (by omega) (by omega)
      hdesc hdesc').2

/-- `unprotect` returns, having freed each table of the address space once. -/
theorem Refines.unprotect_eq : unprotect c as σ = .ok (freed σ (allTables c σ as)) := by
  apply Vme.unprotect_eq (ref.nodup_allTables hlive)
  intro b hb
  rcases (ref.mem_allTables hlive).1 hb with ⟨π, hlen, hdesc⟩
  exact ref.rooted.ranked.alloc (Roots.intro hlive) hlen hdesc

/-- The pages freed are the pages obtained, in another order. -/
theorem Refines.freed_perm : (pagesOf (allTables c σ as)).Perm (tables as) := by
  rcases Option.isSome_iff_exists.1 hlive with ⟨f, hf⟩
  have hh := ref.holds hf
  rw [List.perm_ext_iff_of_nodup (pagesOf_nodup (ref.nodup_allTables hlive)) hh.nodup]
  intro p
  rw [ref.mem_pages hlive, hh.owns]

theorem Refines.unprotected :
    Refines c σ₀ (m.unprotect as) (Function.update tables as []) (freed σ (allTables c σ as)) := by
  have hother : ∀ {as'}, (m.unprotect as).Live as' → as' ≠ as ∧ m.Live as' := by
    intro as' h
    by_cases hne : as' = as
    · rw [Spaces.Live, Spaces.unprotect, hne, Function.update_self] at h
      cases h
    · rw [Spaces.Live, Spaces.unprotect, Function.update_of_ne hne] at h
      exact ⟨hne, h⟩
  have same : ∀ {as'}, m.Live as' → as' ≠ as →
      SameTables (userUse c) σ.heap (freed σ (allTables c σ as)).heap as' := by
    intro as' hlive' hne π b hlen hb
    apply freed_heap
    intro hmem
    rcases (ref.mem_allTables hlive).1 hmem with ⟨π', hlen', hb'⟩
    exact hne (Base.space.inj (ref.rooted.ranked.inj (Roots.intro hlive') (Roots.intro hlive)
      hlen hlen' hb hb').1)
  constructor
  · constructor
    · have hsub : Ranked (next (userUse c)) (Roots (m.unprotect as).Live) (mmu c).ptlevels
          σ.heap := by
        apply ref.rooted.ranked.mono
        intro r hr
        rcases hr with ⟨as', h, rfl⟩
        exact Roots.intro (hother h).2
      apply hsub.frame
      · intro r π a hr hlen ha
        rcases hr with ⟨as', h, rfl⟩
        exact same (hother h).2 (hother h).1 (Nat.le_of_lt hlen) ha
      · intro a halloc hreach
        rcases hreach with ⟨r, π, ⟨as', h, rfl⟩, hlen, ha⟩
        have hkeep := same (hother h).2 (hother h).1 hlen ha
        rw [hkeep]
        exact halloc
    · intro as' h
      exact SameTables.shaped (same (hother h).2 (hother h).1) (ref.rooted.shaped (hother h).2)
  · exact ref.kpt
  · intro p t ht
    have hnot : Base.page p ∉ allTables c σ as := by
      intro hmem
      rcases Option.isSome_iff_exists.1 hlive with ⟨f, hf⟩
      have happart := (ref.holds hf).apart ((ref.mem_pages hlive).1 (mem_pagesOf.2 hmem))
      exact absurd (happart.symm.trans ht) (by simp)
    exact (freed_heap (b := .page p) hnot).trans (ref.kernel ht)
  · intro as' f hf
    rcases hother (.intro hf) with ⟨hne, hlive'⟩
    rw [Spaces.unprotect, Function.update_of_ne hne] at hf
    rw [Function.update_of_ne hne]
    exact (ref.holds hf).frame (same hlive' hne)

end Owned

end OSLabs.Vme
