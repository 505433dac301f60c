import OSLabs.Vme.Rooted

/-! # What `ptwalk` does

A round of the loop either follows a pointer or hangs a fresh page into an empty entry.
All rounds together grow the tables of one address space until the path of the address
exists, and return the place of its last entry.
-/

namespace OSLabs.Vme

open OSLabs.Lib
open OSLabs.Lib.Heap

variable {c : Arch} {u : Use c} {live : Nat → Prop} {as va : Nat} {σ σ' : State}
  {π : List Nat} {b : Base} {t : Nat → Nat} {i q : Nat}

/-! ## One round -/

/-- The entry `i` of the table `b` on the path `π` of `as` is empty, and `q` is a fresh page. -/
structure Vacant (u : Use c) (live : Nat → Prop) (σ : State) (as va : Nat) (π : List Nat)
    (b : Base) (t : Nat → Nat) (i q : Nat) : Prop where
  rooted : Rooted u live σ.heap
  live : live as
  rank : π.length < (mmu c).ptlevels
  at_path : descend (next u) σ.heap (.space as) π = some b
  table : σ.heap b = some t
  empty : t i = 0
  page : IsPage c q
  fresh : σ.pages q = none
  allowed : u.allowed va
  on_path : π ++ [i] = (indices c va).take (π.length + 1)
  unshared : π.length = 1 → ¬u.shared i

/-- The tables after the round: the new page is empty, and the entry points to it. -/
def hung (u : Use c) (σ : State) (b : Base) (i q : Nat) : Heap Base Nat Nat :=
  graft σ.heap b i (q ||| (pteP ||| u.flags)) (.page q) fun _ => 0

section Round

variable (v : Vacant u live σ as va π b t i q)

include v

theorem Vacant.points (ρ : List Nat) : Points u ρ (q ||| (pteP ||| u.flags)) q :=
  .walked v.page rfl

theorem Vacant.graftable : Graftable (next u) (Roots live) (mmu c).ptlevels σ.heap (.space as)
    π b t i (q ||| (pteP ||| u.flags)) (.page q) (fun _ => 0) where
  root := Roots.intro v.live
  rank := v.rank
  at_path := v.at_path
  table := v.table
  vacant := by rw [v.empty, next_zero]
  fresh := v.fresh
  points := (v.points []).next
  empty _ := next_zero

theorem Vacant.descend {as' : Nat} {ρ : List Nat} (hlive : live as')
    (hlen : ρ.length ≤ (mmu c).ptlevels) :
    descend (next u) (hung u σ b i q) (.space as') ρ =
      if as' = as ∧ ρ = π ++ [i] then some (.page q)
      else descend (next u) σ.heap (.space as') ρ := by
  have h := descend_graft v.rooted.ranked v.graftable (Roots.intro hlive) hlen
  simpa [hung] using h

theorem Vacant.rooted_hung : Rooted u live (hung u σ b i q) where
  ranked := v.rooted.ranked.graft v.graftable
  shaped := by
    intro as' hlive
    constructor
    · intro ρ a s j hlen ha hs hshared
      rw [v.descend hlive (Nat.le_of_lt hlen)] at ha
      by_cases haq : a = .page q
      · rw [haq, hung, graft_child v.graftable] at hs
        exact Or.inl (by rw [← Option.some.inj hs])
      · split at ha
        next => exact absurd (Option.some.inj ha).symm haq
        next =>
          have hold {s : Nat → Nat} := (v.rooted.shaped hlive).inner (t := s) (i := j) hlen ha
          by_cases hab : a = b
          · rw [hab, hung, graft_parent v.graftable] at hs
            rw [← Option.some.inj hs]
            by_cases hj : j = i
            · rw [hj, Function.update_self]
              exact Or.inr ⟨q, v.points _⟩
            · rw [Function.update_of_ne hj]
              exact hold (hab ▸ v.table) hshared
          · rw [hung, graft_of_ne hab haq] at hs
            exact hold hs hshared
    · intro ρ a hlen ha
      rw [v.descend hlive hlen] at ha
      split at ha
      next hnew =>
        refine ⟨va, v.allowed, ?_⟩
        rw [hnew.2]
        simpa using v.on_path
      next => exact (v.rooted.shaped hlive).walked hlen ha

theorem Vacant.grown (hheap : σ'.heap = hung u σ b i q) (hkpt : σ'.kpt = σ.kpt)
    (hcalls : σ'.calls = σ.calls ++ [.pgalloc q])
    (hspaces : ∀ as', as' ≠ as → σ'.spaces as' = σ.spaces as') :
    Grown u live as σ σ' [q] where
  rooted := hheap ▸ v.rooted_hung
  kpt := hkpt
  calls := hcalls
  spaces := hspaces
  keep := by
    intro a s hs
    rw [hheap, hung]
    by_cases hab : a = b
    · exact ⟨_, by rw [hab, graft_parent v.graftable]⟩
    · by_cases haq : a = .page q
      · exact ⟨_, by rw [haq, graft_child v.graftable]⟩
      · exact ⟨s, by rw [graft_of_ne hab haq, hs]⟩
  old := by
    intro as' ρ a hlive hlen ha
    rw [hheap, v.descend hlive hlen, if_neg]
    · exact ha
    · intro hnew
      rw [hnew.1, hnew.2, descend_snoc, v.at_path] at ha
      simp [v.table, v.empty] at ha
  new := by
    intro as' ρ a hlive hlen ha
    rw [hheap, v.descend hlive hlen] at ha
    split at ha
    next hnew => exact Or.inr ⟨hnew.1, q, by simp, (Option.some.inj ha).symm⟩
    next => exact Or.inl ha
  obtained := by
    intro p hp
    rw [List.mem_singleton.1 hp]
    refine ⟨v.fresh, π ++ [i], by simp, ?_, ?_⟩
    · have := v.rank
      simp
      omega
    · rw [hheap, v.descend v.live (by have := v.rank; simp; omega), if_pos ⟨rfl, rfl⟩]
  nodup := List.nodup_singleton q
  leaves := by
    intro as' ρ hlive hlen j
    rw [hheap]
    exact lookup_graft v.rooted.ranked v.graftable (Roots.intro hlive) hlen 0 (fun _ => rfl) j
  shared := by
    intro as' ρ a s j hlive hone hlen ha hs hj
    have haq : a ≠ .page q := by
      intro h
      rw [h] at hs
      exact absurd (v.fresh.symm.trans hs) (by simp)
    rw [hheap, hung]
    by_cases hab : a = b
    · rw [hab] at ha hs
      have hπ := (v.rooted.ranked.inj (Roots.intro hlive) (Roots.intro v.live)
        (Nat.le_of_lt hlen) (Nat.le_of_lt v.rank) ha v.at_path).2
      have hji : j ≠ i := fun h => v.unshared (hπ ▸ hone) (h ▸ hj)
      refine ⟨_, by rw [hab, graft_parent v.graftable], ?_⟩
      rw [Function.update_of_ne hji, ← Option.some.inj (v.table.symm.trans hs)]
    · exact ⟨s, by rw [graft_of_ne hab haq, hs], rfl⟩
  frame := by
    intro a s hs habove
    have hab : a ≠ b := fun h => habove ⟨π, v.rank, h ▸ v.at_path⟩
    have haq : a ≠ .page q := by
      intro h
      rw [h] at hs
      exact absurd (v.fresh.symm.trans hs) (by simp)
    rw [hheap, hung, graft_of_ne hab haq, hs]

end Round

def ptwalkRound (c : Arch) (pgalloc : Pgalloc c) (flags index : Nat) (pt : Base) (σ : State) :
    Except Halt (Base × State) := do
  let e ← load σ pt index
  if e &&& pteP = 0 then
    let (nextPage, σ) ← pgallocz c pgalloc σ
    let σ ← store σ pt index (nextPage ||| pteP ||| flags)
    .ok (.page nextPage, σ)
  else .ok (.page (baseof c e), σ)

theorem ptwalkFrom_cons (pgalloc : Pgalloc c) (flags : Nat) (info inner : PtInfo)
    (rest : List PtInfo) (b : Base) (σ : State) :
    ptwalkFrom c pgalloc va flags (info :: inner :: rest) b σ =
      ptwalkRound c pgalloc flags (indexof va info) b σ >>= fun r =>
        ptwalkFrom c pgalloc va flags (inner :: rest) r.1 r.2 := by
  simp only [ptwalkFrom, ptwalkRound, bind, Except.bind]
  cases load σ b (indexof va info) with
  | error h => rfl
  | ok e =>
      by_cases he : e &&& pteP = 0
      · simp only [he, if_true]
        cases pgallocz c pgalloc σ with
        | error h => rfl
        | ok r =>
            cases hs : store r.2 b (indexof va info) (r.1 ||| pteP ||| flags) with
            | error h => simp [hs]
            | ok σ' => simp [hs]
      · simp only [he, if_false]

/-- A round on the path of `va` ends one level further on this path. -/
theorem ptwalkRound_spec (pgalloc : Pgalloc c) (hσ : Rooted u live σ.heap) (hlive : live as)
    (hva : u.allowed va) (hlen : π.length < (mmu c).ptlevels)
    (hstep : (indices c va)[π.length]? = some i) (hpath : π = (indices c va).take π.length)
    (hb : descend (next u) σ.heap (.space as) π = some b) :
    (∃ text, ptwalkRound c pgalloc u.flags i b σ = .error (.panic text)) ∨
      ∃ b' σ' ps, ptwalkRound c pgalloc u.flags i b σ = .ok (b', σ') ∧
        Grown u live as σ σ' ps ∧
        descend (next u) σ'.heap (.space as) (π ++ [i]) = some b' := by
  rcases hσ.ranked.alloc (Roots.intro hlive) (Nat.le_of_lt hlen) hb with ⟨t, ht⟩
  have hshared : π.length = 1 → ¬u.shared i := by
    intro hone
    rw [hone, indices_top] at hstep
    exact Option.some.inj hstep ▸ u.unshared hva
  have hroot : ∀ as', b = .space as' → i = 0 := by
    intro as' has'
    rw [has'] at hb
    rw [(descend_space hb).1, List.length_nil, indices_root] at hstep
    exact (Option.some.inj hstep).symm
  simp only [ptwalkRound, load_eq ht, bind, Except.bind]
  rcases (hσ.shaped hlive).inner hlen hb ht hshared with hzero | ⟨q, hq⟩
  · rw [if_pos (by rw [hzero, Nat.zero_and])]
    rcases pgallocz_spec pgalloc σ with
      ⟨text, hnull⟩ | ⟨q, σ₁, hok, hpage, hfresh, hheap₁, hkpt₁, hcalls₁, hspaces₁⟩
    · exact Or.inl ⟨text, by simp only [hnull]⟩
    · have v : Vacant u live σ as va π b t i q :=
        ⟨hσ, hlive, hlen, hb, ht, hzero, hpage, hfresh, hva, by
          rw [List.take_add_one, ← hpath, hstep]
          rfl, hshared⟩
      have ht₁ : σ₁.heap b = some t := by
        rw [hheap₁, add_of_ne v.graftable.ne, ht]
      rcases store_spec ht₁ hroot (q ||| (pteP ||| u.flags)) with
        ⟨σ₂, hstore, hheap₂, hkpt₂, hcalls₂, hspaces₂⟩
      have hheap : σ₂.heap = hung u σ b i q := by
        rw [hheap₂, hheap₁]
        rfl
      have hspaces : ∀ as', as' ≠ as → σ₂.spaces as' = σ.spaces as' := by
        intro as' hne
        rw [hspaces₂ as', hspaces₁]
        intro heq
        rw [heq] at hb
        exact hne (Base.space.inj (descend_space hb).2).symm
      refine Or.inr ⟨.page q, σ₂, [q], ?_, v.grown hheap (hkpt₂.trans hkpt₁)
        (hcalls₂.trans hcalls₁) hspaces, ?_⟩
      · simp only [hok, Nat.or_assoc, hstore]
      · rw [hheap, v.descend hlive (by simp; omega), if_pos ⟨rfl, rfl⟩]
  · rw [if_neg hq.present]
    refine Or.inr ⟨.page q, σ, [], by rw [hq.baseof], .refl hσ, ?_⟩
    rw [descend_snoc, hb, Option.bind_some, ht, Option.bind_some, hq.next]

/-! ## The loop -/

/-- `ptwalk` grew the tables of `as` to the path of `va` and returned the last entry. -/
structure Walked (u : Use c) (live : Nat → Prop) (as va : Nat) (σ σ' : State) (loc : Base × Nat)
    (ps : List Nat) : Prop where
  grown : Grown u live as σ σ' ps
  table : descend (next u) σ'.heap (.space as) (path c va) = some loc.1
  index : loc.2 = leafIndex c va

/-- From the table at the path `π` on, whose rest the remaining levels index. -/
theorem ptwalkFrom_spec (pgalloc : Pgalloc c) (hva : u.allowed va) (hlive : live as)
    (infos : List PtInfo) (hne : infos ≠ [])
    (hinfos : π ++ infos.map (indexof va) = indices c va) (hσ : Rooted u live σ.heap)
    (hb : descend (next u) σ.heap (.space as) π = some b) :
    (∃ text, ptwalkFrom c pgalloc va u.flags infos b σ = .error (.panic text)) ∨
      ∃ loc σ' ps, ptwalkFrom c pgalloc va u.flags infos b σ = .ok (loc, σ') ∧
        Walked u live as va σ σ' loc ps := by
  induction infos generalizing π b σ with
  | nil => exact absurd rfl hne
  | cons info infos ih =>
      cases infos with
      | nil =>
          have hlast := (indices_eq c va).symm.trans hinfos.symm
          have hpath : path c va = π := List.append_inj_left' hlast rfl
          have hindex : [leafIndex c va] = [indexof va info] := List.append_inj_right' hlast rfl
          refine Or.inr ⟨_, σ, [], rfl, .refl hσ, ?_, ?_⟩
          · rw [hpath, hb]
          · exact (List.cons.inj hindex).1.symm
      | cons inner rest =>
          have hlen := congrArg List.length hinfos
          rw [indices_length, List.length_append, List.length_map, List.length_cons,
            List.length_cons] at hlen
          have hstep : (indices c va)[π.length]? = some (indexof va info) := by
            rw [← hinfos]
            simp
          have hpath : π = (indices c va).take π.length := by
            rw [← hinfos]
            simp
          have hrest : (π ++ [indexof va info]) ++ (inner :: rest).map (indexof va) =
              indices c va := by
            rw [← hinfos]
            simp
          rw [ptwalkFrom_cons]
          rcases ptwalkRound_spec pgalloc hσ hlive hva (by omega) hstep hpath hb with
            ⟨text, herr⟩ | ⟨b₁, σ₁, ps, hok, hgrown, hb₁⟩
          · exact Or.inl ⟨text, by rw [herr]; rfl⟩
          · rw [hok]
            rcases ih (by simp) hrest hgrown.rooted hb₁ with herr | ⟨loc, σ₂, qs, hok₂, hwalked⟩
            · exact Or.inl herr
            · exact Or.inr ⟨loc, σ₂, ps ++ qs, hok₂, hgrown.trans hlive hwalked.grown,
                hwalked.table, hwalked.index⟩

theorem ptwalk_spec (pgalloc : Pgalloc c) (as va : Nat) (hσ : Rooted u live σ.heap)
    (hlive : live as) (hva : u.allowed va) :
    (∃ text, ptwalk c pgalloc as va u.flags σ = .error (.panic text)) ∨
      ∃ loc σ' ps, ptwalk c pgalloc as va u.flags σ = .ok (loc, σ') ∧
        Walked u live as va σ σ' loc ps :=
  ptwalkFrom_spec pgalloc hva hlive (mmu c).pgtables (by cases c <;> simp [mmu]) (π := []) rfl hσ
    rfl

end OSLabs.Vme
