import OSLabs.Vme.Refinement

/-! # What `unprotect` frees

In every state of every run `unprotect` returns, so no table is read after it was freed,
and the pages it frees are the pages obtained for its address space since `protect`, each
once. None of them belongs to the kernel, to another address space or, as long as the user
maps no page table, to the user.
-/

namespace OSLabs.Vme

open OSLabs.Lib

variable {c : Arch} {pgalloc : Pgalloc c} {σ₀ : State} {s s' : System} {log es : List Returned}

/-! ## Pages in one use -/

def Mapped (m : Spaces) (p : Nat) : Prop :=
  ∃ as f va mp, m as = some f ∧ f va = some mp ∧ mp.pa = p

/-- `pgalloc` gives out no page that is mapped. -/
def FreshPages (log : List Returned) : Prop :=
  ∀ before e after, log = before ++ e :: after → ∀ p ∈ e.obtained, ¬Mapped (latest before) p

/-- The caller maps no page table. -/
def MapsNoTable (log : List Returned) : Prop :=
  ∀ before e after, log = before ++ e :: after →
    ∀ as va pa prot, e.call = .map as va pa prot → prot ≠ mmapNone →
      ∀ as', pa ∉ ledger (before ++ [e]) as'

def OneUse (log : List Returned) : Prop := FreshPages log ∧ MapsNoTable log

theorem mapped_apply {m : Spaces} {call : Call} {p : Nat} (h : Mapped (m.apply call) p) :
    Mapped m p ∨ ∃ as va prot, call = .map as va p prot ∧ prot ≠ mmapNone := by
  rcases h with ⟨as, f, va, mp, hf, hmp, hp⟩
  have old : m as = some f → Mapped m p := fun hf => ⟨as, f, va, mp, hf, hmp, hp⟩
  cases call with
  | protect as' =>
      by_cases has : as = as'
      · rw [Spaces.apply, Spaces.protect, has, Function.update_self] at hf
        rw [← Option.some.inj hf] at hmp
        cases hmp
      · rw [Spaces.apply, Spaces.protect, Function.update_of_ne has] at hf
        exact Or.inl (old hf)
  | map as' va' pa prot =>
      by_cases has : as = as'
      · rw [Spaces.apply, Spaces.map, has, Function.update_self] at hf
        rcases Option.map_eq_some_iff.1 hf with ⟨g, hg, hgf⟩
        rw [← hgf] at hmp
        by_cases hva : va = va'
        · rw [hva, Function.update_self] at hmp
          by_cases hprot : prot = mmapNone
          · simp [hprot] at hmp
          · rw [if_neg hprot] at hmp
            have hpa : pa = p := by
              rw [← hp, ← Option.some.inj hmp]
            exact Or.inr ⟨as', va', prot, by rw [hpa], hprot⟩
        · rw [Function.update_of_ne hva] at hmp
          exact Or.inl ⟨as', g, va, mp, hg, hmp, hp⟩
      · rw [Spaces.apply, Spaces.map, Function.update_of_ne has] at hf
        exact Or.inl (old hf)
  | unprotect as' =>
      by_cases has : as = as'
      · rw [Spaces.apply, Spaces.unprotect, has, Function.update_self] at hf
        cases hf
      · rw [Spaces.apply, Spaces.unprotect, Function.update_of_ne has] at hf
        exact Or.inl (old hf)

theorem mem_record {led : Nat → List Nat} {e : Returned} {as p : Nat}
    (h : p ∈ record led e as) : p ∈ led as ∨ p ∈ e.obtained := by
  have upd : ∀ {l : List Nat} {as' : Nat}, p ∈ Function.update led as' l as →
      p ∈ led as ∨ as = as' ∧ p ∈ l := by
    intro l as' h
    by_cases has : as = as'
    · rw [has, Function.update_self] at h
      exact Or.inr ⟨has, h⟩
    · rw [Function.update_of_ne has] at h
      exact Or.inl h
  rw [record] at h
  cases hcall : e.call with
  | protect as' =>
      rw [hcall] at h
      rcases upd h with h | ⟨_, h⟩
      · exact Or.inl h
      · exact Or.inr h
  | map as' va pa prot =>
      rw [hcall] at h
      rcases upd h with h | ⟨has, h⟩
      · exact Or.inl h
      · rw [has]
        exact List.mem_append.1 h
  | unprotect as' =>
      rw [hcall] at h
      rcases upd h with h | ⟨_, h⟩
      · exact Or.inl h
      · cases h

theorem OneUse.not_mapped (h : OneUse log) {as p : Nat} (hp : p ∈ ledger log as) :
    ¬Mapped (latest log) p := by
  induction log using List.reverseRec generalizing as p with
  | nil => simp [ledger] at hp
  | append_singleton log e ih =>
      have hlog : OneUse log := by
        constructor
        · intro before e' after heq
          exact h.1 before e' (after ++ [e]) (by rw [heq]; simp)
        · intro before e' after heq
          exact h.2 before e' (after ++ [e]) (by rw [heq]; simp)
      intro hmapped
      rw [latest_snoc] at hmapped
      rcases mapped_apply hmapped with hold | ⟨as', va, prot, hcall, hprot⟩
      · rw [ledger_snoc] at hp
        rcases mem_record hp with hold' | hnew
        · exact ih hlog hold' hold
        · exact h.1 log e [] rfl p hnew hold
      · exact h.2 log e [] rfl as' va p prot hcall hprot as hp

/-! ## Calls that use no page twice -/

def Call.page : Call → Option Nat
  | .map _ _ pa prot => if prot = mmapNone then none else some pa
  | _ => none

theorem Mapped.exists_call {p : Nat} (h : Mapped (latest log) p) :
    ∃ e ∈ log, e.call.page = some p := by
  induction log using List.reverseRec with
  | nil =>
      obtain ⟨as, f, va, mp, hf, -, -⟩ := h
      cases hf
  | append_singleton log e ih =>
      rw [latest_snoc] at h
      rcases mapped_apply h with h | ⟨as, va, prot, hcall, hprot⟩
      · obtain ⟨e', he', hpage⟩ := ih h
        exact ⟨e', List.mem_append_left _ he', hpage⟩
      · refine ⟨e, List.mem_append_right _ List.mem_cons_self, ?_⟩
        rw [hcall]
        exact if_neg hprot

theorem mem_ledger {as p : Nat} (h : p ∈ ledger log as) : ∃ e ∈ log, p ∈ e.obtained := by
  induction log using List.reverseRec with
  | nil => cases h
  | append_singleton log e ih =>
      rw [ledger_snoc] at h
      rcases mem_record h with h | h
      · obtain ⟨e', he', hp⟩ := ih h
        exact ⟨e', List.mem_append_left _ he', hp⟩
      · exact ⟨e, List.mem_append_right _ List.mem_cons_self, h⟩

def ObtainsFresh (log : List Returned) : Prop :=
  log.Pairwise fun e' e => ∀ p ∈ e.obtained, e'.call.page ≠ some p

instance (log : List Returned) : Decidable (ObtainsFresh log) :=
  inferInstanceAs (Decidable (List.Pairwise _ log))

theorem freshPages_of_obtainsFresh (h : ObtainsFresh log) : FreshPages log := by
  rintro before e after rfl p hp hmapped
  obtain ⟨e', he', hpage⟩ := hmapped.exists_call
  exact (List.pairwise_append.1 h).2.2 e' he' e List.mem_cons_self p hp hpage

def KeepsApart (log : List Returned) : Prop :=
  ∀ e ∈ log, ∀ e' ∈ log, ∀ p ∈ e.obtained, e'.call.page ≠ some p

instance (log : List Returned) : Decidable (KeepsApart log) :=
  inferInstanceAs (Decidable (∀ e ∈ log, _))

theorem oneUse_of_keepsApart (h : KeepsApart log) : OneUse log := by
  constructor
  · rintro before e after rfl p hp hmapped
    obtain ⟨e', he', hpage⟩ := hmapped.exists_call
    exact h e (by simp) e' (List.mem_append_left _ he') p hp hpage
  · rintro before e after rfl as va pa prot hcall hprot as' hp
    obtain ⟨e', he', hobtained⟩ := mem_ledger hp
    have hmem : e' ∈ before ++ e :: after := by
      simp only [List.mem_append, List.mem_cons, List.not_mem_nil, or_false] at he' ⊢
      exact he'.imp id .inl
    refine h e' hmem e (by simp) pa hobtained ?_
    rw [hcall]
    exact if_neg hprot

/-! ## The theorem -/

/-- `unprotect` returns, having freed the pages that `protect` and `ptwalk` obtained for
the address space, each once, and no other page. -/
theorem unprotect_frees_tables (c : Arch) (pgalloc : Pgalloc c) {cpu : Nat} {σ₀ : State}
    (hinit : vmeInit c pgalloc cpu (start c) = .ok σ₀) {log : List Returned} {s : System}
    (run : Run anyStep (Step c pgalloc) (boot σ₀) log s) {as : Nat}
    (hlive : (latest log as).isSome) :
    ∃ (pages : List Nat) (s' : System), perform c pgalloc (.unprotect as) s =
        some ([⟨.unprotect as, pages.map .pgfree⟩], s') ∧
      pages.Perm (ledger log as) ∧ pages.Nodup ∧
      (∀ p ∈ pages, σ₀.pages p = none) ∧
      (∀ as', as' ≠ as → (latest log as').isSome → ∀ p ∈ pages, p ∉ ledger log as') ∧
      (OneUse log → ∀ p ∈ pages, ¬Mapped (latest log) p) := by
  have hboot := booted_of_init hinit
  have inv := run_agrees hboot run
  have ref := inv.refines
  have hperm := ref.freed_perm hlive
  have howns : ∀ {p}, p ∈ pagesOf (allTables c s.mem as) → Owns c s.mem as p :=
    (ref.mem_pages hlive).1
  refine ⟨pagesOf (allTables c s.mem as),
    ⟨freed s.mem (allTables c s.mem as), (Call.unprotect as).liveAfter s.live⟩, ?_, hperm,
    pagesOf_nodup (ref.nodup_allTables hlive), ?_, ?_, ?_⟩
  · have hlegal : (Call.unprotect as).legal s.live = true := (inv.live as).trans hlive
    rw [perform, if_pos hlegal]
    simp only [exec, ref.unprotect_eq hlive, freed, List.drop_left]
  · intro p hp
    rcases Option.isSome_iff_exists.1 hlive with ⟨f, hf⟩
    exact (ref.holds hf).apart (howns hp)
  · intro as' hne hlive' p hp hp'
    rcases Option.isSome_iff_exists.1 hlive' with ⟨f, hf⟩
    exact hne (ref.owner hlive' hlive ((ref.holds hf).owns.1 hp') (howns hp))
  · intro hone p hp
    exact hone.not_mapped (hperm.mem_iff.1 hp)

/-- Of two address spaces, the one with two last-level tables gives back five pages. -/
theorem unprotect_frees_tables_twoSpaces :
    ∃ (σ₀ : State) (log : List Returned) (s : System) (pages : List Nat) (s' : System),
    vmeInit .x86_64 (bumpAlloc .x86_64) 0 (start .x86_64) = .ok σ₀ ∧
      Run anyStep (Step .x86_64 (bumpAlloc .x86_64)) (boot σ₀) log s ∧
      perform .x86_64 (bumpAlloc .x86_64) (.unprotect 1) s =
        some ([⟨.unprotect 1, pages.map .pgfree⟩], s') ∧
      pages.Perm [0x100000, 0x102000, 0x103000, 0x104000, 0x108000] ∧
      OneUse log ∧ ∀ p ∈ pages, ¬Mapped (latest log) p := by
  have hinit : vmeInit .x86_64 (bumpAlloc .x86_64) 0 (start .x86_64) =
      .ok { start .x86_64 with kpt := pml4Addr } := rfl
  have hrun := exists_run_of_replay anyStep (Step .x86_64 (bumpAlloc .x86_64))
    (boot { start .x86_64 with kpt := pml4Addr }) (fun _ _ => true) (fun _ _ _ => trivial)
    (fun call _ _ _ h => ⟨call, h⟩)
    [.protect 1, .protect 2, .map 1 0x100000001000 0x5000 3, .map 2 0x100000001000 0x5000 1,
      .map 1 0x100000200000 0x6000 1, .map 1 0x100000001000 0 0]
    (fun log _ => decide ((latest log 1).isSome = true ∧
      ledger log 1 = [0x100000, 0x102000, 0x103000, 0x104000, 0x108000] ∧ KeepsApart log))
    (by decide +kernel)
  obtain ⟨log, s, run, hlog⟩ := hrun
  obtain ⟨hlive, hledger, hapart⟩ := of_decide_eq_true hlog
  have hone := oneUse_of_keepsApart hapart
  obtain ⟨pages, s', hstep, hperm, -, -, -, hunmapped⟩ :=
    unprotect_frees_tables .x86_64 (bumpAlloc .x86_64) hinit run hlive
  exact ⟨_, log, s, pages, s', hinit, run, hstep, hledger ▸ hperm, hone, hunmapped hone⟩

/-- The user maps the top table of the address space, and `unprotect` frees a mapped page. -/
theorem unprotect_frees_mapped :
    ∃ (σ₀ : State) (log : List Returned) (s : System) (pages : List Nat) (s' : System),
    vmeInit .x86_64 (bumpAlloc .x86_64) 0 (start .x86_64) = .ok σ₀ ∧
      Run anyStep (Step .x86_64 (bumpAlloc .x86_64)) (boot σ₀) log s ∧ FreshPages log ∧
      (latest log 1).isSome = true ∧
      perform .x86_64 (bumpAlloc .x86_64) (.unprotect 1) s =
        some ([⟨.unprotect 1, pages.map .pgfree⟩], s') ∧
      0x100000 ∈ pages ∧ Mapped (latest log) 0x100000 := by
  have hinit : vmeInit .x86_64 (bumpAlloc .x86_64) 0 (start .x86_64) =
      .ok { start .x86_64 with kpt := pml4Addr } := rfl
  have hrun := exists_run_of_replay anyStep (Step .x86_64 (bumpAlloc .x86_64))
    (boot { start .x86_64 with kpt := pml4Addr }) (fun _ _ => true) (fun _ _ _ => trivial)
    (fun call _ _ _ h => ⟨call, h⟩)
    [.protect 1, .map 1 0x100000001000 0x100000 3]
    (fun log s => decide (ObtainsFresh log ∧
      ((latest log 1).map fun f => f 0x100000001000) = some (some ⟨0x100000, 3⟩) ∧
      ((perform .x86_64 (bumpAlloc .x86_64) (.unprotect 1) s).map fun r => r.1) =
        some [⟨.unprotect 1,
          [0x103000, 0x102000, 0x101000, 0x100000].map .pgfree⟩]))
    (by decide +kernel)
  obtain ⟨log, s, run, hlog⟩ := hrun
  obtain ⟨hfresh, hmap, hstep⟩ := of_decide_eq_true hlog
  obtain ⟨f, hf, hmp⟩ := Option.map_eq_some_iff.1 hmap
  obtain ⟨⟨es, s'⟩, hperform, hes⟩ := Option.map_eq_some_iff.1 hstep
  refine ⟨_, log, s, [0x103000, 0x102000, 0x101000, 0x100000], s', hinit, run,
    freshPages_of_obtainsFresh hfresh, ?_, ?_, by simp, ⟨1, f, _, _, hf, hmp, rfl⟩⟩
  · rw [hf]
    rfl
  · rw [hperform]
    exact congrArg (fun es => some (es, s')) hes

end OSLabs.Vme
