import OSLabs.Vme.PageWalk
import OSLabs.Vme.System

/-! # Page tables implement address spaces

In every state of every run, what the processor finds by walking the tables of an
address space is what the log says is mapped there, and a call changes the walks of its
own page and address space only.
-/

namespace OSLabs.Vme

open OSLabs.Lib

variable {c : Arch} {pgalloc : Pgalloc c} {σ₀ : State} {s s' : System} {log es : List Returned}

def Call.touches : Call → Nat → Nat → Prop
  | protect as', as, _ => as = as'
  | map as' va' _ _, as, va => as = as' ∧ va / 4096 = va' / 4096
  | unprotect as', as, _ => as = as'

theorem Spaces.apply_of_not_touches {m : Spaces} {call : Call} {as va : Nat}
    {f : Nat → Option Mapping} (hf : m as = some f) (h : ¬call.touches as va)
    (haligned : ∀ as' va' pa prot, call = .map as' va' pa prot → va' % 4096 = 0) :
    ∃ f', m.apply call as = some f' ∧ f' (va - va % 4096) = f (va - va % 4096) := by
  cases call with
  | protect as' =>
      exact ⟨f, by rw [Spaces.apply, Spaces.protect, Function.update_of_ne h, hf], rfl⟩
  | map as' va' pa prot =>
      by_cases has : as = as'
      · have hpage : va / 4096 ≠ va' / 4096 := fun heq => h ⟨has, heq⟩
        have hround := haligned as' va' pa prot rfl
        have hne : va - va % 4096 ≠ va' := by omega
        refine ⟨_, by rw [Spaces.apply, Spaces.map, has, Function.update_self, ← has, hf]; rfl, ?_⟩
        exact Function.update_of_ne hne ..
      · exact ⟨f, by rw [Spaces.apply, Spaces.map, Function.update_of_ne has, hf], rfl⟩
  | unprotect as' =>
      exact ⟨f, by rw [Spaces.apply, Spaces.unprotect, Function.update_of_ne h, hf], rfl⟩

/-- `map` returns for page-aligned addresses only. -/
theorem Agrees.map_aligned (inv : Agrees c σ₀ log s) {call : Call}
    (hstep : perform c pgalloc call s = some (es, s')) :
    ∀ as va pa prot, call = .map as va pa prot → va % 4096 = 0 := by
  intro as va pa prot hcall
  subst hcall
  unfold perform at hstep
  split at hstep
  next hlegal =>
    have hlive : (latest log).Live as := (inv.live as).symm.trans hlegal
    rcases map_spec inv.refines pgalloc hlive va pa prot with
      ⟨text, herr⟩ | ⟨σ', ps, _, _, _, haligned, _, _⟩
    · simp [exec, herr] at hstep
    · exact haligned
  next => cases hstep

/-- A call changes no walk but those of what it is about. -/
theorem Agrees.frame (hboot : Booted c σ₀) (inv : Agrees c σ₀ log s) {call : Call}
    (hstep : perform c pgalloc call s = some (es, s')) {as va : Nat}
    (hlive : (latest log as).isSome) (hva : va < 2 ^ c.linear) (h : ¬call.touches as va) :
    spaceWalk c s'.mem as va = spaceWalk c s.mem as va := by
  rcases Option.isSome_iff_exists.1 hlive with ⟨f, hf⟩
  rcases inv.performed hboot hstep with ⟨inv', events, rfl⟩
  rcases Spaces.apply_of_not_touches hf h (inv.map_aligned hstep) with ⟨f', hf', hsame⟩
  rw [← latest_snoc log ⟨call, events⟩] at hf'
  rw [inv'.refines.spaceWalk_spec hboot hf' hva, inv.refines.spaceWalk_spec hboot hf hva,
    specWalk, specWalk, hsame]

/-- A legal call returns or panics; it never meets a table that is not there. -/
theorem call_returns_or_panics {cpu : Nat} (hinit : vmeInit c pgalloc cpu (start c) = .ok σ₀)
    (run : Run anyStep (Step c pgalloc) (boot σ₀) log s) (call : Call)
    (hlegal : call.legal s.live = true) :
    (∃ text, exec c pgalloc call s.mem = .error (.panic text)) ∨
      ∃ es s', perform c pgalloc call s = some (es, s') := by
  have hboot := booted_of_init hinit
  rcases (run_agrees hboot run).exec_spec pgalloc hboot call hlegal with
    herr | ⟨σ', events, hok, _, _⟩
  · exact Or.inl herr
  · exact Or.inr ⟨_, _, by rw [perform, if_pos hlegal, hok]⟩

/-- In every state of every run: in the user area the walk from `as->ptr` finds the latest
mapping of the page that was not undone, with its physical page and permissions, and
nothing where there is none; in a kernel area it ends as the walk from `kpt` does; and the
next call changes the walks of no other page and no other address space. -/
theorem page_tables_implement_map (c : Arch) (pgalloc : Pgalloc c) {cpu : Nat} {σ₀ : State}
    (hinit : vmeInit c pgalloc cpu (start c) = .ok σ₀) {log : List Returned} {s : System}
    (run : Run anyStep (Step c pgalloc) (boot σ₀) log s) :
    (∀ as f, latest log as = some f → ∀ va,
      (inRange va (uvmArea c) → spaceWalk c s.mem as va = walkOf c (f (va - va % 4096))) ∧
      (InKernelArea c va → spaceWalk c s.mem as va = pageWalk c s.mem s.mem.kpt va)) ∧
    (∀ as f va mp, latest log as = some f → f va = some mp →
      mp.pa < 2 ^ c.physical → (leafOf c mp).page = mp.pa) ∧
    ∀ call es s', perform c pgalloc call s = some (es, s') → ∀ as va,
      (latest log as).isSome → va < 2 ^ c.linear → ¬call.touches as va →
      spaceWalk c s'.mem as va = spaceWalk c s.mem as va := by
  have hboot := booted_of_init hinit
  have inv := run_agrees hboot run
  refine ⟨?_, ?_, ?_⟩
  · intro as f hf va
    constructor
    · intro hva
      exact inv.refines.spaceWalk_user hf hva
    · intro hva
      exact inv.refines.spaceWalk_kernel hboot hf ((kernelTop_iff hva.lt_linear).2 hva)
  · intro as f va mp hf hmp hlt
    exact frame_page ((inv.refines.holds hf).aligned hmp) hlt
  · intro call es s' hstep as va hlive hva h
    exact inv.frame hboot hstep hlive hva h

/-- Pages from 1 MiB on, one after the other. -/
def bumpAlloc (c : Arch) : Pgalloc c where
  answer calls pages :=
    let p := 0x100000 + 4096 * calls.length
    if IsPage c p ∧ (pages p).isNone then some p else none
  fresh := by
    intro calls pages p h
    simp only [Option.ite_none_right_eq_some, Option.some.injEq, Option.isNone_iff_eq_none] at h
    exact h.2 ▸ h.1

theorem page_tables_implement_map_twoSpaces : ∃ σ₀ log s,
    vmeInit .x86_64 (bumpAlloc .x86_64) 0 (start .x86_64) = .ok σ₀ ∧
      Run anyStep (Step .x86_64 (bumpAlloc .x86_64)) (boot σ₀) log s ∧
      spaceWalk .x86_64 s.mem 1 0x100000001234 =
        .present ⟨0x5007, 0x5000, 12, true, true⟩ ∧
      spaceWalk .x86_64 s.mem 2 0x100000001234 =
        .present ⟨0x6005, 0x6000, 12, false, true⟩ ∧
      spaceWalk .x86_64 s.mem 2 0x100000200000 = .absent := by
  have hinit : vmeInit .x86_64 (bumpAlloc .x86_64) 0 (start .x86_64) =
      .ok { start .x86_64 with kpt := pml4Addr } := rfl
  have hrun := exists_run_of_replay anyStep (Step .x86_64 (bumpAlloc .x86_64))
    (boot { start .x86_64 with kpt := pml4Addr }) (fun _ _ => true) (fun _ _ _ => trivial)
    (fun call _ _ _ h => ⟨call, h⟩)
    [.protect 1, .map 1 0x100000001000 0x5000 3, .protect 2, .map 2 0x100000001000 0x6000 1,
      .map 2 0x100000200000 0x7000 1, .map 2 0x100000200000 0 0]
    (fun log _ =>
      decide (((latest log 1).map fun f => f 0x100000001000) = some (some ⟨0x5000, 3⟩)) &&
      decide (((latest log 2).map fun f => (f 0x100000001000, f 0x100000200000)) =
        some (some ⟨0x6000, 1⟩, none)))
    (by decide +kernel)
  rcases hrun with ⟨log, s, run, hlog⟩
  rw [Bool.and_eq_true, decide_eq_true_eq, decide_eq_true_eq, Option.map_eq_some_iff,
    Option.map_eq_some_iff] at hlog
  rcases hlog with ⟨⟨f, hf, hf₁⟩, g, hg, hg₂⟩
  have hmap := (page_tables_implement_map .x86_64 (bumpAlloc .x86_64) hinit run).1
  refine ⟨_, log, s, hinit, run, ?_, ?_, ?_⟩
  · rw [(hmap 1 f hf 0x100000001234).1 (by decide)]
    show walkOf .x86_64 (f 0x100000001000) = _
    rw [hf₁]
    decide
  · rw [(hmap 2 g hg 0x100000001234).1 (by decide)]
    show walkOf .x86_64 (g 0x100000001000) = _
    rw [(Prod.mk.inj hg₂).1]
    decide
  · rw [(hmap 2 g hg 0x100000200000).1 (by decide)]
    show walkOf .x86_64 (g 0x100000200000) = _
    rw [(Prod.mk.inj hg₂).2]
    rfl

end OSLabs.Vme
