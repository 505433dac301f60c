import OSLabs.Lib.Run
import OSLabs.Vme.Boot
import OSLabs.Vme.Teardown

/-! # Runs of the memory manager

The caller protects, maps and unprotects address spaces in any order; it maps in and
unprotects only what it has protected. The log of a run tells what is mapped where and
which pages were obtained for whom, and in every state reached the memory agrees.
-/

namespace OSLabs.Vme

open OSLabs.Lib

/-! ## The calls -/

inductive Call where
  | protect (as : Nat)
  | map (as va pa prot : Nat)
  | unprotect (as : Nat)
  deriving DecidableEq, Repr

def Call.space : Call → Nat
  | protect as => as
  | map as _ _ _ => as
  | unprotect as => as

/-- A call that returned, with the calls of `pgalloc` and `pgfree` that it made. -/
structure Returned where
  call : Call
  events : List PgCall
  deriving DecidableEq, Repr

/-- The memory manager, and the address spaces that its caller knows to be protected. -/
structure System where
  mem : State
  live : Nat → Bool

def boot (σ₀ : State) : System := ⟨σ₀, fun _ => false⟩

section Step

variable (c : Arch) (pgalloc : Pgalloc c)

def exec : Call → State → Except Halt State
  | .protect as => protect c pgalloc as
  | .map as va pa prot => map c pgalloc as va pa prot
  | .unprotect as => unprotect c as

def Call.legal (live : Nat → Bool) : Call → Bool
  | protect _ => true
  | map as _ _ _ => live as
  | unprotect as => live as

def Call.liveAfter (live : Nat → Bool) : Call → Nat → Bool
  | protect as => Function.update live as true
  | map _ _ _ _ => live
  | unprotect as => Function.update live as false

def perform (call : Call) (s : System) : Option (List Returned × System) :=
  if call.legal s.live then
    match exec c pgalloc call s.mem with
    | .ok σ => some ([⟨call, σ.calls.drop s.mem.calls.length⟩], ⟨σ, call.liveAfter s.live⟩)
    | .error _ => none
  else none

def Step (s : System) (es : List Returned) (s' : System) : Prop :=
  ∃ call, perform c pgalloc call s = some (es, s')

end Step

/-! ## What a log says -/

def Spaces.apply (m : Spaces) : Call → Spaces
  | .protect as => m.protect as
  | .map as va pa prot => m.map as va pa prot
  | .unprotect as => m.unprotect as

/-- The protected address spaces, each with its latest mappings not yet undone. -/
def latest (log : List Returned) : Spaces := log.foldl (fun m e => m.apply e.call) fun _ => none

def Returned.obtained (e : Returned) : List Nat :=
  e.events.filterMap fun ev =>
    match ev with
    | .pgalloc p => some p
    | .pgfree _ => none

def record (led : Nat → List Nat) (e : Returned) : Nat → List Nat :=
  match e.call with
  | .protect as => Function.update led as e.obtained
  | .map as _ _ _ => Function.update led as (led as ++ e.obtained)
  | .unprotect as => Function.update led as []

/-- The pages that were obtained for each address space since it was protected. -/
def ledger (log : List Returned) : Nat → List Nat := log.foldl record fun _ => []

@[simp] theorem latest_snoc (log : List Returned) (e : Returned) :
    latest (log ++ [e]) = (latest log).apply e.call := by
  simp [latest]

@[simp] theorem ledger_snoc (log : List Returned) (e : Returned) :
    ledger (log ++ [e]) = record (ledger log) e := by
  simp [ledger]

theorem obtained_pgalloc (call : Call) (ps : List Nat) :
    (⟨call, ps.map .pgalloc⟩ : Returned).obtained = ps := by
  simp [Returned.obtained, List.filterMap_map]

/-! ## The invariant -/

structure Agrees (c : Arch) (σ₀ : State) (log : List Returned) (s : System) : Prop where
  refines : Refines c σ₀ (latest log) (ledger log) s.mem
  live : ∀ as, s.live as = (latest log as).isSome

variable {c : Arch} {pgalloc : Pgalloc c} {σ₀ : State} {s s' : System} {log es : List Returned}

theorem boot_agrees : Agrees c σ₀ [] (boot σ₀) where
  refines :=
    { rooted := by
        have hnone : ∀ {as}, ¬(latest [] : Spaces).Live as := by simp [latest, Spaces.Live]
        refine ⟨⟨?_, ?_⟩, fun h => absurd h hnone⟩
        · intro r π a hr
          rcases hr with ⟨as, h, _⟩
          exact absurd h hnone
        · intro r r' π π' a hr
          rcases hr with ⟨as, h, _⟩
          exact absurd h hnone
      kpt := rfl
      kernel := fun h => h
      holds := by simp [latest] }
  live _ := rfl

/-- What a call may do from a state that agrees with the log: panic, or lead to one that
agrees with the longer log. -/
theorem Agrees.exec_spec (pgalloc : Pgalloc c) (hboot : Booted c σ₀) (inv : Agrees c σ₀ log s)
    (call : Call)
    (hlegal : call.legal s.live = true) :
    (∃ text, exec c pgalloc call s.mem = .error (.panic text)) ∨
      ∃ σ' events, exec c pgalloc call s.mem = .ok σ' ∧ σ'.calls = s.mem.calls ++ events ∧
        Refines c σ₀ (latest (log ++ [⟨call, events⟩])) (ledger (log ++ [⟨call, events⟩])) σ' := by
  cases call with
  | protect as =>
      rcases protect_spec hboot inv.refines pgalloc as with herr | ⟨σ', q, hok, hcalls, href⟩
      · exact Or.inl herr
      · refine Or.inr ⟨σ', [.pgalloc q], hok, hcalls, ?_⟩
        rw [latest_snoc, ledger_snoc]
        exact href
  | map as va pa prot =>
      have hlive : (latest log).Live as := (inv.live as).symm.trans hlegal
      rcases map_spec inv.refines pgalloc hlive va pa prot with
        herr | ⟨σ', ps, hok, hcalls, _, _, _, href⟩
      · exact Or.inl herr
      · refine Or.inr ⟨σ', ps.map .pgalloc, hok, hcalls, ?_⟩
        rw [latest_snoc, ledger_snoc, record, obtained_pgalloc]
        exact href
  | unprotect as =>
      have hlive : (latest log).Live as := (inv.live as).symm.trans hlegal
      refine Or.inr ⟨_, (pagesOf (allTables c s.mem as)).map .pgfree,
        inv.refines.unprotect_eq hlive, rfl, ?_⟩
      rw [latest_snoc, ledger_snoc]
      exact inv.refines.unprotected hlive

theorem liveAfter_eq {m : Spaces} {live : Nat → Bool} (h : ∀ as, live as = (m as).isSome)
    (call : Call) (as : Nat) : call.liveAfter live as = (m.apply call as).isSome := by
  cases call with
  | protect as' =>
      by_cases hne : as = as'
      · simp [Call.liveAfter, Spaces.apply, Spaces.protect, hne]
      · simp [Call.liveAfter, Spaces.apply, Spaces.protect, hne, h]
  | map as' va pa prot =>
      have hmap := congrFun (Spaces.map_live m as' va pa prot) as
      rw [Call.liveAfter, h, Spaces.apply, Bool.eq_iff_iff]
      exact Iff.of_eq hmap.symm
  | unprotect as' =>
      by_cases hne : as = as'
      · simp [Call.liveAfter, Spaces.apply, Spaces.unprotect, hne]
      · simp [Call.liveAfter, Spaces.apply, Spaces.unprotect, hne, h]

theorem Agrees.performed (hboot : Booted c σ₀) (inv : Agrees c σ₀ log s) {call : Call}
    (hstep : perform c pgalloc call s = some (es, s')) :
    Agrees c σ₀ (log ++ es) s' ∧ ∃ events, es = [⟨call, events⟩] := by
  unfold perform at hstep
  split at hstep
  next hlegal =>
    rcases inv.exec_spec pgalloc hboot call hlegal with
      ⟨text, herr⟩ | ⟨σ', events, hok, hcalls, href⟩
    · simp [herr] at hstep
    · simp only [hok, Option.some.injEq, Prod.mk.injEq] at hstep
      rcases hstep with ⟨rfl, rfl⟩
      have hdrop : σ'.calls.drop s.mem.calls.length = events := by simp [hcalls]
      refine ⟨⟨by rw [hdrop]; exact href, ?_⟩, events, by rw [hdrop]⟩
      intro as
      rw [latest_snoc]
      exact liveAfter_eq inv.live call as
  next => cases hstep

theorem run_agrees (hboot : Booted c σ₀)
    (run : Run anyStep (Step c pgalloc) (boot σ₀) log s) : Agrees c σ₀ log s := by
  apply run.invariant (Agrees c σ₀) boot_agrees
  intro log es s s' _ _ inv hstep
  rcases hstep with ⟨call, hperform⟩
  exact (inv.performed hboot hperform).1

/-- The tables that `vmeInit` leaves are those of the kernel. -/
theorem booted_of_init {cpu : Nat} (h : vmeInit c pgalloc cpu (start c) = .ok σ₀) :
    Booted c σ₀ := by
  rcases vmeInit_spec c pgalloc cpu with ⟨text, herr⟩ | ⟨σ, hok, hbooted⟩
  · rw [herr] at h
    cases h
  · rw [hok] at h
    exact Except.ok.inj h ▸ hbooted

end OSLabs.Vme
