/-! # Runs of a labelled step relation

A step relation over states `σ` emits a list of events of type `ε`. A run keeps
the whole event log, so a property of a run is a property of its log and its last
state. The guard `ok` restricts the states from which a step may be taken;
`anyStep` is the guard of an unrestricted run.
-/

namespace OSLabs.Lib

variable {σ ε : Type}

/-- The runs of `step` from `s₀` all of whose steps are taken where `ok` holds. -/
inductive Run (ok : List ε → σ → Prop) (step : σ → List ε → σ → Prop) (s₀ : σ) :
    List ε → σ → Prop where
  | start : Run ok step s₀ [] s₀
  | snoc {log es : List ε} {s s' : σ} :
      Run ok step s₀ log s → ok log s → step s es s' → Run ok step s₀ (log ++ es) s'

def anyStep (_ : List ε) (_ : σ) : Prop := True

variable {ok : List ε → σ → Prop} {step : σ → List ε → σ → Prop} {s₀ s : σ}
  {log : List ε}

/-- What holds at the start and is kept by every guarded step holds along the run.
The step may use that its own source state was reached by a guarded run. -/
theorem Run.invariant (I : List ε → σ → Prop) (base : I [] s₀)
    (keep : ∀ {log es : List ε} {s s' : σ}, Run ok step s₀ log s → ok log s → I log s →
      step s es s' → I (log ++ es) s')
    (run : Run ok step s₀ log s) : I log s := by
  induction run with
  | start => exact base
  | snoc prior hok hstep ih => exact keep prior hok ih hstep

theorem Run.mono {step' : σ → List ε → σ → Prop}
    (h : ∀ {s es s'}, step s es s' → step' s es s') (run : Run ok step s₀ log s) :
    Run ok step' s₀ log s := by
  induction run with
  | start => exact .start
  | snoc _ hok hstep ih => exact ih.snoc hok (h hstep)

/-! ## Concrete runs -/

/-- Take the steps that `next` computes for the given inputs, as long as `okb` holds. -/
def replay {ι : Type} (okb : List ε → σ → Bool) (next : ι → σ → Option (List ε × σ)) :
    List ι → List ε × σ → Option (List ε × σ)
  | [], c => some c
  | i :: is, c =>
    if okb c.1 c.2 then
      match next i c.2 with
      | some r => replay okb next is (c.1 ++ r.1, r.2)
      | none => none
    else none

/-- A replay is a run, and what it computes can be read off by evaluation. -/
theorem exists_run_of_replay {ι : Type} {next : ι → σ → Option (List ε × σ)}
    (ok : List ε → σ → Prop) (step : σ → List ε → σ → Prop) (s₀ : σ) (okb : List ε → σ → Bool)
    (hok : ∀ log s, okb log s = true → ok log s)
    (hnext : ∀ i s es s', next i s = some (es, s') → step s es s')
    (is : List ι) (p : List ε → σ → Bool)
    (h : (replay okb next is ([], s₀)).any (fun c => p c.1 c.2) = true) :
    ∃ log s, Run ok step s₀ log s ∧ p log s = true := by
  have key : ∀ (is : List ι) (c c' : List ε × σ), Run ok step s₀ c.1 c.2 →
      replay okb next is c = some c' → Run ok step s₀ c'.1 c'.2 := by
    intro is
    induction is with
    | nil =>
        intro c c' run hc
        simp only [replay, Option.some.injEq] at hc
        exact hc ▸ run
    | cons i is ih =>
        intro c c' run hc
        unfold replay at hc
        split at hc
        next hokb =>
          split at hc
          next r hr => exact ih _ _ (run.snoc (hok _ _ hokb) (hnext _ _ _ _ hr)) hc
          next => simp at hc
        next => simp at hc
  cases hc : replay okb next is ([], s₀) with
  | none => simp [hc] at h
  | some c =>
      rw [hc, Option.any_some] at h
      exact ⟨c.1, c.2, key is _ c .start hc, h⟩

end OSLabs.Lib
