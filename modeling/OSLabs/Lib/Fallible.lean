import Mathlib.Data.List.Basic

/-! # Computations that may fail

What a sequence or a loop of such computations has done when it ends or stops, without and
with a state.
-/

namespace OSLabs.Lib

variable {ε α β : Type}

theorem bind_eq_ok {x : Except ε α} {f : α → Except ε β} {b : β} :
    (x >>= f) = .ok b ↔ ∃ a, x = .ok a ∧ f a = .ok b := by
  cases x with
  | error e => simp [bind, Except.bind]
  | ok a => simp [bind, Except.bind]

theorem bind_eq_error {x : Except ε α} {f : α → Except ε β} {e : ε} :
    (x >>= f) = .error e ↔ x = .error e ∨ ∃ a, x = .ok a ∧ f a = .error e := by
  cases x with
  | error e' => simp [bind, Except.bind]
  | ok a => simp [bind, Except.bind]

/-! ## With a state -/

section Stateful

variable {σ : Type} {p : EStateM ε σ α} {f : α → EStateM ε σ β} {s s' : σ}

theorem bind_of_ok {a : α} (h : p s = .ok a s') : (p >>= f) s = f a s' := by
  simp only [bind, EStateM.bind, h]

theorem bind_of_error {e : ε} (h : p s = .error e s') : (p >>= f) s = .error e s' := by
  simp only [bind, EStateM.bind, h]

def finalState : EStateM.Result ε σ α → σ
  | .ok _ s => s
  | .error _ s => s

/-- Wherever the computation ends or stops, the state is related to the one before it. -/
def Keeps (R : σ → σ → Prop) (p : EStateM ε σ α) : Prop := ∀ s, R s (finalState (p s))

variable {R : σ → σ → Prop}

theorem Keeps.pure (refl : ∀ s, R s s) (a : α) : Keeps R (pure a : EStateM ε σ α) := refl

theorem Keeps.throw (refl : ∀ s, R s s) (e : ε) : Keeps R (throw e : EStateM ε σ α) := refl

theorem Keeps.bind (trans : ∀ {s₁ s₂ s₃}, R s₁ s₂ → R s₂ s₃ → R s₁ s₃) (hp : Keeps R p)
    (hf : ∀ a, Keeps R (f a)) : Keeps R (p >>= f) := by
  intro s
  have hfirst := hp s
  cases hrun : p s with
  | error e s' =>
      rw [bind_of_error hrun]
      rwa [hrun] at hfirst
  | ok a s' =>
      rw [bind_of_ok hrun]
      rw [hrun] at hfirst
      exact trans hfirst (hf a s')

theorem Keeps.forM (refl : ∀ s, R s s) (trans : ∀ {s₁ s₂ s₃}, R s₁ s₂ → R s₂ s₃ → R s₁ s₃)
    {body : α → EStateM ε σ Unit} (hbody : ∀ a, Keeps R (body a)) (l : List α) :
    Keeps R (l.forM body) := by
  induction l with
  | nil => exact Keeps.pure refl ()
  | cons a l ih => exact Keeps.bind trans (hbody a) fun _ => ih

/-! ## Loops -/

variable {body : α → EStateM ε σ Unit} {l : List α} {u : Unit}

theorem forM_of_ok {g : σ → α → σ} (h : ∀ a ∈ l, ∀ s, body a s = .ok () (g s a)) :
    l.forM body s = .ok () (l.foldl g s) := by
  induction l generalizing s with
  | nil => rfl
  | cons a l ih =>
      exact (bind_of_ok (h a List.mem_cons_self s)).trans
        (ih fun b hb => h b (List.mem_cons_of_mem a hb))

/-- A loop that ends has ended every round. -/
theorem forM_ok_mem (h : l.forM body s = .ok u s') {a : α} (ha : a ∈ l) :
    ∃ s₁ s₂, body a s₁ = .ok () s₂ := by
  induction l generalizing s with
  | nil => cases ha
  | cons b l ih =>
      cases hb : body b s with
      | error e s₁ => exact nomatch (bind_of_error hb).symm.trans h
      | ok u₁ s₁ =>
          rcases List.mem_cons.1 ha with rfl | ha
          · exact ⟨s, s₁, hb⟩
          · exact ih ((bind_of_ok hb).symm.trans h) ha

/-- A loop that stops has been stopped by a round. -/
theorem forM_error_mem {e : ε} (h : l.forM body s = .error e s') :
    ∃ a ∈ l, ∃ s₁, body a s₁ = .error e s' := by
  induction l generalizing s with
  | nil => cases h
  | cons b l ih =>
      cases hb : body b s with
      | error e₁ s₁ =>
          cases (bind_of_error hb).symm.trans h
          exact ⟨b, List.mem_cons_self, s, hb⟩
      | ok u₁ s₁ =>
          obtain ⟨a, ha, hstop⟩ := ih ((bind_of_ok hb).symm.trans h)
          exact ⟨a, List.mem_cons_of_mem b ha, hstop⟩

end Stateful

end OSLabs.Lib
