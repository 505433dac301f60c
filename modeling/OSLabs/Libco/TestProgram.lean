import OSLabs.Libco.Schedules

/-! # The test program

In `main` the two workers of the first test come first, and the second test goes on with the
count that they leave.
-/

namespace OSLabs.Libco.Tests

open Lib (Run anyStep)

/-! ## From the source -/

structure First where
  gCount : Nat
  /-- `i` of a worker that has not returned. -/
  work : Which → Option Nat
  /-- In the second call of `co_wait`. -/
  second : Bool

def First.setWork (s : First) (w : Which) (value : Option Nat) : First :=
  { s with work := Function.update s.work w value }

def argument : Which → List Char
  | .one => "X".toList
  | .two => "Y".toList

/-- What `printf` writes with `"%s%d"`. -/
def mark (w : Which) (n : Nat) : List Char := argument w ++ Nat.toDigits 10 n

inductive Program where
  | first (s : First)
  | second (s : State)

/-- Who goes on; for `main` also the memory with what `q_new` allocates in it. -/
inductive ProgramTurn where
  | worker (w : Which)
  | main (m : Lists) (list : Ptr)
  | second (t : Turn)

def ProgramTurn.fails : ProgramTurn → Bool
  | .second t => t.fails
  | _ => false

/-- `work_loop` up to its next call of `co_yield`. -/
def workLoop (w : Which) (s : First) : Option (List (List Char) × First) :=
  match s.work w with
  | none => none
  | some i =>
    if i < 100 then
      some ([mark w s.gCount], { s with gCount := s.gCount + 1 }.setWork w (some (i + 1)))
    else some ([], s.setWork w none)

def programStep (t : ProgramTurn) (c : Program) :
    Except Fault (Option (List (List Char) × Program)) :=
  match t, c with
  | .worker w, .first s => .ok ((workLoop w s).map fun r => (r.1, .first r.2))
  | .main m list, .first s =>
    if s.second then
      .ok (if s.work .two = none then some ([], .second (start s.gCount m list)) else none)
    else .ok (if s.work .one = none then some ([], .first { s with second := true }) else none)
  | .second t, .second s => (step t s).map fun r => r.map fun r => (r.1, .second r.2)
  | _, _ => .ok none

def program : Program := .first ⟨0, fun _ => some 0, false⟩

def Program.Done : Program → Prop
  | first _ => False
  | second s => s.main = .done

/-- A turn, in which calls of `malloc` in `do_produce` fail only if `mayFail` is set. -/
def ProgramNext (mayFail : Bool) (c : Program) (texts : List (List Char)) (c' : Program) : Prop :=
  ∃ t : ProgramTurn, (t.fails = true → mayFail = true) ∧
    programStep t c = .ok (some (texts, c'))

/-! ## What the program prints -/

/-- What the first test prints when the workers print in this order. -/
def marks (ws : List Which) : List (List Char) := ws.zipIdx.map fun x => mark x.1 x.2

variable {mayFail : Bool} {ws : List Which} {w : Which} {i : Nat}
  {log texts : List (List Char)} {s s' : First}
  {c c' : Program} {m : Lists} {list : Ptr}

theorem marks_snoc (ws : List Which) (w : Which) :
    marks (ws ++ [w]) = marks ws ++ [mark w ws.length] := by
  unfold marks
  rw [List.zipIdx_append, List.map_append, Nat.zero_add]
  rfl

theorem length_eq_both (ws : List Which) : ws.length = both fun w => ws.count w := by
  induction ws with
  | nil => rfl
  | cons w ws ih =>
      cases w with
      | one =>
          show ws.length + 1 = (Which.one :: ws).count .one + (Which.one :: ws).count .two
          rw [List.count_cons_self, List.count_cons_of_ne (by decide), ih]
          exact Nat.add_right_comm ..
      | two =>
          show ws.length + 1 = (Which.two :: ws).count .one + (Which.two :: ws).count .two
          rw [List.count_cons_self, List.count_cons_of_ne (by decide), ih]
          rfl

/-! ## The first test -/

structure Worked (ws : List Which) (log : List (List Char)) (s : First) : Prop where
  printed : log = marks ws
  counted : s.gCount = ws.length
  each : ∀ w, ws.count w = madeBy (s.work w)
  rounds : ∀ w i, s.work w = some i → i ≤ 100
  waited : s.second = true → s.work .one = none

theorem work_set {P : Which → Option Nat → Prop} {value : Option Nat} (h : ∀ v, P v (s.work v))
    (hw : P w value) : ∀ v, P v ((s.setWork w value).work v) := by
  intro v
  show P v (Function.update s.work w value v)
  by_cases hvw : v = w
  · rw [hvw, Function.update_self]
    exact hw
  · rw [Function.update_of_ne hvw]
    exact h v

def First.left (s : First) : Nat :=
  both (fun w => todo (s.work w)) + (!s.second).toNat

theorem left_setWork (hw : s.work w = some i) (value : Option Nat) :
    (s.setWork w value).left + (2 * (100 - i) + 1) = s.left + todo value := by
  have h := both_update s.work todo w value
  rw [hw] at h
  change _ + (2 * (100 - i) + 1) = _ at h
  change both (fun v => todo (Function.update s.work w value v)) + (!s.second).toNat + _ = _
  unfold First.left
  omega

/-- A worker that has not returned prints its mark and counts it. -/
theorem Worked.prints (h : Worked ws log s) (hw : s.work w = some i) (hi : i < 100) :
    Worked (ws ++ [w]) (log ++ [mark w s.gCount])
      ({ s with gCount := s.gCount + 1 }.setWork w (some (i + 1))) where
  printed := by rw [marks_snoc, h.printed, h.counted]
  counted := by
    show s.gCount + 1 = (ws ++ [w]).length
    rw [h.counted, List.length_append]
    rfl
  each := by
    have hcount := h.each w
    rw [hw] at hcount
    intro v
    show (ws ++ [w]).count v = madeBy (Function.update s.work w (some (i + 1)) v)
    by_cases hvw : v = w
    · subst hvw
      rw [Function.update_self, List.count_append, List.count_singleton_self, hcount]
      rfl
    · rw [Function.update_of_ne hvw, List.count_append, ← h.each v,
        List.count_singleton, if_neg (by simpa using Ne.symm hvw)]
      rfl
  rounds := by
    apply work_set (P := fun _ value => ∀ j, value = some j → j ≤ 100) h.rounds
    rintro _ ⟨⟩
    exact hi
  waited := by
    intro hsecond
    have hone := h.waited hsecond
    have hne : Which.one ≠ w := by
      rintro rfl
      rw [hone] at hw
      cases hw
    exact (Function.update_of_ne hne ..).trans hone

theorem Worked.returns (h : Worked ws log s) (hw : s.work w = some i) (hi : ¬i < 100) :
    Worked ws (log ++ []) (s.setWork w none) where
  printed := by rw [List.append_nil, h.printed]
  counted := h.counted
  each := by
    have hcount := h.each w
    rw [hw] at hcount
    apply work_set (P := fun v value => ws.count v = madeBy value) h.each
    rw [hcount]
    exact Nat.le_antisymm (h.rounds w i hw) (Nat.not_lt.1 hi)
  rounds := by
    apply work_set (P := fun _ value => ∀ j, value = some j → j ≤ 100) h.rounds
    rintro _ ⟨⟩
  waited := fun hsecond => work_set (P := fun v value => v = .one → value = none)
    (fun v hv => hv ▸ h.waited hsecond) (fun _ => rfl) .one rfl

theorem Worked.works (h : Worked ws log s) (hstep : workLoop w s = some (texts, s')) :
    (∃ ws', Worked ws' (log ++ texts) s') ∧ s'.left < s.left := by
  unfold workLoop at hstep
  cases hw : s.work w with
  | none =>
      rw [hw] at hstep
      cases hstep
  | some i =>
      simp only [hw] at hstep
      by_cases hi : i < 100
      · rw [if_pos hi] at hstep
        cases hstep
        refine ⟨⟨ws ++ [w], h.prints hw hi⟩, ?_⟩
        have hleft := left_setWork (s := { s with gCount := s.gCount + 1 }) hw (some (i + 1))
        change _ + _ = s.left + (2 * (100 - (i + 1)) + 1) at hleft
        omega
      · rw [if_neg hi] at hstep
        cases hstep
        refine ⟨⟨ws, h.returns hw hi⟩, ?_⟩
        have hleft := left_setWork hw none
        change _ + _ = _ + 0 at hleft
        omega

theorem Worked.waits (h : Worked ws log s) (hone : s.work .one = none) :
    Worked ws (log ++ []) { s with second := true } := by
  rw [List.append_nil]
  exact ⟨h.printed, h.counted, h.each, h.rounds, fun _ => hone⟩

theorem Worked.ends (h : Worked ws log s) (hsecond : s.second = true)
    (htwo : s.work .two = none) : (∀ w, ws.count w = 100) ∧ s.gCount = 200 := by
  have hall : ∀ w, ws.count w = 100 := by
    intro w
    rw [h.each w]
    cases w with
    | one =>
        rw [h.waited hsecond]
        rfl
    | two =>
        rw [htwo]
        rfl
  refine ⟨hall, ?_⟩
  rw [h.counted, length_eq_both]
  show ws.count .one + ws.count .two = 200
  rw [hall, hall]

/-! ## The two tests -/

/-- What a run of the program has done, in either test. -/
def Stage (mayFail : Bool) (log : List (List Char)) : Program → Prop
  | .first s => ∃ ws, Worked ws log s
  | .second s => ∃ ws m list texts, (∀ w, ws.count w = 100) ∧ log = marks ws ++ texts ∧
      Run anyStep (ProgramNext mayFail) program (marks ws) (.second (start 200 m list)) ∧
      Run anyStep (Next mayFail) (start 200 m list) texts s

theorem run_second {s₀ s : State}
    (base : Run anyStep (ProgramNext mayFail) program log (.second s₀))
    (run : Run anyStep (Next mayFail) s₀ texts s) :
    Run anyStep (ProgramNext mayFail) program (log ++ texts) (.second s) := by
  induction run with
  | start => rwa [List.append_nil]
  | @snoc before texts s s' prior _ hstep ih =>
      obtain ⟨t, hfails, ht⟩ := hstep
      have hturn : programStep (.second t) (.second s) = .ok (some (texts, .second s')) := by
        show (step t s).map _ = _
        rw [ht]
        rfl
      rw [← List.append_assoc]
      exact ih.snoc trivial ⟨.second t, hfails, hturn⟩

theorem Worked.finishes {n : Nat} (run : Run anyStep (ProgramNext mayFail) program log (.first s))
    (h : Worked ws log s) (hn : s.left = n) :
    ∃ rest s', Run anyStep (ProgramNext mayFail) program (log ++ rest) (.second s') := by
  induction n using Nat.strong_induction_on generalizing ws log s with
  | _ n ih =>
      have goOn {texts : List (List Char)} {s' : First}
          (hstep : ProgramNext mayFail (.first s) texts (.first s'))
          (h' : ∃ ws', Worked ws' (log ++ texts) s') (hless : s'.left < s.left) :
          ∃ rest s', Run anyStep (ProgramNext mayFail) program (log ++ rest) (.second s') := by
        obtain ⟨ws', h'⟩ := h'
        obtain ⟨rest, s'', run'⟩ := ih s'.left (hn ▸ hless) (run.snoc trivial hstep) h' rfl
        rw [List.append_assoc] at run'
        exact ⟨texts ++ rest, s'', run'⟩
      by_cases hwork : ∃ w, s.work w ≠ none
      · obtain ⟨w, hw⟩ := hwork
        obtain ⟨r, hloop⟩ : ∃ r, workLoop w s = some r := by
          obtain ⟨i, hi⟩ := Option.ne_none_iff_exists'.1 hw
          unfold workLoop
          simp only [hi]
          split
          · exact ⟨_, rfl⟩
          · exact ⟨_, rfl⟩
        have hturn : programStep (.worker w) (.first s) = .ok (some (r.1, .first r.2)) := by
          show Except.ok ((workLoop w s).map _) = _
          rw [hloop]
          rfl
        obtain ⟨h', hless⟩ := h.works hloop
        exact goOn ⟨.worker w, (fun h => nomatch h), hturn⟩ h' hless
      · have hnone (w : Which) : s.work w = none := by
          by_contra hw
          exact hwork ⟨w, hw⟩
        cases hsecond : s.second with
        | false =>
            refine goOn ⟨.main noLists 1, (fun h => nomatch h), ?_⟩ ⟨ws, h.waits (hnone .one)⟩ ?_
            · simp only [programStep, hsecond, if_pos (hnone .one)]
              rfl
            · show both (fun w => todo (s.work w)) + 0 < _
              unfold First.left
              rw [hsecond]
              exact Nat.lt_succ_self _
        | true =>
            refine ⟨[], start s.gCount noLists 1,
              run.snoc trivial ⟨.main noLists 1, (fun h => nomatch h), ?_⟩⟩
            simp only [programStep, hsecond, if_pos (hnone .two)]
            rfl

theorem Stage.safe (stage : Stage mayFail log c) (t : ProgramTurn) :
    ∃ r, programStep t c = .ok r := by
  cases c with
  | first s =>
      cases t with
      | worker w => exact ⟨_, rfl⟩
      | main m list =>
          unfold programStep
          by_cases hsecond : s.second = true
          · exact ⟨_, if_pos hsecond⟩
          · exact ⟨_, if_neg hsecond⟩
      | second t => exact ⟨_, rfl⟩
  | second s =>
      obtain ⟨ws, m, list, before, -, -, -, run⟩ := stage
      cases t with
      | second t =>
          obtain ⟨r, hr⟩ := run_safe (by decide) before s run t
          change ∃ r, (step t s).map _ = .ok r
          rw [hr]
          exact ⟨_, rfl⟩
      | _ => exact ⟨_, rfl⟩

theorem Stage.finishes {s : State} (stage : Stage mayFail log (.second s)) :
    ∃ rest c', Run anyStep (ProgramNext mayFail) program (log ++ rest) c' ∧ c'.Done := by
  obtain ⟨ws, m, list, texts, -, hlog, base, run⟩ := stage
  obtain ⟨made, items, inv⟩ := run_inv (by decide) run
  obtain ⟨rest, s', -, -, run', -, hdone⟩ := inv.finishes (run_safe (by decide)) run rfl
  have hrun := run_second base run'
  rw [← List.append_assoc, ← hlog] at hrun
  exact ⟨rest, .second s', hrun, hdone⟩

end OSLabs.Libco.Tests
