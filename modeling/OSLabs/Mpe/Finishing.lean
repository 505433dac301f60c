import Mathlib.Algebra.Order.BigOperators.Group.Finset
import OSLabs.Mpe.Starting

/-! # Starting and stopping come to an end

Every step that changes something takes work away, so a run changes the state only so often.
Where nothing changes any more, either every processor runs the entry or one has halted.
-/

namespace OSLabs.Mpe

open Lib (Run anyStep)

variable {n entry a c d : Nat} {s s' : System} {es log : List Event}

/-! ## What keeps a run going -/

/-- While the processors start, somebody works for the boot processor when it waits, and while
they stop, somebody stops the others. -/
structure Live (n : Nat) (s : System) : Prop where
  messages : ∀ c caller cpu i, s.pc c = .bootAp caller cpu i → cpu < n ∧ i ≤ 3
  waits : ∀ c cpu, s.pc c = .waitReady cpu → cpu < n
  others : ∀ c cpu, s.pc c = .forCpu cpu ∨ (∃ i, s.pc c = .bootAp .mpeInit cpu i) → cpu ≠ 0
  ready : s.apReady = 0 ∨ s.apReady = 1
  awaited : s.jmpCode = jmpLoader → ∀ c, (s.pc 0).Awaits c → s.OnPath c ∨ s.apReady = 1
  closing : ¬(s.pc 0).Early → s.jmpCode = jmpSelf → ∃ c < n, (s.pc c).Stopping

section

variable (live : Live n s) (inv : Inv n entry log s) (h : Stepped n entry a s es s')

include live inv h

theorem Live.messages_step :
    ∀ c caller cpu i, s'.pc c = .bootAp caller cpu i → cpu < n ∧ i ≤ 3 := by
  have hmessages := live.messages
  have hjmp (c : Nat) := inv.jmpCode (c := c)
  clear inv live
  cases h with
  | _ => grind

theorem Live.waits_step : ∀ c cpu, s'.pc c = .waitReady cpu → cpu < n := by
  have hmessages := live.messages
  have hwaits := live.waits
  have hjmp (c : Nat) := inv.jmpCode (c := c)
  clear inv live
  cases h with
  | _ => grind

theorem Live.others_step : ∀ c cpu,
    s'.pc c = .forCpu cpu ∨ (∃ i, s'.pc c = .bootAp .mpeInit cpu i) → cpu ≠ 0 := by
  have hothers := live.others
  have hjmp (c : Nat) := inv.jmpCode (c := c)
  clear inv live
  cases h with
  | _ => grind

omit inv in
theorem Live.ready_step : s'.apReady = 0 ∨ s'.apReady = 1 := by
  have hready := live.ready
  clear live
  cases h with
  | _ => grind

/-- The processor that the boot processor waits for goes on to `ap_ready`. -/
theorem Live.awaited_step : s'.jmpCode = jmpLoader →
    ∀ c, (s'.pc 0).Awaits c → s'.OnPath c ∨ s'.apReady = 1 := by
  have hothers := live.others
  have hawaited := live.awaited
  have hfresh := inv.fresh
  have hboots := inv.boots
  have hstopping := inv.stopping
  have hpath := inv.path
  have hjmp (c : Nat) := inv.jmpCode (c := c)
  have hne := jmpLoader_ne_jmpSelf
  clear inv live
  cases h with
  | waits h =>
      intro hopen c hc
      obtain rfl : a = 0 := by grind
      have hbefore := hawaited ((System.receive_jmpCode s _ _).symm.trans hopen) c (by grind)
      grind
  | _ => grind

/-- Only a processor that stops others resets one that does. -/
theorem Live.stopping_step (hc : (s.pc c).Stopping) :
    (s'.pc c).Stopping ∨ (s'.pc a).Stopping := by
  have hothers := live.others
  have hfresh := inv.fresh
  have hboots := inv.boots
  clear inv live
  cases h with
  | _ => grind

theorem Live.closing_step (ha : a < n) :
    ¬(s'.pc 0).Early → s'.jmpCode = jmpSelf → ∃ c < n, (s'.pc c).Stopping := by
  intro hlate hjmp
  by_cases hclosed : s.jmpCode = jmpSelf ∧ ¬(s.pc 0).Early
  · obtain ⟨c, hc, hstopping⟩ := live.closing hclosed.2 hclosed.1
    cases live.stopping_step inv h hstopping with
    | inl hstays => exact ⟨c, hc, hstays⟩
    | inr hstops => exact ⟨a, ha, hstops⟩
  · -- Only a call of `halt` closes what was open.
    have hstops : (s'.pc a).Stopping := by
      have hearly := inv.early
      have hboots := inv.boots
      have hstopping := inv.stopping
      have hne := jmpLoader_ne_jmpSelf
      clear inv live
      cases h with
      | _ => grind
    exact ⟨a, ha, hstops⟩

theorem Live.step (ha : a < n) : Live n s' where
  messages := live.messages_step inv h
  waits := live.waits_step inv h
  others := live.others_step inv h
  ready := live.ready_step h
  awaited := live.awaited_step inv h
  closing := live.closing_step inv h ha

end

theorem Live.initial (code : UInt32) : Live n (initial code) where
  messages := by grind
  waits := by grind
  others := by grind
  ready := .inl rfl
  awaited := by grind
  closing := fun hlate => absurd trivial hlate

theorem Live.of_run (hn : 0 < n) {code : UInt32}
    (run : Run anyStep (Next n entry) (Mpe.initial code) log s) : Live n s := by
  apply run.invariant (fun _ => Live n) (Live.initial code)
  intro log es s s' run _ live hstep
  obtain ⟨a, ha, choice, hstep⟩ := hstep
  exact live.step (Inv.of_run hn run) (step_cases hstep) ha

theorem user_step (inv : Inv n entry log s) (h : Stepped n entry a s es s')
    (huser : ∀ c f, s.pc c = .user f → f = entry) : ∀ c f, s'.pc c = .user f → f = entry := by
  have hentries := inv.entries
  have hjmp (c : Nat) := inv.jmpCode (c := c)
  clear inv
  cases h with
  | _ => grind

theorem user_of_run (hn : 0 < n) {code : UInt32}
    (run : Run anyStep (Next n entry) (Mpe.initial code) log s) :
    ∀ c f, s.pc c = .user f → f = entry := by
  apply run.invariant fun _ s => ∀ c f, s.pc c = .user f → f = entry
  · grind
  · intro log es s s' run _ huser hstep
    obtain ⟨a, ha, choice, hstep⟩ := hstep
    exact user_step (Inv.of_run hn run) (step_cases hstep) huser

/-! ## Work -/

def System.Closed (s : System) : Prop := s.jmpCode = jmpSelf ∧ ¬(s.pc 0).Early

instance : DecidablePred Pc.Early := fun p => by
  cases p <;> unfold Pc.Early <;> infer_instance

instance (s : System) : Decidable s.Closed := inferInstanceAs (Decidable (_ ∧ _))

/-- How many steps a processor may still take, on a machine with `n` of them. -/
def Pc.work (n : Nat) (closed : Bool) : Pc → Nat
  | .main => 12 * n + 14
  | .setJump => 12 * n + 13
  | .forCpu cpu => 5 * n + 4 + 7 * (n - cpu)
  | .bootAp .mpeInit cpu i => 5 * n + 3 + 7 * (n - cpu) - i
  | .waitReady cpu => 5 * n + 7 * (n - cpu) - 1
  | .waitStartup => if closed then 0 else 5 * n + 9
  | .bootRecord => if closed then 0 else 5 * n + 8
  | .loadKernel => 5 * n + 7
  | .startC => 5 * n + 6
  | .percpuInit => 5 * n + 5
  | .announce => 5 * n + 4
  | .callEntry => 5 * n + 3
  | .user _ => 5 * n + 2
  | .stopFor cpu => 5 * (n - cpu) + 1
  | .bootAp .stopTheWorld cpu i => 5 * (n - cpu) - i
  | .halted | .loading | .bootcpuInit | .lost => 0

def System.work (s : System) (n c : Nat) : Nat := (s.pc c).work n s.Closed

theorem Pc.work_closed (p : Pc) (n : Nat) (closed : Bool) : p.work n true ≤ p.work n closed := by
  cases closed with
  | true => exact Nat.le_refl _
  | false =>
      cases p with
      | waitStartup => exact Nat.zero_le _
      | bootRecord => exact Nat.zero_le _
      | bootAp caller cpu i => cases caller <;> exact Nat.le_refl _
      | _ => exact Nat.le_refl _

theorem work_stopped (hclosed : s.Closed) (hc : s.pc c = .waitStartup ∨ s.pc c = .bootRecord) :
    s.work n c = 0 := by
  unfold System.work
  rw [decide_eq_true hclosed]
  cases hc with
  | inl hpc => rw [hpc]; rfl
  | inr hpc => rw [hpc]; rfl

theorem Inv.closed_of_stopping (inv : Inv n entry log s) (hc : (s.pc c).Stopping) : s.Closed := by
  refine ⟨inv.stopping c hc, fun hearly => ?_⟩
  by_cases hzero : c = 0
  · rw [hzero] at hc
    cases hpc : s.pc 0 with
    | _ => grind
  · rw [(inv.early hearly).2 c hzero] at hc
    exact hc

section

variable (live : Live n s) (inv : Inv n entry log s) (h : Stepped n entry a s es s')

include live inv h

omit live in
theorem closed_step (hclosed : s.Closed) : s'.Closed := by
  obtain ⟨hself, hlate⟩ := hclosed
  unfold System.Closed
  have hboots := inv.boots
  clear inv
  cases h with
  | _ => grind

theorem pc_other (hd : d ≠ a) : s'.pc d = s.pc d ∨ s'.Closed ∧ s'.Stopped d ∨
    s.pc d = .waitStartup ∧ (s'.pc d = .waitStartup ∨ s'.pc d = .bootRecord) := by
  have hothers := live.others
  have hboots := inv.boots
  have hfresh := inv.fresh
  have hstops (c : Nat) (hc : (s.pc c).Stopping) : s'.Closed :=
    closed_step inv h (inv.closed_of_stopping hc)
  clear inv live
  cases h with
  | init h =>
      rename_i caller cpu
      cases caller with
      | mpeInit => grind [System.Closed]
      | stopTheWorld =>
          have hclosed := hstops a (by rw [h]; trivial)
          have hself := hclosed.1
          grind
  | startup h =>
      rename_i caller cpu
      cases caller with
      | mpeInit => grind
      | stopTheWorld =>
          have hclosed := hstops a (by rw [h]; trivial)
          have hself := hclosed.1
          grind
  | stopped h =>
      have hclosed := hstops a (by rw [h]; trivial)
      have hself := hclosed.1
      grind
  | _ => grind

theorem work_other (hd : d ≠ a) : s'.work n d ≤ s.work n d := by
  have hclosed := closed_step inv h
  obtain hsame | ⟨hstops, hstopped⟩ | ⟨hbefore, hafter⟩ := pc_other live inv h hd
  · unfold System.work
    rw [hsame]
    by_cases hnow : s.Closed
    · rw [decide_eq_true hnow, decide_eq_true (hclosed hnow)]
    · rw [decide_eq_false hnow]
      by_cases hthen : s'.Closed
      · rw [decide_eq_true hthen]
        exact Pc.work_closed _ n false
      · rw [decide_eq_false hthen]
  · rw [work_stopped hstops hstopped.2]
    exact Nat.zero_le _
  · by_cases hthen : s'.Closed
    · rw [work_stopped hthen hafter]
      exact Nat.zero_le _
    · have hnow : ¬s.Closed := fun hnow => hthen (hclosed hnow)
      unfold System.work
      rw [hbefore, decide_eq_false hnow, decide_eq_false hthen]
      cases hafter with
      | inl hpc => rw [hpc]
      | inr hpc =>
          rw [hpc]
          exact Nat.le_succ _

theorem work_self : s' = s ∨ s'.work n a < s.work n a := by
  have hwaits := live.waits
  have hgoto (p : Pc) (hp : s.pc a = p) : s.goto a p = s := by
    unfold System.goto
    rw [← hp, Function.update_eq_self]
  have hready := live.ready
  have hmessages := live.messages
  have hearly := inv.early
  have hboots := inv.boots
  have hdefined := inv.defined
  have hentries := inv.entries
  have hpath := inv.path
  have hjmp (c : Nat) := inv.jmpCode (c := c)
  have hne := jmpLoader_ne_jmpSelf
  clear inv live
  cases h with
  | computes h => exact .inl rfl
  | loops h => exact .inl (hgoto _ h)
  | spins h hnot =>
      left
      have hzero : s.apReady = 0 := by grind
      have hsame : { s with apReady := 0 } = s := by rw [← hzero]
      rw [hsame]
      exact hgoto _ h
  | _ => right; grind [System.work, Pc.work, System.Closed]

end

def System.totalWork (s : System) (n : Nat) : Nat := ∑ c ∈ Finset.range n, s.work n c

theorem totalWork_step (live : Live n s) (inv : Inv n entry log s)
    (h : Stepped n entry a s es s') (ha : a < n) : s' = s ∨ s'.totalWork n < s.totalWork n := by
  cases work_self live inv h with
  | inl hsame => exact .inl hsame
  | inr hless =>
      right
      apply Finset.sum_lt_sum
      · intro c _
        by_cases hc : c = a
        · rw [hc]
          exact Nat.le_of_lt hless
        · exact work_other live inv h hc
      · exact ⟨a, Finset.mem_range.2 ha, hless⟩

/-! ## The end of a run -/

/-- Every processor runs the given entry, or one has halted and the others are stopped. -/
def System.Final (s : System) (n entry : Nat) : Prop :=
  (∀ c < n, s.pc c = .user entry) ∨
    ∃ c < n, s.pc c = .halted ∧ ∀ d < n, d ≠ c → s.Stopped d

/-- No processor changes anything, unless the program calls `halt`. -/
def System.Quiet (s : System) (n entry : Nat) : Prop :=
  ∀ a < n, ∀ es s', step n entry a .goOn s = some (es, s') → s' = s

/-- Where a processor is that changes nothing. -/
@[grind] def System.Resting (s : System) : Pc → Prop
  | .user _ | .halted | .waitStartup => True
  | .bootRecord => s.jmpCode = jmpSelf
  | .waitReady _ => s.apReady ≠ 1
  | _ => False

/-- Only a processor that waits for a message or that has halted cannot take a step. -/
theorem step_defined (live : Live n s) (inv : Inv n entry log s)
    (hrests : ¬s.Resting (s.pc a)) : ∃ es s', step n entry a .goOn s = some (es, s') := by
  have hdefined := inv.defined a
  unfold step
  cases hpc : s.pc a with
  | bootAp caller cpu i =>
      obtain ⟨-, hi⟩ := live.messages a caller cpu i hpc
      have hlt : i < ipis.length := Nat.lt_succ_of_le hi
      simp [List.getElem?_eq_getElem hlt]
  | forCpu cpu => by_cases hlt : cpu < n <;> simp [hlt]
  | callEntry => cases hentry : s.userEntry <;> simp
  | stopFor cpu => by_cases hlt : cpu < n <;> simp [hlt]
  | waitStartup => grind
  | halted => grind
  | loading => grind
  | bootcpuInit => grind
  | lost => grind
  | _ => exact ⟨_, _, rfl⟩

theorem System.Quiet.resting (quiet : s.Quiet n entry) (live : Live n s)
    (inv : Inv n entry log s) (ha : a < n) : s.Resting (s.pc a) := by
  by_contra hrests
  obtain ⟨es, s', hstep⟩ := step_defined live inv hrests
  have hpc : s'.pc a = s.pc a := by rw [quiet a ha es s' hstep]
  have hjmp := inv.jmpCode (c := a)
  clear inv live quiet
  cases step_cases hstep with
  | _ => grind

theorem quiet_final (live : Live n s) (inv : Inv n entry log s) (hn : 0 < n)
    (huser : ∀ c f, s.pc c = .user f → f = entry) (quiet : s.Quiet n entry) :
    s.Final n entry := by
  have hresting (c : Nat) (hc : c < n) := quiet.resting live inv hc
  have hstopping := inv.stopping
  by_cases hclosed : s.Closed
  · obtain ⟨c, hc, hstops⟩ := live.closing hclosed.2 hclosed.1
    have hhalted : s.pc c = .halted := by
      have hrests := hresting c hc
      cases hp : s.pc c with
      | _ => grind
    right
    refine ⟨c, hc, hhalted, ?_⟩
    intro d hd hne
    refine inv.cleared c d ?_ hne
    rw [hhalted]
    exact hd
  · -- The boot processor has called the entry, as nobody is left that it could wait for.
    have hopen (hearly : ¬(s.pc 0).Early) : s.jmpCode = jmpLoader :=
      (inv.jump hearly).resolve_right fun hself => hclosed ⟨hself, hearly⟩
    have hne := jmpLoader_ne_jmpSelf
    obtain ⟨f, hf⟩ : ∃ f, s.pc 0 = .user f := by
      have hrests := hresting 0 hn
      have hboot := inv.boot
      cases hpc : s.pc 0 with
      | waitReady cpu =>
          have hpath := live.awaited (hopen (by grind)) cpu (by grind)
          have hother := hresting cpu (live.waits 0 cpu hpc)
          cases hcpu : s.pc cpu with
          | _ => grind
      | _ => grind
    left
    intro c hc
    by_cases hzero : c = 0
    · rw [hzero, hf, huser 0 f hf]
    · have hready := (inv.ready c (inv.seen c (by omega) (by rw [hf]; exact hc))).2
      have hrests := hresting c hc
      have hjump := hopen (by grind)
      have hstops := hstopping c
      cases hpc : s.pc c with
      | _ => grind

/-- In every run, a step that changes something takes from the work that is left, calls of
`halt` included. Where no processor changes anything any more, all run the entry, or one has
halted and the others are stopped. -/
theorem processors_finish (hn : 0 < n) {code : UInt32}
    (run : Run anyStep (Next n entry) (initial code) log s) :
    (∀ es s', Next n entry s es s' → s' = s ∨ s'.totalWork n < s.totalWork n) ∧
      (s.Quiet n entry → s.Final n entry) := by
  have inv := Inv.of_run hn run
  have live := Live.of_run hn run
  constructor
  · intro es s' hstep
    obtain ⟨a, ha, choice, hstep⟩ := hstep
    exact totalWork_step live inv (step_cases hstep) ha
  · exact quiet_final live inv hn (user_of_run hn run)

theorem processors_finish_twoHalt : ∃ log s, Run anyStep (Next 2 42) (initial 0) log s ∧
    s.pc 1 = .halted ∧
    (∀ es s', Next 2 42 s es s' → s' = s ∨ s'.totalWork 2 < s.totalWork 2) ∧
      (s.Quiet 2 42 → s.Final 2 42) := by
  obtain ⟨log, s, run, hpc⟩ := Lib.exists_run_of_replay anyStep (Next 2 42) (initial 0)
    (fun _ _ => true) (fun _ _ _ => trivial) (next_of_turn 2 42) twoHalt
    (fun _ s => decide (s.pc 1 = .halted)) (by decide)
  exact ⟨log, s, run, of_decide_eq_true hpc, processors_finish (by decide) run⟩

end OSLabs.Mpe
