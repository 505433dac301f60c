import OSLabs.Lib.Run
import OSLabs.Mpe.Steps

/-! # Processors start one at a time

`mpe_init` waits for each processor before it starts the next one, so the boot record, the
loader's stack and `ap_ready` serve one processor at a time, while those that have started run
on and may call `halt` whenever they like.
-/

namespace OSLabs.Mpe

open Lib (Run anyStep)

variable {n entry a c d : Nat} {s s' : System} {es log : List Event}

/-! ## Points of the code -/

namespace Pc

/-- Before `mpe_init` has set `jmp_code`. -/
@[grind] def Early : Pc → Prop
  | main | setJump => True
  | _ => False

/-- In the loop of `mpe_init`. -/
@[grind] def InMpeInit : Pc → Prop
  | forCpu _ | bootAp .mpeInit _ _ | waitReady _ => True
  | _ => False

/-- Where `mpe_init` has not yet sent `STARTUP` to processor `c`. -/
@[grind] def Precedes (c : Nat) : Pc → Prop
  | forCpu cpu => cpu ≤ c
  | bootAp .mpeInit cpu i => cpu < c ∨ cpu = c ∧ i ≤ 2
  | waitReady cpu => cpu < c
  | _ => False

/-- Where `mpe_init` has started processor `c` and waits for it. -/
@[grind] def Awaits (c : Nat) : Pc → Prop
  | bootAp .mpeInit cpu i => cpu = c ∧ i = 3
  | waitReady cpu => cpu = c
  | _ => False

/-- Where `mpe_init` has seen processor `c` ready, on a machine with `n` of them. -/
@[grind] def HasSeen (n c : Nat) : Pc → Prop
  | forCpu cpu | bootAp .mpeInit cpu _ | waitReady cpu => c < cpu
  | callEntry | user _ => c < n
  | _ => False

@[grind] def Starting : Pc → Prop
  | loadKernel | startC | percpuInit | announce => True
  | _ => False

@[grind] def Stopping : Pc → Prop
  | stopFor _ | bootAp .stopTheWorld _ _ | halted => True
  | _ => False

@[grind] def Entered : Pc → Prop
  | user _ | stopFor _ | bootAp .stopTheWorld _ _ | halted => True
  | _ => False

/-- Where `__am_stop_the_world` has initialized processor `d`, on a machine with `n` of them. -/
@[grind] def Cleared (n d : Nat) : Pc → Prop
  | stopFor cpu => d < cpu
  | bootAp .stopTheWorld cpu i => d < cpu ∨ d = cpu ∧ 0 < i
  | halted => d < n
  | _ => False

@[grind] def Stray : Pc → Prop
  | loading | bootcpuInit | lost => True
  | _ => False

end Pc

attribute [grind cases] Caller

theorem jmpLoader_ne_jmpSelf : jmpLoader ≠ jmpSelf := by decide

namespace System

/-- Processor `c` waits, or is in the loop at the boot record. -/
@[grind] def Stopped (s : System) (c : Nat) : Prop :=
  s.jmpCode = jmpSelf ∧ (s.pc c = .waitStartup ∨ s.pc c = .bootRecord)

/-- Processor `c` is on its way to `ap_ready`. -/
@[grind] def OnPath (s : System) (c : Nat) : Prop :=
  (s.pc c).Starting ∨ s.jmpCode ≠ jmpSelf ∧ s.pc c = .bootRecord

theorem OnPath.not_out (hc : s.OnPath c) :
    ¬(s.pc c = .callEntry ∨ (s.pc c).Entered ∨ s.Stopped c) := by
  cases hpc : s.pc c with
  | _ => grind

end System

/-! ## The invariant -/

structure Inv (n entry : Nat) (log : List Event) (s : System) : Prop where
  early : (s.pc 0).Early → log = [] ∧ ∀ c ≠ 0, s.pc c = .waitStartup
  boots : ∀ c ≠ 0, ¬(s.pc c).Early ∧ ¬(s.pc c).InMpeInit
  jump : ¬(s.pc 0).Early → s.jmpCode = jmpLoader ∨ s.jmpCode = jmpSelf
  stopping : ∀ c, (s.pc c).Stopping → s.jmpCode = jmpSelf
  boot : s.pc 0 = .waitStartup ∨ s.pc 0 = .bootRecord → s.jmpCode = jmpSelf
  fresh : ∀ c ≠ 0, (s.pc 0).Precedes c → s.pc c = .waitStartup ∨ s.Stopped c
  /-- A processor on the way is the one that `mpe_init` waits for, if it is not stopped. -/
  path : ∀ c, s.OnPath c → c ≠ 0 ∧ s.isAp = 1 ∧ ((s.pc 0).Awaits c ∨ s.Stopped 0)
  unique : ∀ c d, s.OnPath c → s.OnPath d → c = d
  isAp : (∃ cpu i, s.pc 0 = .bootAp .mpeInit cpu i) ∨ (∃ cpu, s.pc 0 = .waitReady cpu) →
    s.isAp = 1
  entries : ∀ c, s.pc c = .setJump ∨ (s.pc c).InMpeInit ∨ s.pc c = .callEntry ∨ s.OnPath c →
    s.userEntry = some entry
  defined : ∀ c, ¬(s.pc c).Stray
  flag : s.apReady = 1 → (∃ c, (s.pc 0).Awaits c ∧ .ready c ∈ log) ∨ s.Stopped 0
  seen : ∀ c > 0, (s.pc 0).HasSeen n c → .ready c ∈ log
  called : ∀ c ≠ 0, s.pc c = .callEntry → .ready c ∈ log
  ready : ∀ c, .ready c ∈ log → c ≠ 0 ∧ (s.pc c = .callEntry ∨ (s.pc c).Entered ∨ s.Stopped c)
  enters : ∀ c f, .enters c f ∈ log → f = entry ∧ ((s.pc c).Entered ∨ s.Stopped c) ∧
    (c ≠ 0 → .ready c ∈ log) ∧ (c = 0 → ∀ d > 0, d < n → .ready d ∈ log)
  cleared : ∀ c d, (s.pc c).Cleared n d → d ≠ c → s.Stopped d
  halts : ∀ c, .halts c ∈ log → s.pc c = .halted
  nodup : log.Nodup
  alive : ∃ c < n, ¬s.Stopped c

section

variable (inv : Inv n entry log s) (h : Stepped n entry a s es s')

include inv

theorem Inv.jmpCode (hc : s.pc c = .bootRecord) : s.jmpCode = jmpLoader ∨ s.jmpCode = jmpSelf := by
  apply inv.jump
  intro hearly
  by_cases hzero : c = 0
  · rw [hzero] at hc
    rw [hc] at hearly
    exact hearly
  · have hwaits := (inv.early hearly).2 c hzero
    rw [hc] at hwaits
    cases hwaits

include h

theorem Inv.early_step :
    (s'.pc 0).Early → log ++ es = [] ∧ ∀ c ≠ 0, s'.pc c = .waitStartup := by
  have hearly := inv.early
  have hboots := inv.boots
  have hjump := inv.jump
  clear inv
  cases h with
  | _ => grind

theorem Inv.boots_step : ∀ c ≠ 0, ¬(s'.pc c).Early ∧ ¬(s'.pc c).InMpeInit := by
  have hboots := inv.boots
  have hjmp (c : Nat) := inv.jmpCode (c := c)
  clear inv
  cases h with
  | _ => grind

theorem Inv.jump_step : ¬(s'.pc 0).Early → s'.jmpCode = jmpLoader ∨ s'.jmpCode = jmpSelf := by
  have hboots := inv.boots
  have hjump := inv.jump
  have hstopping := inv.stopping
  clear inv
  cases h with
  | _ => grind

/-- Only `mpe_init` takes the jump back, when no processor stops the others. -/
theorem Inv.stopping_step : ∀ c, (s'.pc c).Stopping → s'.jmpCode = jmpSelf := by
  have hearly := inv.early
  have hboots := inv.boots
  have hstopping := inv.stopping
  have hjmp (c : Nat) := inv.jmpCode (c := c)
  clear inv
  cases h with
  | _ => grind

/-- The boot processor is reset only where all others are stopped. -/
theorem Inv.boot_step :
    s'.pc 0 = .waitStartup ∨ s'.pc 0 = .bootRecord → s'.jmpCode = jmpSelf := by
  have hboots := inv.boots
  have hstopping := inv.stopping
  have hboot := inv.boot
  have hjmp (c : Nat) := inv.jmpCode (c := c)
  clear inv
  cases h with
  | _ => grind

theorem Inv.stopped_step (hlate : ¬(s.pc 0).Early) (hd : s.Stopped d) : s'.Stopped d := by
  have hboots := inv.boots
  have hne := jmpLoader_ne_jmpSelf
  clear inv
  cases h with
  | _ => grind

theorem Inv.onPath_of_step (hc : s'.OnPath c) : s.OnPath c ∨ a = 0 ∧ s.jmpCode = jmpLoader ∧
    (s.pc 0 = .bootAp .mpeInit c 2 ∨ s.pc 0 = .bootAp .mpeInit c 3) := by
  have hearly := inv.early
  have hboots := inv.boots
  have hjump := inv.jump
  have hstopping := inv.stopping
  have hjmp (c : Nat) := inv.jmpCode (c := c)
  have hne := jmpLoader_ne_jmpSelf
  clear inv
  cases h with
  | _ => grind

theorem Inv.fresh_step :
    ∀ c ≠ 0, (s'.pc 0).Precedes c → s'.pc c = .waitStartup ∨ s'.Stopped c := by
  have hearly := inv.early
  have hboots := inv.boots
  have hstopping := inv.stopping
  have hfresh := inv.fresh
  have hjmp (c : Nat) := inv.jmpCode (c := c)
  have hne := jmpLoader_ne_jmpSelf
  clear inv
  cases h with
  | _ => grind

omit h in
/-- `mpe_init` does not go on before the processor on the way is ready. -/
theorem Inv.not_seen (hready : s.apReady = 1) (hpc : s.pc 0 = .waitReady d) (hc : s.OnPath c) :
    False := by
  have hout := hc.not_out
  have hflag := inv.flag hready
  have hpath := inv.path c hc
  have hlog := inv.ready c
  grind

theorem Inv.path_step : ∀ c, s'.OnPath c →
    c ≠ 0 ∧ s'.isAp = 1 ∧ ((s'.pc 0).Awaits c ∨ s'.Stopped 0) := by
  intro c hc
  have hboots := inv.boots
  obtain hold | ⟨rfl, -, hboot⟩ := inv.onPath_of_step h hc
  · obtain ⟨hzero, hap, hwaits⟩ := inv.path c hold
    have hseen (d : Nat) (hready : s.apReady = 1) (hpc : s.pc 0 = .waitReady d) :=
      inv.not_seen hready hpc hold
    have hstopped (d : Nat) := inv.stopped_step (d := 0) h
    have hstopping := inv.stopping
    have hne := jmpLoader_ne_jmpSelf
    clear inv hold
    cases h with
    | _ => grind
  · have hisAp := inv.isAp
    clear inv
    cases h with
    | _ => grind

/-- When `mpe_init` starts a processor, no other one is on the way. -/
theorem Inv.unique_step : ∀ c d, s'.OnPath c → s'.OnPath d → c = d := by
  intro c d hc hd
  obtain hc | ⟨-, hjmp, hboot⟩ := inv.onPath_of_step h hc
  · obtain hd | ⟨-, hjmp, hboot⟩ := inv.onPath_of_step h hd
    · exact inv.unique c d hc hd
    · have hpath := inv.path c hc
      have hne := jmpLoader_ne_jmpSelf
      grind
  · obtain hd | ⟨-, -, hboot'⟩ := inv.onPath_of_step h hd
    · have hpath := inv.path d hd
      have hne := jmpLoader_ne_jmpSelf
      grind
    · grind

theorem Inv.isAp_step : (∃ cpu i, s'.pc 0 = .bootAp .mpeInit cpu i) ∨
    (∃ cpu, s'.pc 0 = .waitReady cpu) → s'.isAp = 1 := by
  have hboots := inv.boots
  have hisAp := inv.isAp
  have hjmp (c : Nat) := inv.jmpCode (c := c)
  clear inv
  cases h with
  | _ => grind

theorem Inv.entries_step : ∀ c, s'.pc c = .setJump ∨ (s'.pc c).InMpeInit ∨
    s'.pc c = .callEntry ∨ s'.OnPath c → s'.userEntry = some entry := by
  have hboots := inv.boots
  have hentries := inv.entries
  have honPath (c : Nat) := inv.onPath_of_step (c := c) h
  have hjmp (c : Nat) := inv.jmpCode (c := c)
  clear inv
  cases h with
  | _ => grind

theorem Inv.defined_step : ∀ c, ¬(s'.pc c).Stray := by
  have hpath := inv.path
  have hentries := inv.entries
  have hdefined := inv.defined
  have hjmp (c : Nat) := inv.jmpCode (c := c)
  clear inv
  cases h with
  | _ => grind

theorem Inv.flag_step :
    s'.apReady = 1 → (∃ c, (s'.pc 0).Awaits c ∧ .ready c ∈ log ++ es) ∨ s'.Stopped 0 := by
  have hboots := inv.boots
  have hstopping := inv.stopping
  have hpath := inv.path
  have hflag := inv.flag
  have hne := jmpLoader_ne_jmpSelf
  have hjmp (c : Nat) := inv.jmpCode (c := c)
  clear inv
  cases h with
  | _ => grind

theorem Inv.seen_step : ∀ c > 0, (s'.pc 0).HasSeen n c → .ready c ∈ log ++ es := by
  have hboots := inv.boots
  have hpath := inv.path
  have hflag := inv.flag
  have hseen := inv.seen
  have hjmp (c : Nat) := inv.jmpCode (c := c)
  clear inv
  cases h with
  | _ => grind

theorem Inv.called_step : ∀ c ≠ 0, s'.pc c = .callEntry → .ready c ∈ log ++ es := by
  have hboots := inv.boots
  have hcalled := inv.called
  have hjmp (c : Nat) := inv.jmpCode (c := c)
  clear inv
  cases h with
  | _ => grind

theorem Inv.ready_step : ∀ c, .ready c ∈ log ++ es →
    c ≠ 0 ∧ (s'.pc c = .callEntry ∨ (s'.pc c).Entered ∨ s'.Stopped c) := by
  have hearly := inv.early
  have hboots := inv.boots
  have hstopping := inv.stopping
  have hfresh := inv.fresh
  have hpath := inv.path
  have hentries := inv.entries
  have hready := inv.ready
  have hne := jmpLoader_ne_jmpSelf
  clear inv
  cases h with
  | _ => grind

theorem Inv.enters_step : ∀ c f, .enters c f ∈ log ++ es → f = entry ∧
    ((s'.pc c).Entered ∨ s'.Stopped c) ∧ (c ≠ 0 → .ready c ∈ log ++ es) ∧
      (c = 0 → ∀ d > 0, d < n → .ready d ∈ log ++ es) := by
  have hearly := inv.early
  have hboots := inv.boots
  have hstopping := inv.stopping
  have hfresh := inv.fresh
  have hentries := inv.entries
  have hseen := inv.seen
  have hcalled := inv.called
  have henters := inv.enters
  have hne := jmpLoader_ne_jmpSelf
  clear inv
  cases h with
  | _ => grind

/-- Every processor that `__am_stop_the_world` has passed stays stopped. -/
theorem Inv.cleared_step : ∀ c d, (s'.pc c).Cleared n d → d ≠ c → s'.Stopped d := by
  have hearly := inv.early
  have hboots := inv.boots
  have hstopping := inv.stopping
  have hcleared := inv.cleared
  have hstopped (d : Nat) := inv.stopped_step (d := d) h
  have hjmp (c : Nat) := inv.jmpCode (c := c)
  clear inv
  cases h with
  | _ => grind

/-- A processor that has halted is not reset by another, as all others are stopped. -/
theorem Inv.halts_step (ha : a < n) : ∀ c, .halts c ∈ log ++ es → s'.pc c = .halted := by
  have hothers (c : Nat) (hc : s.pc c = .halted) (hne : a ≠ c) : s.Stopped a :=
    inv.cleared c a (by rw [hc]; exact ha) hne
  have hhalts := inv.halts
  clear inv
  cases h with
  | _ => grind

theorem Inv.nodup_step : (log ++ es).Nodup := by
  have hpath := inv.path
  have hready := inv.ready
  have henters := inv.enters
  have hhalts := inv.halts
  have hnodup := inv.nodup
  clear inv
  cases h with
  | _ => grind

theorem Inv.alive_step (ha : a < n) : ∃ c < n, ¬s'.Stopped c := by
  by_cases hstopped : s.Stopped a
  · obtain ⟨c, hc, halive⟩ := inv.alive
    refine ⟨c, hc, ?_⟩
    have hne := jmpLoader_ne_jmpSelf
    clear inv
    cases h with
    | _ => grind
  · refine ⟨a, ha, ?_⟩
    clear inv
    cases h with
    | _ => grind

theorem Inv.step (ha : a < n) : Inv n entry (log ++ es) s' where
  early := inv.early_step h
  boots := inv.boots_step h
  jump := inv.jump_step h
  stopping := inv.stopping_step h
  boot := inv.boot_step h
  fresh := inv.fresh_step h
  path := inv.path_step h
  unique := inv.unique_step h
  isAp := inv.isAp_step h
  entries := inv.entries_step h
  defined := inv.defined_step h
  flag := inv.flag_step h
  seen := inv.seen_step h
  called := inv.called_step h
  ready := inv.ready_step h
  enters := inv.enters_step h
  cleared := inv.cleared_step h
  halts := inv.halts_step h ha
  nodup := inv.nodup_step h
  alive := inv.alive_step h ha

end

theorem Inv.initial (hn : 0 < n) (code : UInt32) : Inv n entry [] (initial code) where
  early := fun _ => ⟨rfl, fun _ hc => if_neg hc⟩
  boots := by grind
  jump := fun hlate => absurd trivial hlate
  stopping := by grind
  boot := by grind
  fresh := by grind
  path := by grind
  unique := by grind
  isAp := by grind
  entries := by grind
  defined := by grind
  flag := by grind
  seen := by grind
  called := by grind
  ready := by grind
  enters := by grind
  cleared := by grind
  halts := by grind
  nodup := List.nodup_nil
  alive := ⟨0, hn, by grind⟩

theorem Inv.of_run (hn : 0 < n) {code : UInt32}
    (run : Run anyStep (Next n entry) (Mpe.initial code) log s) : Inv n entry log s := by
  apply run.invariant (Inv n entry) (Inv.initial hn code)
  intro log es s s' _ _ inv hstep
  obtain ⟨a, ha, choice, hstep⟩ := hstep
  exact inv.step (step_cases hstep) ha

/-- In every run, the stack of the boot loader has one user, no processor loads the kernel or
runs `main` again, each one calls the given entry and does so once, after it has set `ap_ready`
and the boot processor after all have. When one has halted, all others are stopped for good,
and in no state all are stopped. -/
theorem processors_start (hn : 0 < n) {code : UInt32}
    (run : Run anyStep (Next n entry) (initial code) log s) :
    (∀ c d, (s.pc c).OnLoaderStack → (s.pc d).OnLoaderStack → c = d) ∧
    (∀ c, ¬(s.pc c).Stray) ∧
    log.Nodup ∧
    (∀ c f, .enters c f ∈ log → f = entry ∧
      ∀ d > 0, d < n → c = 0 ∨ c = d → .ready d ∈ log) ∧
    (∀ c, .halts c ∈ log → s.pc c = .halted ∧ ∀ d < n, d ≠ c → s.Stopped d) ∧
    ∃ c < n, ¬s.Stopped c := by
  have inv := Inv.of_run hn run
  refine ⟨?_, inv.defined, inv.nodup, ?_, ?_, inv.alive⟩
  · intro c d hc hd
    have honPath (c : Nat) (hc : (s.pc c).OnLoaderStack) : s.OnPath c := by
      unfold Pc.OnLoaderStack at hc
      grind
    exact inv.unique c d (honPath c hc) (honPath d hd)
  · intro c f henters
    obtain ⟨hf, -, hself, hall⟩ := inv.enters c f henters
    refine ⟨hf, ?_⟩
    intro d hpos hd hc
    cases hc with
    | inl hc => exact hall hc d hpos hd
    | inr hc =>
        subst hc
        exact hself (by omega)
  · intro c hhalts
    have hpc := inv.halts c hhalts
    refine ⟨hpc, ?_⟩
    intro d hd hne
    refine inv.cleared c d ?_ hne
    rw [hpc]
    exact hd

def turn (n entry : Nat) (i : Nat × Choice) (s : System) : Option (List Event × System) :=
  if i.1 < n then step n entry i.1 i.2 s else none

theorem next_of_turn (n entry : Nat) (i : Nat × Choice) (s : System) (es : List Event)
    (s' : System) (h : turn n entry i s = some (es, s')) : Next n entry s es s' := by
  unfold turn at h
  split at h
  next hlt => exact ⟨i.1, hlt, i.2, h⟩
  next => cases h

/-- Processor `0` starts the other one, both enter, and then both halt. -/
def twoHalt : List (Nat × Choice) :=
  List.replicate 7 (0, .goOn) ++ List.replicate 6 (1, .goOn) ++ List.replicate 3 (0, .goOn) ++
    [(0, .halt), (1, .halt)] ++ List.replicate 7 (1, .goOn)

theorem processors_start_twoHalt : ∃ log s, Run anyStep (Next 2 42) (initial 0) log s ∧
    log = [.ready 1, .enters 1 42, .enters 0 42, .halts 1] ∧
    (∀ c d, (s.pc c).OnLoaderStack → (s.pc d).OnLoaderStack → c = d) ∧
    (∀ c, ¬(s.pc c).Stray) ∧
    log.Nodup ∧
    (∀ c f, .enters c f ∈ log → f = 42 ∧
      ∀ d > 0, d < 2 → c = 0 ∨ c = d → .ready d ∈ log) ∧
    (∀ c, .halts c ∈ log → s.pc c = .halted ∧ ∀ d < 2, d ≠ c → s.Stopped d) ∧
    ∃ c < 2, ¬s.Stopped c := by
  obtain ⟨log, s, run, hlog⟩ := Lib.exists_run_of_replay anyStep (Next 2 42) (initial 0)
    (fun _ _ => true) (fun _ _ _ => trivial) (next_of_turn 2 42) twoHalt
    (fun log _ => decide (log = [.ready 1, .enters 1 42, .enters 0 42, .halts 1])) (by decide)
  exact ⟨log, s, run, of_decide_eq_true hlog, processors_start (by decide) run⟩

end OSLabs.Mpe
