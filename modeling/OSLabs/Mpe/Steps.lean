import OSLabs.Mpe.Model

/-! # What a step of a processor can do

`step_cases` lists the steps, with the messages of `__am_lapic_bootap` one by one.
-/

namespace OSLabs.Mpe

variable {n entry a c : Nat} {choice : Choice} {s s' : System} {es : List Event}

namespace System

@[simp, grind =] theorem goto_pc (s : System) (a : Nat) (p : Pc) (c : Nat) :
    (s.goto a p).pc c = if c = a then p else s.pc c := Function.update_apply _ _ _ _

@[simp, grind =] theorem goto_userEntry (s : System) (a : Nat) (p : Pc) :
    (s.goto a p).userEntry = s.userEntry := rfl

@[simp, grind =] theorem goto_jmpCode (s : System) (a : Nat) (p : Pc) :
    (s.goto a p).jmpCode = s.jmpCode := rfl

@[simp, grind =] theorem goto_isAp (s : System) (a : Nat) (p : Pc) :
    (s.goto a p).isAp = s.isAp := rfl

@[simp, grind =] theorem goto_apReady (s : System) (a : Nat) (p : Pc) :
    (s.goto a p).apReady = s.apReady := rfl

@[simp, grind =] theorem startup_pc (s : System) (cpu c : Nat) :
    (s.receive cpu .startup).pc c =
      if c = cpu ∧ s.pc cpu = .waitStartup then .bootRecord else s.pc c := by
  unfold receive
  by_cases hpc : s.pc cpu = .waitStartup
  · simp [hpc]
  · simp [hpc]

theorem receive_memory (s : System) (cpu : Nat) (ipi : Ipi) :
    (s.receive cpu ipi).userEntry = s.userEntry ∧ (s.receive cpu ipi).jmpCode = s.jmpCode ∧
      (s.receive cpu ipi).isAp = s.isAp ∧ (s.receive cpu ipi).apReady = s.apReady := by
  cases ipi with
  | init => exact ⟨rfl, rfl, rfl, rfl⟩
  | deassert => exact ⟨rfl, rfl, rfl, rfl⟩
  | startup =>
      unfold receive
      by_cases hpc : s.pc cpu = .waitStartup
      · rw [if_pos hpc]
        exact ⟨rfl, rfl, rfl, rfl⟩
      · rw [if_neg hpc]
        exact ⟨rfl, rfl, rfl, rfl⟩

@[simp, grind =] theorem receive_userEntry (s : System) (cpu : Nat) (ipi : Ipi) :
    (s.receive cpu ipi).userEntry = s.userEntry := (s.receive_memory cpu ipi).1

@[simp, grind =] theorem receive_jmpCode (s : System) (cpu : Nat) (ipi : Ipi) :
    (s.receive cpu ipi).jmpCode = s.jmpCode := (s.receive_memory cpu ipi).2.1

@[simp, grind =] theorem receive_isAp (s : System) (cpu : Nat) (ipi : Ipi) :
    (s.receive cpu ipi).isAp = s.isAp := (s.receive_memory cpu ipi).2.2.1

@[simp, grind =] theorem receive_apReady (s : System) (cpu : Nat) (ipi : Ipi) :
    (s.receive cpu ipi).apReady = s.apReady := (s.receive_memory cpu ipi).2.2.2

end System

section

variable (code : UInt32)

@[grind =] theorem initial_pc (c : Nat) :
    (initial code).pc c = if c = 0 then .main else .waitStartup := rfl

@[grind =] theorem initial_apReady : (initial code).apReady = 0 := rfl

end

/-! ## The cases of a step -/

inductive Stepped (n entry a : Nat) (s : System) : List Event → System → Prop where
  | calls (h : s.pc a = .main) :
      Stepped n entry a s [] ({ s with userEntry := some entry }.goto a .setJump)
  | stops (h : s.pc a = .main ∨ ∃ f, s.pc a = .user f) :
      Stepped n entry a s [] ({ s with jmpCode := jmpSelf }.goto a (.stopFor 0))
  | jump (h : s.pc a = .setJump) :
      Stepped n entry a s [] ({ s with jmpCode := jmpLoader }.goto a (.forCpu 1))
  | next {cpu : Nat} (h : s.pc a = .forCpu cpu) (hlt : cpu < n) :
      Stepped n entry a s [] ({ s with isAp := 1 }.goto a (.bootAp .mpeInit cpu 0))
  | started {cpu : Nat} (h : s.pc a = .forCpu cpu) (hge : n ≤ cpu) :
      Stepped n entry a s [] (s.goto a .callEntry)
  | init {caller : Caller} {cpu : Nat} (h : s.pc a = .bootAp caller cpu 0) :
      Stepped n entry a s [] ((s.goto cpu .waitStartup).goto a (.bootAp caller cpu 1))
  | deassert {caller : Caller} {cpu : Nat} (h : s.pc a = .bootAp caller cpu 1) :
      Stepped n entry a s [] (s.goto a (.bootAp caller cpu 2))
  | startup {caller : Caller} {cpu : Nat} (h : s.pc a = .bootAp caller cpu 2) :
      Stepped n entry a s [] ((s.receive cpu .startup).goto a (.bootAp caller cpu 3))
  | waits {cpu : Nat} (h : s.pc a = .bootAp .mpeInit cpu 3) :
      Stepped n entry a s [] ((s.receive cpu .startup).goto a (.waitReady cpu))
  | stopped {cpu : Nat} (h : s.pc a = .bootAp .stopTheWorld cpu 3) :
      Stepped n entry a s [] ((s.receive cpu .startup).goto a (.stopFor (cpu + 1)))
  | sees {cpu : Nat} (h : s.pc a = .waitReady cpu) (hready : s.apReady = 1) :
      Stepped n entry a s [] ({ s with apReady := 0 }.goto a (.forCpu (cpu + 1)))
  | spins {cpu : Nat} (h : s.pc a = .waitReady cpu) (hready : s.apReady ≠ 1) :
      Stepped n entry a s [] ({ s with apReady := 0 }.goto a (.waitReady cpu))
  | enters {f : Nat} (h : s.pc a = .callEntry) (hf : s.userEntry = some f) :
      Stepped n entry a s [.enters a f] (s.goto a (.user f))
  | undefined (h : s.pc a = .callEntry) (hf : s.userEntry = none) :
      Stepped n entry a s [] (s.goto a .lost)
  | computes {f : Nat} (h : s.pc a = .user f) : Stepped n entry a s [] s
  | loader (h : s.pc a = .bootRecord) (hjump : s.jmpCode = jmpLoader) :
      Stepped n entry a s [] (s.goto a .loadKernel)
  | loops (h : s.pc a = .bootRecord) (hjump : s.jmpCode = jmpSelf) :
      Stepped n entry a s [] (s.goto a .bootRecord)
  | strays (h : s.pc a = .bootRecord) (hloader : s.jmpCode ≠ jmpLoader)
      (hself : s.jmpCode ≠ jmpSelf) : Stepped n entry a s [] (s.goto a (afterJump s.jmpCode))
  | skipsLoad (h : s.pc a = .loadKernel) (hap : s.isAp ≠ 0) :
      Stepped n entry a s [] (s.goto a .startC)
  | loads (h : s.pc a = .loadKernel) (hap : s.isAp = 0) :
      Stepped n entry a s [] (s.goto a .loading)
  | other (h : s.pc a = .startC) (hap : s.isAp ≠ 0) :
      Stepped n entry a s [] (s.goto a .percpuInit)
  | boots (h : s.pc a = .startC) (hap : s.isAp = 0) :
      Stepped n entry a s [] (s.goto a .bootcpuInit)
  | initialized (h : s.pc a = .percpuInit) : Stepped n entry a s [] (s.goto a .announce)
  | announces (h : s.pc a = .announce) :
      Stepped n entry a s [.ready a] ({ s with apReady := 1 }.goto a .callEntry)
  | stopsNext {cpu : Nat} (h : s.pc a = .stopFor cpu) (hlt : cpu < n) (hne : cpu ≠ a) :
      Stepped n entry a s [] (s.goto a (.bootAp .stopTheWorld cpu 0))
  | skipsSelf {cpu : Nat} (h : s.pc a = .stopFor cpu) (hlt : cpu < n) (heq : cpu = a) :
      Stepped n entry a s [] (s.goto a (.stopFor (cpu + 1)))
  | halts {cpu : Nat} (h : s.pc a = .stopFor cpu) (hge : n ≤ cpu) :
      Stepped n entry a s [.halts a] (s.goto a .halted)

theorem step_cases (h : step n entry a choice s = some (es, s')) :
    Stepped n entry a s es s' := by
  unfold step at h
  cases hpc : s.pc a with
  | main =>
      cases choice with
      | goOn =>
          simp only [hpc] at h
          cases h
          exact .calls hpc
      | halt =>
          simp only [hpc] at h
          cases h
          exact .stops (.inl hpc)
  | setJump =>
      simp only [hpc] at h
      cases h
      exact .jump hpc
  | forCpu cpu =>
      by_cases hlt : cpu < n
      · simp only [hpc, if_pos hlt] at h
        cases h
        exact .next hpc hlt
      · simp only [hpc, if_neg hlt] at h
        cases h
        exact .started hpc (Nat.not_lt.1 hlt)
  | bootAp caller cpu i =>
      simp only [hpc, Option.map_eq_some_iff, Prod.mk.injEq] at h
      obtain ⟨ipi, hipi, rfl, rfl⟩ := h
      match i, hipi with
      | 0, rfl => exact .init hpc
      | 1, rfl => exact .deassert hpc
      | 2, rfl => exact .startup hpc
      | 3, rfl =>
          cases caller with
          | mpeInit => exact .waits hpc
          | stopTheWorld => exact .stopped hpc
  | waitReady cpu =>
      by_cases hready : s.apReady = 1
      · simp only [hpc, if_pos hready] at h
        cases h
        exact .sees hpc hready
      · simp only [hpc, if_neg hready] at h
        cases h
        exact .spins hpc hready
  | callEntry =>
      cases hf : s.userEntry with
      | none =>
          simp only [hpc, hf] at h
          cases h
          exact .undefined hpc hf
      | some f =>
          simp only [hpc, hf] at h
          cases h
          exact .enters hpc hf
  | user f =>
      cases choice with
      | goOn =>
          simp only [hpc] at h
          cases h
          exact .computes hpc
      | halt =>
          simp only [hpc] at h
          cases h
          exact .stops (.inr ⟨f, hpc⟩)
  | bootRecord =>
      simp only [hpc] at h
      cases h
      by_cases hloader : s.jmpCode = jmpLoader
      · rw [hloader, afterJump_jmpLoader]
        exact .loader hpc hloader
      · by_cases hself : s.jmpCode = jmpSelf
        · rw [hself, afterJump_jmpSelf]
          exact .loops hpc hself
        · exact .strays hpc hloader hself
  | loadKernel =>
      simp only [hpc] at h
      cases h
      by_cases hap : s.isAp = 0
      · rw [if_neg (not_not.2 hap)]
        exact .loads hpc hap
      · rw [if_pos hap]
        exact .skipsLoad hpc hap
  | startC =>
      simp only [hpc] at h
      cases h
      by_cases hap : s.isAp = 0
      · rw [if_neg (not_not.2 hap)]
        exact .boots hpc hap
      · rw [if_pos hap]
        exact .other hpc hap
  | percpuInit =>
      simp only [hpc] at h
      cases h
      exact .initialized hpc
  | announce =>
      simp only [hpc] at h
      cases h
      exact .announces hpc
  | stopFor cpu =>
      by_cases hlt : cpu < n
      · simp only [hpc, if_pos hlt] at h
        cases h
        by_cases hself : cpu = a
        · rw [if_neg (not_not.2 hself)]
          exact .skipsSelf hpc hlt hself
        · rw [if_pos hself]
          exact .stopsNext hpc hlt hself
      · simp only [hpc, if_neg hlt] at h
        cases h
        exact .halts hpc (Nat.not_lt.1 hlt)
  | waitStartup => simp [hpc] at h
  | halted => simp [hpc] at h
  | loading => simp [hpc] at h
  | bootcpuInit => simp [hpc] at h
  | lost => simp [hpc] at h

end OSLabs.Mpe
