import OSLabs.Native.Agreement

/-! # Switching between address spaces

What switching relies on holds after a run exactly if no page was mapped a second time in
its address space. A second mapping hangs a node in front of the list that it is on: the
list becomes a cycle, and every switch that has to follow it runs forever.
-/

namespace OSLabs.Native

open OSLabs.Lib

variable {pgsize : Nat} {pgalloc : Pgalloc} {log : List Event} {m m' : Machine} {h fuel : Nat}
  {head : Option Nat} {l : List Nat}

/-- Every list ends and has each page of its address space once, every switch returns with
the host mappings of the new address space, and the host has those of the current one. -/
structure Switchable (log : List Event) (m : Machine) : Prop where
  lists : ∀ h, (m.heads h).isSome → ∃ (l : List Nat) (es : List PageMap),
    Chain (nextOf m.nodes) (headOf m h) l ∧ l.map m.nodes = es.map some ∧
    ∀ va, (es.map (·.va)).count va = if (latest log h va).isSome then 1 else 0
  switches : ∀ head, (∀ h, head = some h → (m.heads h).isSome) →
    ∃ n m', (∀ fuel, n ≤ fuel → amSwitch fuel head m = .ok m') ∧ m'.vmHead = head ∧
      m'.host = hostOf log head
  host : m.host = hostOf log m.vmHead

/-! ## Without second mappings -/

theorem UserNodes.exists_nodes {nodes : Nat → Option PageMap} (hl : UserNodes nodes l) :
    ∃ es : List PageMap, l.map nodes = es.map some := by
  induction l with
  | nil => exact ⟨[], rfl⟩
  | cons p l ih =>
      rcases hl p List.mem_cons_self with ⟨e, he, _⟩
      rcases ih fun q hq => hl q (List.mem_cons_of_mem _ hq) with ⟨es, hes⟩
      exact ⟨e :: es, by rw [List.map_cons, List.map_cons, he, hes]⟩

theorem Agrees.mem_pages (inv : Agrees log m) (hl : Chain (nextOf m.nodes) (headOf m h) l)
    {va : Nat} : (∃ p ∈ l, (m.nodes p).map (·.va) = some va) ↔ (latest log h va).isSome := by
  constructor
  · intro hp
    rcases hp with ⟨p, hp, hva⟩
    rcases inv.linked.owned (inv.linked.owns_of_mem hl hp) with ⟨e, he, huser, hnode⟩
    rw [he, Option.map_some, Option.some.injEq] at hva
    rw [hva] at huser hnode
    exact mem_pagesOf.1 ((inv.mem_pagesOf_iff huser).2 ⟨p, hnode⟩)
  · intro hlatest
    rcases Option.isSome_iff_exists.1 hlatest with ⟨mp, hmp⟩
    rcases inv.node_of_latest hmp with ⟨p, e, hp, he, hva, -⟩
    have huser := inv.user (mem_pagesOf.2 hlatest)
    exact ⟨p, inv.complete hl ⟨va, huser, hp⟩, by rw [he, Option.map_some, hva]⟩

/-- The nodes on the list of an address space are its pages, each once. -/
theorem Agrees.pages_once (inv : Agrees log m) (hl : Chain (nextOf m.nodes) (headOf m h) l) :
    ∃ es : List PageMap, l.map m.nodes = es.map some ∧
      ∀ va, (es.map (·.va)).count va = if (latest log h va).isSome then 1 else 0 := by
  rcases (inv.linked.userNodes hl).exists_nodes with ⟨es, hes⟩
  have hvas : l.map (fun p => (m.nodes p).map (·.va)) = (es.map (·.va)).map some := by
    have hmap := congrArg (List.map (Option.map (·.va))) hes
    simpa only [List.map_map, Function.comp_def, Option.map_some] using hmap
  have hnodup : (es.map (·.va)).Nodup := by
    apply List.Nodup.of_map some
    rw [← hvas]
    apply List.Nodup.map_on _ hl.nodup
    intro p hp p' hp' heq
    rcases inv.linked.owned (inv.linked.owns_of_mem hl hp) with ⟨e, he, -, hnode⟩
    rcases inv.linked.owned (inv.linked.owns_of_mem hl hp') with ⟨e', he', -, hnode'⟩
    rw [he, he', Option.map_some, Option.map_some, Option.some.injEq] at heq
    rw [heq, hnode'] at hnode
    exact (Option.some.inj hnode).symm
  refine ⟨es, hes, ?_⟩
  intro va
  have hmem : va ∈ es.map (·.va) ↔ (latest log h va).isSome := by
    rw [← inv.mem_pages hl, ← List.mem_map, hvas,
      List.mem_map_of_injective fun _ _ heq => Option.some.inj heq]
  rw [List.Nodup.count hnodup, if_congr hmem rfl rfl]

theorem Agrees.lists_of_noRemap (inv : Agrees log m) (hlog : NoRemap log) (head : Option Nat) :
    ∃ l, Lists m head l := by
  cases head with
  | none => exact ⟨[], .nil⟩
  | some h => exact (inv.finite h).2 (hlog h)

theorem Agrees.switch_returns (inv : Agrees log m) (hlog : NoRemap log)
    (hborn : ∀ h, head = some h → (m.heads h).isSome) :
    ∃ n m', (∀ fuel, n ≤ fuel → amSwitch fuel head m = .ok m') ∧ m'.vmHead = head ∧
      m'.host = hostOf log head := by
  by_cases hne : head = m.vmHead
  · have hdisabled : ¬m.vmeEnable = false := by simp [inv.enabled]
    refine ⟨0, { m with vmHead := head }, ?_, rfl, by rw [hne]; exact inv.host⟩
    intro fuel _
    rw [amSwitch, if_neg hdisabled, if_pos hne]
  · rcases inv.lists_of_noRemap hlog m.vmHead with ⟨l, hl⟩
    rcases inv.lists_of_noRemap hlog head with ⟨l', hl'⟩
    refine ⟨max l.length l'.length, switched head l l' m, ?_, rfl,
      (inv.switched_agrees hborn hl hl').host⟩
    intro fuel hfuel
    rw [inv.amSwitch_eq hborn hne hl hl', if_pos (by omega)]

theorem Agrees.switchable (inv : Agrees log m) (hlog : NoRemap log) : Switchable log m where
  lists := by
    intro h _
    rcases (inv.finite h).2 (hlog h) with ⟨l, hl⟩
    rcases inv.pages_once hl with ⟨es, hes⟩
    exact ⟨l, es, hl, hes⟩
  switches _ hborn := inv.switch_returns hlog hborn
  host := inv.host

/-! ## After a second mapping -/

/-- A list whose address space maps a page again does not end. -/
theorem Agrees.cyclic (inv : Agrees log m) (hlog : ¬(pagesOf log h).Nodup) :
    ¬∃ l, Chain (nextOf m.nodes) (headOf m h) l := by
  rwa [inv.finite]

theorem Agrees.switch_runs_on (inv : Agrees log m) (hlog : ¬(pagesOf log h).Nodup)
    (hne : m.vmHead ≠ some h) : amSwitch fuel (some h) m ≠ .ok m' := by
  intro hok
  rcases inv.amSwitch_ok hok with ⟨hsame, -⟩ | ⟨-, -, -, l', -, hl', -⟩
  · exact hne hsame.symm
  · exact inv.cyclic hlog ⟨l', hl'⟩

theorem Agrees.noRemap (inv : Agrees log m) (hlists : ∀ h, (m.heads h).isSome →
    ∃ l, Chain (nextOf m.nodes) (headOf m h) l) : NoRemap log := by
  intro h
  rw [← inv.finite]
  cases hH : m.heads h with
  | none =>
      have hhead : headOf m h = none := by simp [headOf, hH]
      rw [hhead]
      exact ⟨[], .nil⟩
  | some H => exact hlists h (by rw [hH]; rfl)

/-! ## Concrete runs -/

def bumpAlloc : Pgalloc where
  answer ps :=
    let p := 0x1100000 + 4096 * ps.length
    if p ∈ ps then none else some p
  fresh := by
    intro ps p h
    simp only [Option.ite_none_left_eq_some, Option.some.injEq] at h
    exact h.2 ▸ h.1

def performEight (call : Call) (m : Machine) : Option (List Event × Machine) :=
  (perform 4096 bumpAlloc 8 m call).toOption

theorem step_of_performEight {call : Call} {es : List Event}
    (h : performEight call m = some (es, m')) : Step 4096 bumpAlloc m es m' := by
  unfold performEight at h
  cases hok : perform 4096 bumpAlloc 8 m call with
  | error stop => simp [hok, Except.toOption] at h
  | ok r =>
      simp only [hok, Except.toOption, Option.some.injEq] at h
      exact ⟨8, call, h ▸ hok⟩

theorem exists_run_of_calls (calls : List Call) (p : List Event → Machine → Bool)
    (h : (replay (fun _ _ => true) performEight calls ([], start)).any (fun c => p c.1 c.2) = true) :
    ∃ log m, Run anyStep (Step 4096 bumpAlloc) start log m ∧ p log m = true :=
  exists_run_of_replay anyStep (Step 4096 bumpAlloc) start (fun _ _ => true)
    (fun _ _ _ => trivial) (fun _ _ _ _ => step_of_performEight) calls p h

/-! ## Switching -/

/-- All that switching relies on holds after a run if and only if no page was mapped a
second time in its address space. -/
theorem switchable_iff_noRemap (run : Run anyStep (Step pgsize pgalloc) start log m) :
    Switchable log m ↔ NoRemap log := by
  have inv := run_agrees run
  constructor
  · intro hswitch
    apply inv.noRemap
    intro h hborn
    rcases hswitch.lists h hborn with ⟨l, _, hl, _⟩
    exact ⟨l, hl⟩
  · exact inv.switchable

/-- Two address spaces that map the same page differently; the second is current. -/
theorem switchable_iff_noRemap_twoSpaces : ∃ log m,
    Run anyStep (Step 4096 bumpAlloc) start log m ∧ Switchable log m ∧
      m.host 0x40000000 = some ⟨0x3000, protRead ||| protExec⟩ ∧ m.host 0x40001000 = none := by
  have hrun := exists_run_of_calls
    [.protect 1, .map 1 0x40000000 0x1002000 3, .map 1 0x40001000 0x1004000 3, .protect 2,
      .switch (some 0x1100000), .map 2 0x40000000 0x1003000 1, .switch (some 0x1103000)]
    (fun log m => decide (log =
        [.protect 1 0x1100000, .map 0x1100000 0x40000000 ⟨0x1002000, 3⟩,
          .map 0x1100000 0x40001000 ⟨0x1004000, 3⟩, .protect 2 0x1103000,
          .switch (some 0x1100000), .map 0x1103000 0x40000000 ⟨0x1003000, 1⟩,
          .switch (some 0x1103000)]) &&
      decide (m.vmHead = some 0x1103000))
    (by decide +kernel)
  rcases hrun with ⟨log, m, run, hrun⟩
  rw [Bool.and_eq_true, decide_eq_true_eq, decide_eq_true_eq] at hrun
  rcases hrun with ⟨rfl, hcur⟩
  have hswitch := (switchable_iff_noRemap run).2 (by
    intro h
    by_cases h₁ : 0x1100000 = h
    · subst h₁
      decide
    · by_cases h₂ : 0x1103000 = h
      · subst h₂
        decide
      · simp [pagesOf, h₁, h₂])
  refine ⟨_, m, run, hswitch, ?_, ?_⟩
  · rw [hswitch.host, hcur]
    decide
  · rw [hswitch.host, hcur]
    decide

/-- The second mapping of one page: its node becomes its own successor, so no list ends
there and no switch to the address space returns. -/
theorem remapped_list_cyclic : ∃ log m,
    Run anyStep (Step 4096 bumpAlloc) start log m ∧
      log = [.protect 1 0x1100000, .map 0x1100000 0x40000000 ⟨0x1002000, 3⟩,
        .map 0x1100000 0x40000000 ⟨0x1003000, 3⟩] ∧
      nextOf m.nodes 0x1101000 = some 0x1101000 ∧
      (¬∃ l, Chain (nextOf m.nodes) (headOf m 0x1100000) l) ∧
      (∀ fuel m', amSwitch fuel (some 0x1100000) m ≠ .ok m') ∧ ¬Switchable log m := by
  have hrun := exists_run_of_calls
    [.protect 1, .map 1 0x40000000 0x1002000 3, .map 1 0x40000000 0x1003000 3]
    (fun log m => decide (log =
        [.protect 1 0x1100000, .map 0x1100000 0x40000000 ⟨0x1002000, 3⟩,
          .map 0x1100000 0x40000000 ⟨0x1003000, 3⟩]) &&
      (decide (m.vmHead = none) && (decide (nextOf m.nodes 0x1101000 = some 0x1101000) &&
        (m.heads 0x1100000).isSome)))
    (by decide +kernel)
  rcases hrun with ⟨log, m, run, hrun⟩
  rw [Bool.and_eq_true, Bool.and_eq_true, Bool.and_eq_true, decide_eq_true_eq,
    decide_eq_true_eq, decide_eq_true_eq] at hrun
  rcases hrun with ⟨rfl, hcur, hself, hborn⟩
  have inv := run_agrees run
  have hcyclic := inv.cyclic (h := 0x1100000) (by decide)
  refine ⟨_, m, run, rfl, hself, hcyclic, ?_, ?_⟩
  · intro fuel m'
    exact inv.switch_runs_on (by decide) (by simp [hcur])
  · intro hswitch
    rcases hswitch.lists _ hborn with ⟨l, _, hl, _⟩
    exact hcyclic ⟨l, hl⟩

end OSLabs.Native
