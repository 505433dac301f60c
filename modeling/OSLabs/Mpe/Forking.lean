import Mathlib.Algebra.BigOperators.Group.Finset.Basic
import Mathlib.Algebra.Order.BigOperators.Group.Finset
import OSLabs.Lib.Run

/-! # The processors of the native machine

There `mpe_init` forks a process for each further processor. These wait for a byte from a pipe
that all of them share, and the parent writes one for each as soon as the devices are there.
-/

namespace OSLabs.Mpe.Native

open Lib (Run anyStep)

inductive Parent where
  /-- Before the test of the first loop. -/
  | forking (i : Nat)
  | initIoe
  /-- Before the test of the second loop. -/
  | writing (i : Nat)
  | closing
  | entered
  deriving DecidableEq, Repr

inductive Child where
  | reading
  | checking (ch : Char)
  | closing
  | entered
  /-- An assertion has failed. -/
  | failed
  deriving DecidableEq, Repr

def Child.isOpen : Child → Bool
  | reading | checking _ | closing => true
  | _ => false

/-- The parent, the children by the processor that they stand for, and the pipe. -/
structure Processes where
  parent : Parent
  child : Nat → Option Child
  pipe : List Char
  parentOpen : Bool
  ioe : Bool

def Processes.hasWriter (s : Processes) (n : Nat) : Bool :=
  s.parentOpen || (List.range n).any fun i => (s.child i).any Child.isOpen

/-- The process of a processor calls `entry`. -/
inductive Event where
  | enters (cpuid : Nat)
  deriving DecidableEq, Repr

/-- One step of the process of processor `p`, if it does not wait. The pipe takes `cap` bytes. -/
def step (n cap : Nat) (hasIoe : Bool) (p : Nat) (s : Processes) :
    Option (List Event × Processes) :=
  if p = 0 then
    match s.parent with
    | .forking i =>
      if i < n then
        some ([], { s with
          parent := .forking (i + 1), child := Function.update s.child i (some .reading) })
      else some ([], { s with parent := .initIoe })
    | .initIoe => some ([], { s with parent := .writing 1, ioe := hasIoe })
    | .writing i =>
      if i < n then
        if s.pipe.length < cap then
          some ([], { s with parent := .writing (i + 1), pipe := s.pipe ++ ['+'] })
        else none
      else some ([], { s with parent := .closing })
    | .closing => some ([.enters 0], { s with parent := .entered, parentOpen := false })
    | .entered => none
  else
    match s.child p with
    | some .reading =>
      match s.pipe with
      | ch :: rest =>
        some ([], { s with pipe := rest, child := Function.update s.child p (some (.checking ch)) })
      | [] =>
        if s.hasWriter n then none
        else some ([], { s with child := Function.update s.child p (some .failed) })
    | some (.checking ch) =>
      some ([], { s with
        child := Function.update s.child p (some (if ch = '+' then .closing else .failed)) })
    | some .closing =>
      some ([.enters p], { s with child := Function.update s.child p (some .entered) })
    | _ => none

def initial : Processes where
  parent := .forking 1
  child := fun _ => none
  pipe := []
  parentOpen := true
  ioe := false

def Next (n cap : Nat) (hasIoe : Bool) (s : Processes) (es : List Event) (s' : Processes) : Prop :=
  ∃ p < n, step n cap hasIoe p s = some (es, s')

/-! ## The cases of a step -/

variable {n cap p : Nat} {hasIoe : Bool} {s s' : Processes} {es log : List Event}

inductive Stepped (n cap : Nat) (hasIoe : Bool) (p : Nat) (s : Processes) :
    List Event → Processes → Prop where
  | forks {i : Nat} (hp : p = 0) (h : s.parent = .forking i) (hlt : i < n) :
      Stepped n cap hasIoe p s [] { s with
        parent := .forking (i + 1), child := Function.update s.child i (some .reading) }
  | forked {i : Nat} (hp : p = 0) (h : s.parent = .forking i) (hge : n ≤ i) :
      Stepped n cap hasIoe p s [] { s with parent := .initIoe }
  | inits (hp : p = 0) (h : s.parent = .initIoe) :
      Stepped n cap hasIoe p s [] { s with parent := .writing 1, ioe := hasIoe }
  | writes {i : Nat} (hp : p = 0) (h : s.parent = .writing i) (hlt : i < n)
      (hroom : s.pipe.length < cap) :
      Stepped n cap hasIoe p s [] { s with
        parent := .writing (i + 1), pipe := s.pipe ++ ['+'] }
  | written {i : Nat} (hp : p = 0) (h : s.parent = .writing i) (hge : n ≤ i) :
      Stepped n cap hasIoe p s [] { s with parent := .closing }
  | enters (hp : p = 0) (h : s.parent = .closing) :
      Stepped n cap hasIoe p s [.enters 0] { s with parent := .entered, parentOpen := false }
  | reads {ch : Char} {rest : List Char} (hp : p ≠ 0) (h : s.child p = some .reading)
      (hpipe : s.pipe = ch :: rest) :
      Stepped n cap hasIoe p s [] { s with
        pipe := rest, child := Function.update s.child p (some (.checking ch)) }
  | ends (hp : p ≠ 0) (h : s.child p = some .reading) (hpipe : s.pipe = [])
      (hwriter : s.hasWriter n = false) :
      Stepped n cap hasIoe p s [] { s with child := Function.update s.child p (some .failed) }
  | checks {ch : Char} (hp : p ≠ 0) (h : s.child p = some (.checking ch)) :
      Stepped n cap hasIoe p s [] { s with
        child := Function.update s.child p (some (if ch = '+' then .closing else .failed)) }
  | joins (hp : p ≠ 0) (h : s.child p = some .closing) :
      Stepped n cap hasIoe p s [.enters p] { s with
        child := Function.update s.child p (some .entered) }

theorem step_cases (h : step n cap hasIoe p s = some (es, s')) :
    Stepped n cap hasIoe p s es s' := by
  unfold step at h
  by_cases hp : p = 0
  · rw [if_pos hp] at h
    cases hparent : s.parent with
    | forking i =>
        by_cases hlt : i < n
        · simp only [hparent, if_pos hlt] at h
          cases h
          exact .forks hp hparent hlt
        · simp only [hparent, if_neg hlt] at h
          cases h
          exact .forked hp hparent (Nat.not_lt.1 hlt)
    | initIoe =>
        simp only [hparent] at h
        cases h
        exact .inits hp hparent
    | writing i =>
        by_cases hlt : i < n
        · by_cases hroom : s.pipe.length < cap
          · simp only [hparent, if_pos hlt, if_pos hroom] at h
            cases h
            exact .writes hp hparent hlt hroom
          · simp [hparent, hlt, hroom] at h
        · simp only [hparent, if_neg hlt] at h
          cases h
          exact .written hp hparent (Nat.not_lt.1 hlt)
    | closing =>
        simp only [hparent] at h
        cases h
        exact .enters hp hparent
    | entered => simp [hparent] at h
  · rw [if_neg hp] at h
    cases hchild : s.child p with
    | none => simp [hchild] at h
    | some c =>
        cases c with
        | reading =>
            cases hpipe : s.pipe with
            | nil =>
                by_cases hwriter : s.hasWriter n = true
                · simp [hchild, hpipe, hwriter] at h
                · simp only [hchild, hpipe, if_neg hwriter] at h
                  cases h
                  have hends : Stepped n cap hasIoe p s [] _ :=
                    .ends hp hchild hpipe (Bool.eq_false_iff.2 hwriter)
                  rwa [hpipe] at hends
            | cons ch rest =>
                simp only [hchild, hpipe] at h
                cases h
                exact .reads hp hchild hpipe
        | checking ch =>
            simp only [hchild] at h
            cases h
            exact .checks hp hchild
        | closing =>
            simp only [hchild] at h
            cases h
            exact .joins hp hchild
        | entered => simp [hchild] at h
        | failed => simp [hchild] at h

/-! ## Bytes and children -/

@[grind] def Parent.forked (n : Nat) : Parent → Nat
  | forking i => i
  | _ => n

@[grind] def Parent.written (n : Nat) : Parent → Nat
  | writing i => i - 1
  | closing | entered => n - 1
  | _ => 0

@[grind] def taken : Option Child → Nat
  | none | some .reading => 0
  | _ => 1

def Processes.takenAll (s : Processes) (n : Nat) : Nat := ∑ i ∈ Finset.range n, taken (s.child i)

theorem sum_range_succ_of_one {f g : Nat → Nat} (hp : p < n) (hat : g p = f p + 1)
    (hother : ∀ i ≠ p, g i = f i) :
    ∑ i ∈ Finset.range n, g i = ∑ i ∈ Finset.range n, f i + 1 := by
  have hmem : p ∈ Finset.range n := Finset.mem_range.2 hp
  rw [← Finset.add_sum_erase _ g hmem, ← Finset.add_sum_erase _ f hmem, hat]
  have hrest : ∑ i ∈ (Finset.range n).erase p, g i = ∑ i ∈ (Finset.range n).erase p, f i :=
    Finset.sum_congr rfl fun i hi => hother i (Finset.ne_of_mem_erase hi)
  omega

structure Inv (n : Nat) (hasIoe : Bool) (log : List Event) (s : Processes) : Prop where
  loops : ∀ i, s.parent = .forking i ∨ s.parent = .writing i → 0 < i ∧ (i ≤ n ∨ i = 1)
  forked : ∀ i, (s.child i).isSome ↔ 0 < i ∧ i < s.parent.forked n
  bytes : ∀ ch ∈ s.pipe, ch = '+'
  checked : ∀ i ch, s.child i = some (.checking ch) → ch = '+'
  sound : ∀ i, s.child i ≠ some .failed
  /-- Each byte that has been written is in the pipe, or one child has taken it. -/
  count : s.pipe.length + s.takenAll n = s.parent.written n
  ioe : (∃ i, s.parent = .writing i) ∨ s.parent = .closing ∨ s.parent = .entered → s.ioe = hasIoe
  logged : ∀ p, .enters p ∈ log ↔
    p = 0 ∧ s.parent = .entered ∨ p ≠ 0 ∧ s.child p = some .entered
  nodup : log.Nodup

/-- A child that reads could write itself, so it does not come to the end of the pipe. -/
theorem hasWriter_of_reading (hp : p < n) (hchild : s.child p = some .reading) :
    s.hasWriter n = true := by
  unfold Processes.hasWriter
  have hopen : (List.range n).any (fun i => (s.child i).any Child.isOpen) = true := by
    rw [List.any_eq_true]
    refine ⟨p, List.mem_range.2 hp, ?_⟩
    rw [hchild]
    rfl
  rw [hopen, Bool.or_true]

section

variable (inv : Inv n hasIoe log s) (h : Stepped n cap hasIoe p s es s')

include inv h

theorem Inv.loops_step :
    ∀ i, s'.parent = .forking i ∨ s'.parent = .writing i → 0 < i ∧ (i ≤ n ∨ i = 1) := by
  have hloops := inv.loops
  clear inv
  cases h with
  | _ => grind

theorem Inv.forked_step : ∀ i, (s'.child i).isSome ↔ 0 < i ∧ i < s'.parent.forked n := by
  have hloops := inv.loops
  have hforked := inv.forked
  clear inv
  cases h with
  | _ => grind

theorem Inv.bytes_step : ∀ ch ∈ s'.pipe, ch = '+' := by
  have hbytes := inv.bytes
  clear inv
  cases h with
  | _ => grind

theorem Inv.checked_step : ∀ i ch, s'.child i = some (.checking ch) → ch = '+' := by
  have hbytes := inv.bytes
  have hchecked := inv.checked
  clear inv
  cases h with
  | reads hp h hpipe =>
      have hch := hbytes _ (hpipe ▸ List.mem_cons_self)
      grind
  | _ => grind

theorem Inv.sound_step (hp : p < n) : ∀ i, s'.child i ≠ some .failed := by
  have hsound := inv.sound
  have hchecked := inv.checked
  have hwriter := hasWriter_of_reading (s := s) hp
  clear inv
  cases h with
  | _ => grind

theorem Inv.ioe_step : (∃ i, s'.parent = .writing i) ∨ s'.parent = .closing ∨
    s'.parent = .entered → s'.ioe = hasIoe := by
  have hioe := inv.ioe
  clear inv
  cases h with
  | _ => grind

theorem Inv.logged_step : ∀ q, .enters q ∈ log ++ es ↔
    q = 0 ∧ s'.parent = .entered ∨ q ≠ 0 ∧ s'.child q = some .entered := by
  have hforked := inv.forked
  have hlogged := inv.logged
  clear inv
  cases h with
  | _ => grind

theorem Inv.nodup_step : (log ++ es).Nodup := by
  have hlogged := inv.logged
  have hnodup := inv.nodup
  clear inv
  cases h with
  | _ => grind

/-- Only a read takes a byte. -/
theorem Inv.takenAll_step (hp : p < n) :
    s'.takenAll n = s.takenAll n ∧ s'.pipe.length = s.pipe.length ∧
        s'.parent.written n = s.parent.written n ∨
      s'.takenAll n = s.takenAll n ∧ s'.pipe.length = s.pipe.length + 1 ∧
        s'.parent.written n = s.parent.written n + 1 ∨
      s'.takenAll n = s.takenAll n + 1 ∧ s'.pipe.length + 1 = s.pipe.length ∧
        s'.parent.written n = s.parent.written n := by
  have hloops := inv.loops
  have hforked := inv.forked
  have hsame (child : Nat → Option Child) (h : ∀ i, taken (child i) = taken (s.child i)) :
      ∑ i ∈ Finset.range n, taken (child i) = s.takenAll n :=
    Finset.sum_congr rfl fun i _ => h i
  have hwriter := hasWriter_of_reading (s := s) hp
  clear inv
  cases h with
  | forks hp h hlt =>
      rename_i i
      have hnone : s.child i = none := by
        rw [← Option.not_isSome_iff_eq_none, hforked, h]
        exact fun hi => Nat.lt_irrefl i hi.2
      left
      exact ⟨hsame _ (by grind), rfl, by grind⟩
  | writes hp h hlt hroom =>
      right
      left
      exact ⟨rfl, by simp, by grind⟩
  | reads hp' h hpipe =>
      right
      right
      refine ⟨sum_range_succ_of_one hp ?_ ?_, ?_, rfl⟩
      · grind
      · grind
      · rw [hpipe, List.length_cons]
  | ends hp h hpipe hnone =>
      rw [hwriter h] at hnone
      cases hnone
  | checks hp h =>
      left
      exact ⟨hsame _ (by grind), rfl, rfl⟩
  | joins hp h =>
      left
      exact ⟨hsame _ (by grind), rfl, rfl⟩
  | _ =>
      left
      exact ⟨rfl, rfl, by grind⟩

theorem Inv.count_step (hp : p < n) :
    s'.pipe.length + s'.takenAll n = s'.parent.written n := by
  have hcount := inv.count
  have hstep := inv.takenAll_step h hp
  omega

theorem Inv.step (hp : p < n) : Inv n hasIoe (log ++ es) s' where
  loops := inv.loops_step h
  forked := inv.forked_step h
  bytes := inv.bytes_step h
  checked := inv.checked_step h
  sound := inv.sound_step h hp
  count := inv.count_step h hp
  ioe := inv.ioe_step h
  logged := inv.logged_step h
  nodup := inv.nodup_step h

end

theorem Inv.initial : Inv n hasIoe [] initial where
  loops := by unfold Native.initial; grind
  forked := by unfold Native.initial; grind
  bytes := fun _ hch => absurd hch List.not_mem_nil
  checked := fun _ _ hch => by cases hch
  sound := fun _ hch => by cases hch
  count := by
    have hzero : Native.initial.takenAll n = 0 := Finset.sum_const_zero
    rw [hzero]
    rfl
  ioe := by unfold Native.initial; grind
  logged := by unfold Native.initial; grind
  nodup := List.nodup_nil

theorem Inv.of_run (run : Run anyStep (Next n cap hasIoe) Native.initial log s) :
    Inv n hasIoe log s := by
  apply run.invariant (Inv n hasIoe) Inv.initial
  intro log es s s' _ _ inv hstep
  obtain ⟨p, hp, hstep⟩ := hstep
  exact inv.step (step_cases hstep) hp

/-! ## Work -/

def Parent.work (n : Nat) : Parent → Nat
  | forking i => 2 * n + 4 - i
  | initIoe => n + 3
  | writing i => n + 2 - i
  | closing => 1
  | entered => 0

def Child.work : Child → Nat
  | reading => 3
  | checking _ => 2
  | closing => 1
  | entered => 0
  | failed => 0

/-- A child that has not been forked has all its steps left. -/
def childWork : Option Child → Nat
  | none => 4
  | some c => c.work

attribute [grind] Parent.work Child.work childWork

def Processes.totalWork (s : Processes) (n : Nat) : Nat :=
  s.parent.work n + ∑ i ∈ Finset.range n, childWork (s.child i)

theorem totalWork_lt (hparent : s'.parent.work n ≤ s.parent.work n)
    (hchild : ∀ i, childWork (s'.child i) ≤ childWork (s.child i))
    (hless : s'.parent.work n < s.parent.work n ∨
      p < n ∧ childWork (s'.child p) < childWork (s.child p)) :
    s'.totalWork n < s.totalWork n := by
  unfold Processes.totalWork
  cases hless with
  | inl hless =>
      exact Nat.add_lt_add_of_lt_of_le hless (Finset.sum_le_sum fun i _ => hchild i)
  | inr hless =>
      apply Nat.add_lt_add_of_le_of_lt hparent
      apply Finset.sum_lt_sum (fun i _ => hchild i)
      exact ⟨p, Finset.mem_range.2 hless.1, hless.2⟩

theorem totalWork_step (inv : Inv n hasIoe log s) (h : Stepped n cap hasIoe p s es s')
    (hp : p < n) : s'.totalWork n < s.totalWork n := by
  have hloops := inv.loops
  have hforked := inv.forked
  apply totalWork_lt (p := p)
  · cases h with
    | _ => grind
  · cases h with
    | forks hp h hlt =>
        rename_i i
        have hnone : s.child i = none := by
          rw [← Option.not_isSome_iff_eq_none, hforked, h]
          exact fun hi => Nat.lt_irrefl i hi.2
        grind
    | _ => grind
  · cases h with
    | _ => grind

/-! ## The end of a run -/

/-- A process waits only for the others: the parent for room in the pipe, a child for its
byte. -/
theorem waiting_of_step_none (inv : Inv n hasIoe log s) (hnone : step n cap hasIoe p s = none) :
    p = 0 ∧ (s.parent = .entered ∨ (∃ i < n, s.parent = .writing i) ∧ cap ≤ s.pipe.length) ∨
      p ≠ 0 ∧ (s.child p = none ∨ s.child p = some .entered ∨
        s.child p = some .reading ∧ s.pipe = []) := by
  have hsound := inv.sound p
  unfold step at hnone
  by_cases hp : p = 0
  · rw [if_pos hp] at hnone
    left
    refine ⟨hp, ?_⟩
    cases hparent : s.parent with
    | _ => grind
  · rw [if_neg hp] at hnone
    right
    refine ⟨hp, ?_⟩
    cases hchild : s.child p with
    | none => exact .inl rfl
    | some c =>
        cases c with
        | reading =>
            cases hpipe : s.pipe with
            | nil => exact .inr (.inr ⟨rfl, rfl⟩)
            | cons ch rest => simp [hchild, hpipe] at hnone
        | entered => exact .inr (.inl rfl)
        | failed => exact absurd hchild hsound
        | _ => simp [hchild] at hnone

theorem taken_le_one (c : Option Child) : taken c ≤ 1 := by
  cases c with
  | none => exact Nat.zero_le 1
  | some c =>
      cases c with
      | _ => simp [taken]

theorem Inv.takenAll_eq (inv : Inv n hasIoe log s) (hn : 0 < n) :
    s.takenAll n = ∑ i ∈ (Finset.range n).erase 0, taken (s.child i) := by
  have hnone : s.child 0 = none := by
    rw [← Option.not_isSome_iff_eq_none, inv.forked]
    exact fun h => Nat.lt_irrefl 0 h.1
  unfold Processes.takenAll
  rw [← Finset.add_sum_erase _ _ (Finset.mem_range.2 hn), hnone]
  exact Nat.zero_add _

theorem card_children (n : Nat) (hn : 0 < n) : ((Finset.range n).erase 0).card = n - 1 := by
  rw [Finset.card_erase_of_mem (Finset.mem_range.2 hn), Finset.card_range]

theorem Inv.takenAll_lt (inv : Inv n hasIoe log s) (hp : 0 < p) (hlt : p < n)
    (hchild : s.child p = some .reading) : s.takenAll n < n - 1 := by
  have hmem : p ∈ (Finset.range n).erase 0 :=
    Finset.mem_erase.2 ⟨hp.ne', Finset.mem_range.2 hlt⟩
  rw [inv.takenAll_eq (by omega), ← card_children n (by omega), Finset.card_eq_sum_ones]
  apply Finset.sum_lt_sum (fun i _ => taken_le_one _)
  refine ⟨p, hmem, ?_⟩
  rw [hchild]
  exact Nat.zero_lt_one

theorem Inv.takenAll_of_entered (inv : Inv n hasIoe log s) (hn : 0 < n)
    (hall : ∀ p, 0 < p → p < n → s.child p = some .entered) : s.takenAll n = n - 1 := by
  rw [inv.takenAll_eq hn, ← card_children n hn, Finset.card_eq_sum_ones]
  apply Finset.sum_congr rfl
  intro p hp
  rw [Finset.mem_erase, Finset.mem_range] at hp
  rw [hall p (Nat.pos_of_ne_zero hp.1) hp.2]
  rfl

/-- Where no process takes a step, all have entered: a child that still reads would leave the
parent a byte to write. -/
theorem all_entered (inv : Inv n hasIoe log s) (hcap : 0 < cap)
    (quiet : ∀ p < n, step n cap hasIoe p s = none) : ∀ p < n, .enters p ∈ log := by
  intro p hp
  have hn : 0 < n := Nat.zero_lt_of_lt hp
  have hcount := inv.count
  have hparent : s.parent = .entered ∨
      (∃ i < n, s.parent = .writing i) ∧ cap ≤ s.pipe.length := by
    have h := waiting_of_step_none inv (quiet 0 hn)
    grind
  have hforked : s.parent.forked n = n := by grind
  have hchild (q : Nat) (hpos : 0 < q) (hq : q < n) : s.child q = some .entered := by
    have hsome := (inv.forked q).2 ⟨hpos, hforked.symm ▸ hq⟩
    have hwait := waiting_of_step_none inv (quiet q hq)
    by_contra hne
    have hreads : s.child q = some .reading ∧ s.pipe = [] := by grind
    have hlt := inv.takenAll_lt hpos hq hreads.1
    rw [hreads.2, List.length_nil] at hcount hparent
    grind
  have hentered : s.parent = .entered := by
    have hall := inv.takenAll_of_entered hn hchild
    have hloops := inv.loops
    grind
  rw [inv.logged]
  by_cases hzero : p = 0
  · left
    exact ⟨hzero, hentered⟩
  · right
    exact ⟨hzero, hchild p (Nat.pos_of_ne_zero hzero) hp⟩

/-- A process enters only when all have been forked and the devices are there. -/
theorem Inv.all_forked (inv : Inv n hasIoe log s) (hlog : .enters p ∈ log) (hp : p < n) :
    (∀ q, 0 < q → q < n → (s.child q).isSome) ∧ s.ioe = hasIoe := by
  have hwritten : s.parent = .entered ∨ 0 < s.parent.written n := by
    cases (inv.logged p).1 hlog with
    | inl h => exact .inl h.2
    | inr h =>
        right
        have htaken : taken (s.child p) ≤ s.takenAll n :=
          Finset.single_le_sum (fun i _ => Nat.zero_le (taken (s.child i)))
            (Finset.mem_range.2 hp)
        have hcount := inv.count
        rw [h.2] at htaken
        have hone : taken (some .entered) = 1 := rfl
        omega
  have hpast : (∃ i, s.parent = .writing i) ∨ s.parent = .closing ∨ s.parent = .entered := by
    cases hparent : s.parent with
    | _ => grind
  have hforked : s.parent.forked n = n := by grind
  constructor
  · intro q hpos hq
    exact (inv.forked q).2 ⟨hpos, hforked.symm ▸ hq⟩
  · exact inv.ioe hpast

/-- In every run, no assertion fails and each process enters at most once, which it does only
when all processes are there and the parent has initialised the devices. A run cannot go on for
ever, and when nobody takes a step any more, all have entered. -/
theorem processes_start (hcap : 0 < cap)
    (run : Run anyStep (Next n cap hasIoe) Native.initial log s) :
    (∀ p, s.child p ≠ some .failed) ∧
    log.Nodup ∧
    (∀ p < n, .enters p ∈ log →
      (∀ q, 0 < q → q < n → (s.child q).isSome) ∧ s.ioe = hasIoe) ∧
    (∀ es s', Next n cap hasIoe s es s' → s'.totalWork n < s.totalWork n) ∧
    ((∀ p < n, step n cap hasIoe p s = none) → ∀ p < n, .enters p ∈ log) := by
  have inv := Inv.of_run run
  refine ⟨inv.sound, inv.nodup, ?_, ?_, all_entered inv hcap⟩
  · intro p hp hlog
    exact inv.all_forked hlog hp
  · intro es s' hstep
    obtain ⟨p, hp, hstep⟩ := hstep
    exact totalWork_step inv (step_cases hstep) hp

def turn (n cap : Nat) (hasIoe : Bool) (p : Nat) (s : Processes) :
    Option (List Event × Processes) :=
  if p < n then step n cap hasIoe p s else none

theorem next_of_turn (n cap : Nat) (hasIoe : Bool) (p : Nat) (s : Processes) (es : List Event)
    (s' : Processes) (h : turn n cap hasIoe p s = some (es, s')) :
    Next n cap hasIoe s es s' := by
  unfold turn at h
  split at h
  next hlt => exact ⟨p, hlt, h⟩
  next => cases h

/-- The pipe has room for one byte, so the parent waits for the second child. -/
def threeEnter : List Nat := [0, 0, 0, 0, 0, 2, 0, 0, 0, 1, 1, 2, 1, 2]

theorem processes_start_threeEnter :
    ∃ log s, Run anyStep (Next 3 1 true) Native.initial log s ∧
      log = [.enters 0, .enters 1, .enters 2] ∧
      (∀ p, s.child p ≠ some .failed) ∧
      log.Nodup ∧
      (∀ p < 3, .enters p ∈ log → (∀ q, 0 < q → q < 3 → (s.child q).isSome) ∧ s.ioe = true) ∧
      (∀ es s', Next 3 1 true s es s' → s'.totalWork 3 < s.totalWork 3) ∧
      ((∀ p < 3, step 3 1 true p s = none) → ∀ p < 3, .enters p ∈ log) := by
  obtain ⟨log, s, run, hlog⟩ := Lib.exists_run_of_replay anyStep (Next 3 1 true) Native.initial
    (fun _ _ => true) (fun _ _ _ => trivial) (next_of_turn 3 1 true) threeEnter
    (fun log _ => decide (log = [.enters 0, .enters 1, .enters 2])) (by decide)
  exact ⟨log, s, run, of_decide_eq_true hlog, processes_start (by decide) run⟩

end OSLabs.Mpe.Native
