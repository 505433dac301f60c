import Mathlib.Data.List.Infix
import OSLabs.Input.Model
import OSLabs.Lib.Ring

/-! # What the polls report

The queue is a ring whose producer does not look at the front. As long as no event comes
while one slot is free, the polls report the events in order; from the first event that
fills the last slot on, a full ring of events is never reported.
-/

namespace OSLabs.Input

open Lib (Ring)

/-! ## Key codes -/

/-- An event whose code leaves the press bit free and is not `AM_KEY_NONE`. -/
def Mapped (key : Kbd) : Prop :=
  key.keycode ≠ AM_KEY_NONE ∧ key.keycode.toNat < 0x8000

theorem KEYDOWN_MASK_eq : KEYDOWN_MASK = BitVec.twoPow 32 15 := by
  decide

theorem unpack_amCode {key : Kbd} (h : Mapped key) : unpack (amCode key) = key := by
  have h15 : key.keycode.getLsbD 15 = false := Nat.testBit_lt_two_pow h.2
  have hcode : amCode key &&& ~~~KEYDOWN_MASK = key.keycode := by
    unfold amCode
    rw [KEYDOWN_MASK_eq]
    ext i hi
    by_cases hi15 : i = 15
    · subst hi15
      simpa using h15
    · cases key.keydown <;> simp [BitVec.getElem_twoPow, hi15]
  have hdown : amCode key &&& KEYDOWN_MASK = if key.keydown then KEYDOWN_MASK else 0 := by
    unfold amCode
    rw [KEYDOWN_MASK_eq]
    ext i hi
    by_cases hi15 : i = 15
    · subst hi15
      cases key.keydown
      · simpa using h15
      · simp [BitVec.getElem_twoPow]
    · cases key.keydown <;> simp [BitVec.getElem_twoPow, hi15]
  unfold unpack
  rw [hcode, hdown]
  rcases key with ⟨down, code⟩
  cases down
  · simp
  · have hne : KEYDOWN_MASK ≠ 0#32 := by decide
    simpa using hne

theorem unpack_none : (unpack AM_KEY_NONE).keycode = AM_KEY_NONE := by
  decide

theorem keymap_le (scancode : String → Nat) (s : Nat) :
    keymap scancode s ≤ amKeys.length := by
  have key : ∀ (names : List (String × Nat)) (map : Nat → Nat),
      (∀ name ∈ names, name.2 < amKeys.length) → (∀ s, map s ≤ amKeys.length) →
      names.foldl (fun map name => Function.update map (scancode name.1) (name.2 + 1)) map s ≤
        amKeys.length := by
    intro names
    induction names with
    | nil =>
        intro map _ hmap
        exact hmap s
    | cons name names ih =>
        intro map hnames hmap
        refine ih _ (fun n hn => hnames n (List.mem_cons_of_mem name hn)) ?_
        intro t
        show Function.update map (scancode name.1) (name.2 + 1) t ≤ amKeys.length
        by_cases ht : t = scancode name.1
        · subst ht
          rw [Function.update_self]
          exact hnames name List.mem_cons_self
        · rw [Function.update_of_ne ht]
          exact hmap t
  apply key
  · intro name hname
    have := List.mem_zipIdx hname
    omega
  · intro t
    exact Nat.zero_le _

def keyOf (map : Nat → Nat) (keydown : Bool) (scancode : Nat) : Kbd :=
  { keydown, keycode := BitVec.ofNat 32 (map scancode) }

theorem mapped_of_keymap {scancode : String → Nat} {s : Nat} (h : keymap scancode s ≠ 0)
    (down : Bool) :
    Mapped (keyOf (keymap scancode) down s) := by
  have hle := keymap_le scancode s
  have hlen : amKeys.length < 0x8000 := by decide
  have hval : (BitVec.ofNat 32 (keymap scancode s)).toNat = keymap scancode s := by
    rw [BitVec.toNat_ofNat]
    exact Nat.mod_eq_of_lt (by omega)
  constructor
  · intro hzero
    rw [show (BitVec.ofNat 32 (keymap scancode s)) = AM_KEY_NONE from hzero] at hval
    exact h hval.symm
  · show (BitVec.ofNat 32 (keymap scancode s)).toNat < 0x8000
    omega

/-! ## Logs -/

theorem inserted_append (log es : List Event) :
    inserted (log ++ es) = inserted log ++ inserted es := by
  induction log with
  | nil => rfl
  | cons e log ih =>
      cases e with
      | inserted key => exact congrArg (key :: ·) ih
      | polled answer => exact ih

theorem reported_append (log es : List Event) :
    reported (log ++ es) = reported log ++ reported es := by
  induction log with
  | nil => rfl
  | cons e log ih =>
      cases e with
      | inserted key => exact ih
      | polled answer =>
          rw [List.cons_append, reported, reported, ih]
          split
          · rfl
          · rfl

theorem inserted_key (log : List Event) (key : Kbd) :
    inserted (log ++ [.inserted key]) = inserted log ++ [key] :=
  inserted_append log [.inserted key]

theorem reported_inserted (log : List Event) (key : Kbd) :
    reported (log ++ [.inserted key]) = reported log := by
  rw [reported_append]
  exact List.append_nil _

theorem inserted_polled (log : List Event) (answer : Kbd) :
    inserted (log ++ [.polled answer]) = inserted log := by
  rw [inserted_append]
  exact List.append_nil _

theorem reported_none (log : List Event) {answer : Kbd} (h : answer.keycode = AM_KEY_NONE) :
    reported (log ++ [.polled answer]) = reported log := by
  rw [reported_append, reported, if_neg (by simpa using h)]
  exact List.append_nil _

theorem reported_key (log : List Event) {answer : Kbd} (h : answer.keycode ≠ AM_KEY_NONE) :
    reported (log ++ [.polled answer]) = reported log ++ [answer] := by
  rw [reported_append, reported, if_pos h]
  rfl

/-- The polls so far have reported the events in order, and one that returned
`AM_KEY_NONE` was right to do so. -/
structure Reports (log : List Event) : Prop where
  inOrder : ∀ before, before <+: log → reported before <+: inserted before
  idle : ∀ before answer, before ++ [.polled answer] <+: log →
    answer.keycode = AM_KEY_NONE → reported before = inserted before

theorem Reports.nil : Reports [] where
  inOrder := by
    intro before h
    rw [List.prefix_nil.1 h]
    exact List.nil_prefix
  idle := by
    intro before answer h
    have := h.length_le
    simp at this

theorem Reports.snoc {log : List Event} {e : Event} (h : Reports log)
    (hordered : reported (log ++ [e]) <+: inserted (log ++ [e]))
    (hidle : ∀ answer, e = .polled answer → answer.keycode = AM_KEY_NONE →
      reported log = inserted log) :
    Reports (log ++ [e]) where
  inOrder := by
    intro before hbefore
    rcases List.prefix_concat_iff.1 hbefore with rfl | hbefore
    · exact hordered
    · exact h.inOrder before hbefore
  idle := by
    intro before answer hbefore hnone
    rcases List.prefix_concat_iff.1 hbefore with heq | hbefore
    · rcases List.append_inj' heq rfl with ⟨rfl, he⟩
      exact hidle answer (List.singleton_inj.1 he).symm hnone
    · exact h.idle before answer hbefore hnone

/-! ## One poll -/

theorem inputKeybrd_idle {q : KeyQueue} (h : q.keyF = q.keyR) :
    inputKeybrd q = (unpack AM_KEY_NONE, q) := by
  unfold inputKeybrd
  rw [if_neg (by simpa using h)]

theorem inputKeybrd_key {q : KeyQueue} {key : Kbd} (h : q.keyF ≠ q.keyR)
    (hslot : q.keyQueue q.keyF = amCode key) (hkey : Mapped key) :
    inputKeybrd q = (key, { q with keyF := (q.keyF + 1) % KEY_QUEUE_LEN }) := by
  unfold inputKeybrd
  rw [if_pos h, hslot, unpack_amCode hkey]

/-! ## Runs -/

theorem step_mapped {map : Nat → Nat} {q : KeyQueue} {keydown : Bool} {scancode : Nat}
    (h : map scancode ≠ 0) :
    step map q (.event keydown scancode) =
      ([.inserted (keyOf map keydown scancode)],
        insert q (amCode (keyOf map keydown scancode))) := by
  simp only [step, eventThread]
  rw [if_pos h]
  rfl

theorem step_unmapped {map : Nat → Nat} {q : KeyQueue} {keydown : Bool} {scancode : Nat}
    (h : ¬ map scancode ≠ 0) :
    step map q (.event keydown scancode) = ([], q) := by
  simp only [step, eventThread]
  rw [if_neg h]

theorem step_poll (map : Nat → Nat) (q : KeyQueue) :
    step map q .poll = ([.polled (inputKeybrd q).1], (inputKeybrd q).2) :=
  rfl

theorem run_snoc (map : Nat → Nat) (steps : List Step) (a : Step) :
    run map (steps ++ [a]) =
      ((run map steps).1 ++ (step map (run map steps).2 a).1,
        (step map (run map steps).2 a).2) := by
  unfold run
  rw [List.foldl_append]
  rfl

def Full (q : KeyQueue) : Prop := (q.keyR + 1) % KEY_QUEUE_LEN = q.keyF

/-- No mapped event comes while the ring is full. -/
def NeverFull (map : Nat → Nat) (steps : List Step) : Prop :=
  ∀ before keydown scancode, before ++ [.event keydown scancode] <+: steps →
    map scancode ≠ 0 → ¬ Full (run map before).2

theorem neverFull_snoc {map : Nat → Nat} {steps : List Step} {a : Step} :
    NeverFull map (steps ++ [a]) ↔
      NeverFull map steps ∧
        ∀ keydown scancode, a = .event keydown scancode → map scancode ≠ 0 →
          ¬ Full (run map steps).2 := by
  constructor
  · intro h
    constructor
    · intro before keydown scancode hbefore
      exact h before keydown scancode (hbefore.trans (List.prefix_append _ _))
    · rintro keydown scancode rfl
      exact h steps keydown scancode (List.prefix_refl _)
  · rintro ⟨h, hlast⟩ before keydown scancode hbefore
    rcases List.prefix_concat_iff.1 hbefore with heq | hbefore
    · rcases List.append_inj' heq rfl with ⟨rfl, ha⟩
      exact hlast keydown scancode (List.singleton_inj.1 ha).symm
    · exact h before keydown scancode hbefore

/-! ## With room in the ring -/

/-- The ring holds the events that are still to be reported. -/
structure Keeps (log : List Event) (q : KeyQueue) : Prop where
  reports : Reports log
  mapped : ∀ key ∈ inserted log, Mapped key
  pending : ∃ keys, inserted log = reported log ++ keys ∧
    Ring KEY_QUEUE_LEN q.keyQueue q.keyF q.keyR (keys.map amCode)

theorem keeps_init : Keeps [] .init where
  reports := Reports.nil
  mapped := by
    intro key hkey
    cases hkey
  pending := ⟨[], rfl, Ring.empty (by decide)⟩

theorem keeps_insert {log : List Event} {q : KeyQueue} {key : Kbd} (h : Keeps log q)
    (hkey : Mapped key) (hroom : ¬ Full q) :
    Keeps (log ++ [.inserted key]) (insert q (amCode key)) := by
  rcases h.pending with ⟨keys, hkeys, hring⟩
  have hfree : (keys.map amCode).length + 1 < KEY_QUEUE_LEN := by
    have hlt := hring.length_lt
    have hne : (keys.map amCode).length + 1 ≠ KEY_QUEUE_LEN :=
      fun heq => hroom (hring.rear_succ_eq_front_iff.2 heq)
    omega
  constructor
  · apply h.reports.snoc
    · rw [inserted_key, reported_inserted, hkeys, List.append_assoc]
      exact List.prefix_append _ _
    · intro answer he
      cases he
  · intro k hk
    rw [inserted_key] at hk
    rcases List.mem_append.1 hk with hk | hk
    · exact h.mapped k hk
    · rw [List.mem_singleton.1 hk]
      exact hkey
  · refine ⟨keys ++ [key], by rw [inserted_key, reported_inserted, hkeys, List.append_assoc], ?_⟩
    rw [List.map_append]
    exact hring.push (amCode key) hfree

theorem keeps_poll {log : List Event} {q : KeyQueue} (h : Keeps log q) :
    Keeps (log ++ [.polled (inputKeybrd q).1]) (inputKeybrd q).2 := by
  rcases h.pending with ⟨keys, hkeys, hring⟩
  cases keys with
  | nil =>
      rw [inputKeybrd_idle (hring.front_eq_rear_iff.2 rfl)]
      have hrep := reported_none log unpack_none
      have hall : reported log = inserted log := by rw [hkeys, List.append_nil]
      constructor
      · apply h.reports.snoc
        · rw [inserted_polled, hrep, hall]
        · intro _ _ _
          exact hall
      · rw [inserted_polled]
        exact h.mapped
      · exact ⟨[], by rw [inserted_polled, hrep, hall, List.append_nil], hring⟩
  | cons key keys =>
      have hne : q.keyF ≠ q.keyR := by
        intro heq
        cases hring.front_eq_rear_iff.1 heq
      rcases hring.pop with ⟨hslot, hring⟩
      have hkey : Mapped key := by
        apply h.mapped
        rw [hkeys]
        exact List.mem_append_right _ List.mem_cons_self
      rw [inputKeybrd_key hne hslot hkey]
      have hrep := reported_key log hkey.1
      have hsplit : inserted log = reported log ++ [key] ++ keys := by
        rw [hkeys, List.append_assoc]
        rfl
      constructor
      · apply h.reports.snoc
        · rw [inserted_polled, hrep, hsplit]
          exact List.prefix_append _ _
        · intro answer he hnone
          cases he
          exact absurd hnone hkey.1
      · rw [inserted_polled]
        exact h.mapped
      · exact ⟨keys, by rw [inserted_polled, hrep, hsplit], hring⟩

theorem keeps_run {scancode : String → Nat} {steps : List Step}
    (h : NeverFull (keymap scancode) steps) :
    Keeps (run (keymap scancode) steps).1 (run (keymap scancode) steps).2 := by
  induction steps using List.reverseRecOn with
  | nil => exact keeps_init
  | append_singleton steps a ih =>
      rcases neverFull_snoc.1 h with ⟨hbefore, hlast⟩
      have hkeeps := ih hbefore
      rw [run_snoc]
      cases a with
      | poll => exact keeps_poll hkeeps
      | event keydown s =>
          by_cases hs : keymap scancode s ≠ 0
          · rw [step_mapped hs]
            exact keeps_insert hkeeps (mapped_of_keymap hs keydown) (hlast keydown s rfl hs)
          · rw [step_unmapped hs, List.append_nil]
            exact hkeeps

/-! ## With or without room -/

/-- What holds of every run: the indices count the events on both sides, modulo the length
of the ring, and what has been written is an event. -/
structure Counts (log : List Event) (q : KeyQueue) : Prop where
  front : q.keyF = (reported log).length % KEY_QUEUE_LEN
  rear : q.keyR = (inserted log).length % KEY_QUEUE_LEN
  le : (reported log).length ≤ (inserted log).length
  slots : ∀ i < KEY_QUEUE_LEN, i < (inserted log).length →
    ∃ key, Mapped key ∧ q.keyQueue i = amCode key

theorem counts_init : Counts [] .init where
  front := rfl
  rear := rfl
  le := Nat.le_refl _
  slots := by
    intro i _ hi
    cases hi

theorem length_inserted (log : List Event) (key : Kbd) :
    (inserted (log ++ [.inserted key])).length = (inserted log).length + 1 ∧
      (reported (log ++ [.inserted key])).length = (reported log).length := by
  rw [inserted_key, reported_inserted]
  exact ⟨List.length_append, rfl⟩

theorem counts_insert {log : List Event} {q : KeyQueue} {key : Kbd} (h : Counts log q)
    (hkey : Mapped key) :
    Counts (log ++ [.inserted key]) (insert q (amCode key)) := by
  rcases length_inserted log key with ⟨hins, hrep⟩
  have hle := h.le
  constructor
  · rw [hrep]
    exact h.front
  · show (q.keyR + 1) % KEY_QUEUE_LEN = _
    rw [hins, h.rear, Nat.mod_add_mod]
  · omega
  · intro i hi hwritten
    show ∃ k, Mapped k ∧ Function.update q.keyQueue q.keyR (amCode key) i = amCode k
    by_cases hslot : i = q.keyR
    · subst hslot
      exact ⟨key, hkey, Function.update_self _ _ _⟩
    · rw [Function.update_of_ne hslot]
      refine h.slots i hi ?_
      -- The slot after the last one written is the rear.
      have hrear := h.rear
      rw [hins] at hwritten
      unfold KEY_QUEUE_LEN at hi hrear
      omega

/-- Indices that differ leave an event to report, in the slot at the front. -/
theorem Counts.front_slot {log : List Event} {q : KeyQueue} (h : Counts log q)
    (hne : q.keyF ≠ q.keyR) :
    (reported log).length < (inserted log).length ∧
      ∃ key, Mapped key ∧ q.keyQueue q.keyF = amCode key := by
  have hfront := h.front
  have hlt : (reported log).length < (inserted log).length := by
    apply Nat.lt_of_le_of_ne h.le
    intro hsame
    rw [hsame, ← h.rear] at hfront
    exact hne hfront
  refine ⟨hlt, h.slots q.keyF ?_ ?_⟩
  · rw [hfront]
    exact Nat.mod_lt _ (by decide)
  · rw [hfront]
    exact Nat.lt_of_le_of_lt (Nat.mod_le _ _) hlt

/-- A poll either finds the counts equal modulo the length of the ring, and reports
nothing, or reports one more event. -/
theorem counts_poll {log : List Event} {q : KeyQueue} (h : Counts log q) :
    let log' := log ++ [.polled (inputKeybrd q).1]
    Counts log' (inputKeybrd q).2 ∧ (inserted log').length = (inserted log).length ∧
      if q.keyF = q.keyR then
        (inputKeybrd q).1.keycode = AM_KEY_NONE ∧
          (reported log').length = (reported log).length
      else (reported log').length = (reported log).length + 1 := by
  intro log'
  have hins : inserted log' = inserted log := inserted_polled log _
  by_cases heq : q.keyF = q.keyR
  · have hpoll := inputKeybrd_idle heq
    have hrep : reported log' = reported log := by
      show reported (log ++ [.polled (inputKeybrd q).1]) = _
      rw [hpoll]
      exact reported_none log unpack_none
    rw [if_pos heq, hins, hrep, hpoll]
    refine ⟨⟨?_, ?_, ?_, ?_⟩, rfl, unpack_none, rfl⟩
    · rw [hrep]
      exact h.front
    · rw [hins]
      exact h.rear
    · rw [hins, hrep]
      exact h.le
    · rw [hins]
      exact h.slots
  · rcases h.front_slot heq with ⟨hlt, key, hkey, hslot⟩
    have hpoll := inputKeybrd_key heq hslot hkey
    have hrep : (reported log').length = (reported log).length + 1 := by
      show (reported (log ++ [.polled (inputKeybrd q).1])).length = _
      rw [hpoll, reported_key log hkey.1]
      exact List.length_append
    rw [if_neg heq, hrep, hins, hpoll]
    refine ⟨⟨?_, ?_, ?_, ?_⟩, rfl, rfl⟩
    · rw [hrep, h.front, Nat.mod_add_mod]
    · rw [hins]
      exact h.rear
    · rw [hins, hrep]
      exact hlt
    · rw [hins]
      exact h.slots

/-- A poll on a ring that looks empty is right only when everything has been reported. -/
theorem reported_of_idle {log : List Event} {q : KeyQueue} (h : Counts log q)
    (hmeet : q.keyF = q.keyR) (hreports : Reports (log ++ [.polled (inputKeybrd q).1])) :
    reported log = inserted log := by
  rcases counts_poll h with ⟨-, -, hrep⟩
  rw [if_pos hmeet] at hrep
  exact hreports.idle _ _ (List.prefix_refl _) hrep.1

theorem counts_run (scancode : String → Nat) (steps : List Step) :
    Counts (run (keymap scancode) steps).1 (run (keymap scancode) steps).2 := by
  induction steps using List.reverseRecOn with
  | nil => exact counts_init
  | append_singleton steps a ih =>
      rw [run_snoc]
      cases a with
      | poll => exact (counts_poll ih).1
      | event keydown s =>
          by_cases hs : keymap scancode s ≠ 0
          · rw [step_mapped hs]
            exact counts_insert ih (mapped_of_keymap hs keydown)
          · rw [step_unmapped hs, List.append_nil]
            exact ih

/-! ## A lost lap -/

/-- More events are unreported than the ring can tell apart. -/
def Lapped (log : List Event) : Prop :=
  (reported log).length + KEY_QUEUE_LEN ≤ (inserted log).length

theorem lapped_of_full {log : List Event} {q : KeyQueue} {key : Kbd} (h : Counts log q)
    (hfull : Full q) :
    Lapped (log ++ [.inserted key]) := by
  rcases length_inserted log key with ⟨hins, hrep⟩
  have hle := h.le
  unfold Lapped
  unfold Full at hfull
  rw [h.front, h.rear, Nat.mod_add_mod] at hfull
  rw [hins, hrep]
  unfold KEY_QUEUE_LEN at hfull ⊢
  omega

theorem lapped_insert {log : List Event} (key : Kbd) (h : Lapped log) :
    Lapped (log ++ [.inserted key]) := by
  rcases length_inserted log key with ⟨hins, hrep⟩
  unfold Lapped at h ⊢
  omega

/-- A lap that is lost stays lost: the polls stop when the indices meet. -/
theorem lapped_poll {log : List Event} {q : KeyQueue} (hcounts : Counts log q)
    (h : Lapped log) :
    Lapped (log ++ [.polled (inputKeybrd q).1]) := by
  rcases counts_poll hcounts with ⟨-, hins, hrep⟩
  have hfront := hcounts.front
  have hrear := hcounts.rear
  unfold Lapped at h ⊢
  split at hrep
  case isTrue => omega
  case isFalse hne =>
    rw [hfront, hrear] at hne
    unfold KEY_QUEUE_LEN at h hne ⊢
    omega

theorem lapped_run {scancode : String → Nat} {steps : List Step}
    (h : ¬ NeverFull (keymap scancode) steps) :
    Lapped (run (keymap scancode) steps).1 := by
  induction steps using List.reverseRecOn with
  | nil =>
      refine absurd ?_ h
      intro before keydown s hbefore
      have := hbefore.length_le
      simp at this
  | append_singleton steps a ih =>
      have hcounts := counts_run scancode steps
      rw [run_snoc]
      by_cases hearlier : NeverFull (keymap scancode) steps
      · rw [neverFull_snoc] at h
        push Not at h
        rcases h hearlier with ⟨keydown, s, rfl, hs, hfull⟩
        rw [step_mapped hs]
        exact lapped_of_full hcounts hfull
      · have hlapped := ih hearlier
        cases a with
        | poll => exact lapped_poll hcounts hlapped
        | event keydown s =>
            by_cases hs : keymap scancode s ≠ 0
            · rw [step_mapped hs]
              exact lapped_insert _ hlapped
            · rw [step_unmapped hs, List.append_nil]
              exact hlapped

/-- After a lost lap some number of polls ends with one that answers `AM_KEY_NONE` while
events are unreported. -/
theorem polls_fail_of_lapped {scancode : String → Nat} (distance : Nat) {steps : List Step}
    (h : Lapped (run (keymap scancode) steps).1)
    (hdistance : (inserted (run (keymap scancode) steps).1).length =
      (reported (run (keymap scancode) steps).1).length + distance) :
    ∃ n, ¬ Reports (run (keymap scancode) (steps ++ List.replicate n .poll)).1 := by
  induction distance generalizing steps with
  | zero =>
      unfold Lapped KEY_QUEUE_LEN at h
      omega
  | succ distance ih =>
      have hcounts := counts_run scancode steps
      have hlog : (run (keymap scancode) (steps ++ [.poll])).1 =
          (run (keymap scancode) steps).1 ++
            [.polled (inputKeybrd (run (keymap scancode) steps).2).1] := by
        rw [run_snoc, step_poll]
      by_cases hmeet : (run (keymap scancode) steps).2.keyF = (run (keymap scancode) steps).2.keyR
      · refine ⟨1, ?_⟩
        intro hreports
        rw [List.replicate_one, hlog] at hreports
        rw [reported_of_idle hcounts hmeet hreports] at hdistance
        omega
      · rcases counts_poll hcounts with ⟨-, hins, hrep⟩
        rw [if_neg hmeet] at hrep
        have hlapped := lapped_poll hcounts h
        rw [← hlog] at hlapped hins hrep
        rcases ih hlapped (by omega) with ⟨n, hn⟩
        refine ⟨n + 1, ?_⟩
        rwa [List.append_assoc] at hn

/-- The polls report every event once and in order, however many follow, exactly when no
event came while the ring was full. -/
theorem reports_iff_neverFull (scancode : String → Nat) (steps : List Step) :
    (∀ n, Reports (run (keymap scancode) (steps ++ List.replicate n .poll)).1) ↔
      NeverFull (keymap scancode) steps := by
  constructor
  · intro h
    by_contra hfull
    have hlapped := lapped_run hfull
    have hle := (counts_run scancode steps).le
    rcases polls_fail_of_lapped _ hlapped (Nat.add_sub_cancel' hle).symm with ⟨n, hn⟩
    exact hn (h n)
  · intro h n
    have hpolls : NeverFull (keymap scancode) (steps ++ List.replicate n .poll) := by
      induction n with
      | zero => simpa using h
      | succ n ih =>
          rw [List.replicate_succ', ← List.append_assoc, neverFull_snoc]
          exact ⟨ih, by intro _ _ he; cases he⟩
    exact (keeps_run hpolls).reports

theorem run_events {map : Nat → Nat} {s : Nat} (h : map s ≠ 0) (keydown : Bool) (n : Nat) :
    (run map (List.replicate n (.event keydown s))).1 =
      List.replicate n (.inserted (keyOf map keydown s)) := by
  induction n with
  | zero => rfl
  | succ n ih => rw [List.replicate_succ', run_snoc, step_mapped h, ih, List.replicate_succ']

/-- 1024 presses of one key are answered with `AM_KEY_NONE`. -/
theorem full_lap_lost :
    let scancode := fun name => if name = "A" then 4 else 0
    ¬ Reports (run (keymap scancode) (List.replicate 1024 (.event true 4) ++ [.poll])).1 := by
  intro scancode hreports
  have hmapped : keymap scancode 4 ≠ 0 := by decide
  have hcounts := counts_run scancode (List.replicate 1024 (.event true 4))
  have hlog := run_events hmapped true 1024
  have hins (n : Nat) (key : Kbd) : inserted (List.replicate n (.inserted key)) =
      List.replicate n key := by
    induction n with
    | zero => rfl
    | succ n ih => exact congrArg (key :: ·) ih
  have hrep (n : Nat) (key : Kbd) : reported (List.replicate n (.inserted key)) = [] := by
    induction n with
    | zero => rfl
    | succ n ih => exact ih
  have hmeet : (run (keymap scancode) (List.replicate 1024 (.event true 4))).2.keyF =
      (run (keymap scancode) (List.replicate 1024 (.event true 4))).2.keyR := by
    rw [hcounts.front, hcounts.rear, hlog, hins, hrep, List.length_replicate]
    rfl
  rw [run_snoc, step_poll] at hreports
  have hall := reported_of_idle hcounts hmeet hreports
  rw [hlog, hins, hrep] at hall
  have hlength := congrArg List.length hall
  rw [List.length_nil, List.length_replicate] at hlength
  omega

end OSLabs.Input
