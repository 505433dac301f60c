import Mathlib.Data.Fintype.EquivFin
import OSLabs.Lib.Run
import OSLabs.Libco.Producers

/-! # All schedules of the second test

Whoever goes on, the queue keeps the items that have not been printed, and `main` knows of the
others what it has waited for.
-/

namespace OSLabs.Libco.Tests

open Lib (Run anyStep)

variable {mayFail : Bool} {count made : Nat} {s s' : State} {items : List Ptr}
  {item data : Ptr} {log texts : List (List Char)}

/-! ## The coroutines -/

/-- How many rounds a producer has made with room in the queue. -/
def madeBy : Option Nat → Nat
  | some i => i
  | none => 100

def both (f : Which → Nat) : Nat := f .one + f .two

theorem both_update {α : Type} (f : Which → α) (g : α → Nat) (w : Which) (a : α) :
    both (fun v => g (Function.update f w a v)) + g (f w) = both (fun v => g (f v)) + g a := by
  cases w with
  | one =>
      show g a + g (f .two) + g (f .one) = g (f .one) + g (f .two) + g a
      omega
  | two =>
      show g (f .one) + g a + g (f .two) = g (f .one) + g (f .two) + g a
      omega

def State.total (s : State) : Nat := both fun p => madeBy (s.producer p)

def Main.Waited (s : State) : Main → Prop
  | first => s.gRunning = true
  | second => s.gRunning = true ∧ s.producer .one = none
  | third => s.gRunning = false ∧ ∀ p, s.producer p = none
  | fourth => s.gRunning = false ∧ (∀ p, s.producer p = none) ∧ s.consumer .one = false
  | draining => s.gRunning = false ∧ (∀ p, s.producer p = none) ∧ ∀ c, s.consumer c = false
  | done => s.gRunning = false ∧ (∀ p, s.producer p = none) ∧ (∀ c, s.consumer c = false) ∧
      qIsEmpty s.queue = true

/-- In each round a text is made, unless `malloc` fails. -/
structure Inv (mayFail : Bool) (count made : Nat) (log : List (List Char)) (s : State)
    (items : List Ptr) : Prop where
  stored : Stored count made log s items
  made_le : made ≤ s.total
  made_eq : mayFail = false → made = s.total
  fits : ∀ n < made, (label (count + n)).length ≤ 9
  rounds : ∀ p i, s.producer p = some i → i ≤ 100
  returned : ∀ c, s.consumer c = false → s.gRunning = false
  waited : s.main.Waited s

theorem madeBy_le (rounds : ∀ p i, s.producer p = some i → i ≤ 100) (p : Which) :
    madeBy (s.producer p) ≤ 100 := by
  cases hp : s.producer p with
  | none => exact Nat.le_refl 100
  | some i => exact rounds p i hp

theorem Inv.total_lt (inv : Inv mayFail count made log s items) {p : Which} {i : Nat}
    (hp : s.producer p = some i) (hi : i < 100) : s.total < 200 := by
  have hmade : madeBy (s.producer p) = i := congrArg madeBy hp
  have hone := madeBy_le inv.rounds .one
  have htwo := madeBy_le inv.rounds .two
  show madeBy (s.producer .one) + madeBy (s.producer .two) < 200
  cases p with
  | one => omega
  | two => omega

theorem inv_start (m : Lists) (list : Ptr) : Inv mayFail count 0 [] (start count m list) [] where
  stored := ⟨holds_qNew m list, List.Perm.refl [], rfl, rfl⟩
  made_le := Nat.le_refl 0
  made_eq := fun _ => rfl
  fits := fun n hn => absurd hn (Nat.not_lt_zero n)
  rounds := by
    intro p i hp
    cases hp
    exact Nat.zero_le 100
  returned := by
    intro c hc
    cases hc
  waited := rfl

theorem Main.Waited.running_or {main : Main} (h : main.Waited s) :
    s.gRunning = true ∨ s.gRunning = false ∧ ∀ p, s.producer p = none := by
  cases main with
  | first => exact .inl h
  | second => exact .inl h.1
  | third => exact .inr h
  | fourth => exact .inr ⟨h.1, h.2.1⟩
  | draining => exact .inr ⟨h.1, h.2.1⟩
  | done => exact .inr ⟨h.1, h.2.1⟩

/-- While a producer is there, `main` is in one of its first two calls. -/
theorem Main.Waited.running {main : Main} (h : main.Waited s) {p : Which} {i : Nat}
    (hp : s.producer p = some i) : s.gRunning = true := by
  cases h.running_or with
  | inl hrunning => exact hrunning
  | inr hended =>
      rw [hended.2 p] at hp
      cases hp

/-! ## One turn -/

def todo : Option Nat → Nat
  | some i => 2 * (100 - i) + 1
  | none => 0

def Main.rank : Main → Nat
  | first => 5
  | second => 4
  | third => 3
  | fourth => 2
  | draining => 1
  | done => 0

def left (s : State) (items : List Ptr) : Nat :=
  both (fun p => todo (s.producer p)) + both (fun c => (s.consumer c).toNat) + items.length +
    s.main.rank

/-- The turn brings `main` nearer to its end. -/
def Moves (mayFail : Bool) (count : Nat) (log : List (List Char)) (s : State) (items : List Ptr)
    (t : Turn) : Prop :=
  ∃ texts s' made items', step t s = .ok (some (texts, s')) ∧
    Inv mayFail count made (log ++ texts) s' items' ∧ left s' items' < left s items

/-- The turn does not fault, and what it leads to is sound again. -/
def Sound (mayFail : Bool) (count : Nat) (log : List (List Char)) (s : State) (t : Turn) : Prop :=
  ∃ r, step t s = .ok r ∧ ((t.fails = true → mayFail = true) →
    ∀ texts s', r = some (texts, s') → ∃ made items, Inv mayFail count made (log ++ texts) s' items)

def Safe (s : State) : Prop := ∀ t, ∃ r, step t s = .ok r

section

variable {t : Turn} {p c : Which} {i : Nat}

theorem Moves.sound (h : Moves mayFail count log s items t) : Sound mayFail count log s t := by
  obtain ⟨texts, s', made, items', hstep, inv, -⟩ := h
  refine ⟨_, hstep, ?_⟩
  rintro - _ _ ⟨⟩
  exact ⟨made, items', inv⟩

theorem Sound.none (h : step t s = .ok none) : Sound mayFail count log s t := by
  refine ⟨_, h, ?_⟩
  rintro - _ _ ⟨⟩

theorem Inv.idle (inv : Inv mayFail count made log s items) (h : step t s = .ok (some ([], s))) :
    Sound mayFail count log s t := by
  refine ⟨_, h, ?_⟩
  rintro - _ _ ⟨⟩
  rw [List.append_nil]
  exact ⟨made, items, inv⟩

theorem rounds_set (p : Which) (value : Option Nat)
    (rounds : ∀ q j, s.producer q = some j → j ≤ 100) (hvalue : ∀ j, value = some j → j ≤ 100) :
    ∀ q j, (s.setProducer p value).producer q = some j → j ≤ 100 := by
  intro q j hq
  change Function.update s.producer p value q = some j at hq
  by_cases hqp : q = p
  · rw [hqp, Function.update_self] at hq
    exact hvalue j hq
  · rw [Function.update_of_ne hqp] at hq
    exact rounds q j hq

theorem Main.Waited.keep {main : Main} (h : main.Waited s) (hrunning : s.gRunning = true)
    (hrunning' : s'.gRunning = true)
    (hone : s.producer .one = none → s'.producer .one = none) : main.Waited s' := by
  cases main with
  | first => exact hrunning'
  | second => exact ⟨hrunning', hone h.2⟩
  | _ =>
      have hstopped := h.1
      rw [hrunning] at hstopped
      cases hstopped

theorem one_set (hp : s.producer p = some i) (value : Option Nat) (hone : s.producer .one = none) :
    (s.setProducer p value).producer .one = none := by
  have hne : Which.one ≠ p := by
    rintro rfl
    rw [hone] at hp
    cases hp
  exact (Function.update_of_ne hne ..).trans hone

theorem total_setProducer (hp : s.producer p = some i) (value : Option Nat) :
    (s.setProducer p value).total + i = s.total + madeBy value := by
  have h := both_update s.producer madeBy p value
  rw [hp] at h
  exact h

theorem left_setProducer (hp : s.producer p = some i) (value : Option Nat) (items : List Ptr) :
    left (s.setProducer p value) items + (2 * (100 - i) + 1) = left s items + todo value := by
  have h := both_update s.producer todo p value
  rw [hp] at h
  change _ + (2 * (100 - i) + 1) = _ at h
  change both (fun q => todo (Function.update s.producer p value q)) +
    both (fun c => (s.consumer c).toNat) + items.length + s.main.rank + _ = _
  unfold left
  omega

theorem Inv.produces (inv : Inv mayFail count made log s items)
    (hlabel : (label s.gCount).length ≤ 9) (hp : s.producer p = some i) (hi : i < 100)
    (hroom : ¬qIsFull s.queue = true) (hfresh : ¬(item = s.queue.list ∨ item ∈ s.live))
    (halloc : ¬(item = 0 ∨ data = 0)) :
    Moves mayFail count log s items (.producer p item data) := by
  have hrunning := inv.waited.running hp
  obtain ⟨hlist, hnew⟩ := not_or.1 hfresh
  have hrounds := rounds_set (s := s.produced item) p (some (i + 1)) inv.rounds
    (by rintro _ ⟨⟩; exact hi)
  have htotal : ((s.produced item).setProducer p (some (i + 1))).total = s.total + 1 := by
    have h := total_setProducer (s := s.produced item) hp (some (i + 1))
    change _ + i = s.total + (i + 1) at h
    omega
  rw [inv.stored.counted] at hlabel
  obtain ⟨hdone, hstored⟩ := inv.stored.produce hlabel hroom halloc hlist hnew
  refine ⟨[], (s.produced item).setProducer p (some (i + 1)), made + 1, items ++ [item], ?_, ?_,
    ?_⟩
  · unfold step
    simp only [hp, if_pos hi, if_neg hroom, if_neg hfresh, hdone]
    rfl
  · refine ⟨?_, ?_, ?_, ?_, hrounds, inv.returned, ?_⟩
    · exact hstored.silent rfl rfl rfl rfl
    · rw [htotal]
      exact Nat.succ_le_succ inv.made_le
    · intro hnever
      rw [htotal, inv.made_eq hnever]
    · intro n hn
      cases Nat.lt_succ_iff_lt_or_eq.1 hn with
      | inl hn => exact inv.fits n hn
      | inr hn =>
          rw [hn]
          exact hlabel
    · exact inv.waited.keep hrunning hrunning (one_set hp _)
  · have hleft := left_setProducer (s := s.produced item) hp (some (i + 1)) (items ++ [item])
    have hlength : left (s.produced item) (items ++ [item]) = left s items + 1 := by
      unfold left
      rw [List.length_append]
      exact Nat.add_right_comm (_ + items.length) 1 _
    change _ + _ = _ + (2 * (100 - (i + 1)) + 1) at hleft
    omega

/-- A round in which `malloc` fails leaves the queue as it is. -/
theorem Inv.skips (inv : Inv mayFail count made log s items) (hp : s.producer p = some i)
    (hi : i < 100) (hroom : ¬qIsFull s.queue = true)
    (hfresh : ¬(item = s.queue.list ∨ item ∈ s.live)) (halloc : item = 0 ∨ data = 0) :
    Sound mayFail count log s (.producer p item data) := by
  have hrunning := inv.waited.running hp
  refine ⟨some ([], s.setProducer p (some (i + 1))), ?_, ?_⟩
  · unfold step
    simp only [hp, if_pos hi, if_neg hroom, if_neg hfresh, doProduce, if_pos halloc]
    rfl
  · rintro hfails _ _ ⟨⟩
    have hmay : mayFail = true := hfails (by
      change (item == 0 || data == 0) = true
      rwa [Bool.or_eq_true, beq_iff_eq, beq_iff_eq])
    have htotal : (s.setProducer p (some (i + 1))).total = s.total + 1 := by
      have h := total_setProducer hp (some (i + 1))
      change _ + i = s.total + (i + 1) at h
      omega
    refine ⟨made, items, ?_, ?_, ?_, inv.fits, ?_, inv.returned, ?_⟩
    · exact inv.stored.silent rfl rfl rfl rfl
    · rw [htotal]
      exact Nat.le_succ_of_le inv.made_le
    · intro hnever
      rw [hmay] at hnever
      cases hnever
    · exact rounds_set p _ inv.rounds (by rintro _ ⟨⟩; exact hi)
    · exact inv.waited.keep hrunning hrunning (one_set hp _)

theorem Inv.ends (inv : Inv mayFail count made log s items) (hp : s.producer p = some i)
    (hi : ¬i < 100) (item data : Ptr) :
    Moves mayFail count log s items (.producer p item data) := by
  have hrunning := inv.waited.running hp
  have hle := inv.rounds p i hp
  have htotal : (s.setProducer p none).total = s.total := by
    have h := total_setProducer hp none
    change _ + i = s.total + 100 at h
    omega
  refine ⟨[], s.setProducer p none, made, items, ?_, ?_, ?_⟩
  · unfold step
    simp only [hp, if_neg hi]
  · refine ⟨?_, ?_, ?_, inv.fits, rounds_set p none inv.rounds ?_, inv.returned, ?_⟩
    · exact inv.stored.silent rfl rfl rfl rfl
    · rw [htotal]
      exact inv.made_le
    · rw [htotal]
      exact inv.made_eq
    · rintro _ ⟨⟩
    · exact inv.waited.keep hrunning hrunning (one_set hp _)
  · have hleft := left_setProducer hp none items
    change _ + _ = _ + 0 at hleft
    omega

theorem Inv.consumes (inv : Inv mayFail count made log s (item :: items))
    (hwaited : ∀ queue live, s.main.Waited { s with queue, live }) :
    ∃ s', doConsume s = .ok ([s.text item], s') ∧
      Inv mayFail count made (log ++ [s.text item]) s' items ∧
      left s' items < left s (item :: items) := by
  obtain ⟨queue, hdone, hstored⟩ := inv.stored.consume
  refine ⟨_, hdone, ⟨hstored, inv.made_le, inv.made_eq, inv.fits, inv.rounds, inv.returned,
    hwaited _ _⟩, ?_⟩
  exact Nat.add_lt_add_right (Nat.add_lt_add_left (Nat.lt_succ_self items.length) _) _

theorem Inv.takes (inv : Inv mayFail count made log s (item :: items)) (hc : s.consumer c = true)
    (hrunning : s.gRunning = true) : Moves mayFail count log s (item :: items) (.consumer c) := by
  obtain ⟨s', hdone, inv', hless⟩ :=
    inv.consumes fun _ _ => inv.waited.keep hrunning hrunning id
  refine ⟨_, s', made, items, ?_, inv', hless⟩
  unfold step
  simp only [if_pos hc, if_pos hrunning, if_neg inv.stored.holds.not_empty, hdone]
  rfl

/-- A consumer sees that `g_running` is not set and returns. -/
theorem Inv.leaves (inv : Inv mayFail count made log s items) (hc : s.consumer c = true)
    (hstopped : s.gRunning = false) : Moves mayFail count log s items (.consumer c) := by
  have hfalse (d : Which) (hd : s.consumer d = false) :
      (s.setConsumer c false).consumer d = false := by
    change Function.update s.consumer c false d = false
    by_cases hdc : d = c
    · rw [hdc, Function.update_self]
    · rw [Function.update_of_ne hdc, hd]
  refine ⟨[], s.setConsumer c false, made, items, ?_, ?_, ?_⟩
  · unfold step
    simp only [if_pos hc, hstopped]
    rfl
  · refine ⟨?_, inv.made_le, inv.made_eq, inv.fits, inv.rounds, fun _ _ => hstopped, ?_⟩
    · exact inv.stored.silent rfl rfl rfl rfl
    · have h := inv.waited
      show s.main.Waited (s.setConsumer c false)
      cases hmain : s.main with
      | first => rwa [hmain] at h
      | second => rwa [hmain] at h
      | third => rwa [hmain] at h
      | fourth =>
          rw [hmain] at h
          exact ⟨h.1, h.2.1, hfalse _ h.2.2⟩
      | draining =>
          rw [hmain] at h
          exact ⟨h.1, h.2.1, fun d => hfalse d (h.2.2 d)⟩
      | done =>
          rw [hmain] at h
          exact ⟨h.1, h.2.1, fun d => hfalse d (h.2.2.1 d), h.2.2.2⟩
  · have hleft := both_update s.consumer Bool.toNat c false
    rw [hc] at hleft
    change _ + 1 = _ + 0 at hleft
    change both (fun p => todo (s.producer p)) +
      both (fun d => (Function.update s.consumer c false d).toNat) + items.length +
      s.main.rank < _
    unfold left
    omega

theorem Inv.advances (inv : Inv mayFail count made log s items) (main : Main) (gRunning : Bool)
    (hstep : step .main s = .ok (some ([], { s with main, gRunning })))
    (hstopped : s.gRunning = false → gRunning = false)
    (hwaited : main.Waited { s with main, gRunning }) (hrank : main.rank < s.main.rank) :
    Moves mayFail count log s items .main := by
  refine ⟨[], { s with main, gRunning }, made, items, hstep, ?_, ?_⟩
  · exact ⟨inv.stored.silent rfl rfl rfl rfl, inv.made_le, inv.made_eq, inv.fits, inv.rounds,
      fun c hc => hstopped (inv.returned c hc), hwaited⟩
  · exact Nat.add_lt_add_left hrank _

theorem Inv.first (inv : Inv mayFail count made log s items) (hmain : s.main = .first)
    (hone : s.producer .one = none) : Moves mayFail count log s items .main := by
  have h := inv.waited
  rw [hmain] at h
  apply inv.advances .second s.gRunning
  · unfold step
    simp only [hmain, if_pos hone]
  · exact id
  · exact ⟨h, hone⟩
  · rw [hmain]
    decide

theorem Inv.second (inv : Inv mayFail count made log s items) (hmain : s.main = .second)
    (htwo : s.producer .two = none) : Moves mayFail count log s items .main := by
  have h := inv.waited
  rw [hmain] at h
  apply inv.advances .third false
  · unfold step
    simp only [hmain, if_pos htwo]
  · exact fun _ => rfl
  · refine ⟨rfl, ?_⟩
    rintro (_ | _)
    · exact h.2
    · exact htwo
  · rw [hmain]
    decide

theorem Inv.third (inv : Inv mayFail count made log s items) (hmain : s.main = .third)
    (hone : s.consumer .one = false) : Moves mayFail count log s items .main := by
  have h := inv.waited
  rw [hmain] at h
  apply inv.advances .fourth s.gRunning
  · unfold step
    simp only [hmain, hone, if_neg Bool.false_ne_true]
  · exact id
  · exact ⟨h.1, h.2, hone⟩
  · rw [hmain]
    decide

theorem Inv.fourth (inv : Inv mayFail count made log s items) (hmain : s.main = .fourth)
    (htwo : s.consumer .two = false) : Moves mayFail count log s items .main := by
  have h := inv.waited
  rw [hmain] at h
  apply inv.advances .draining s.gRunning
  · unfold step
    simp only [hmain, htwo, if_neg Bool.false_ne_true]
  · exact id
  · refine ⟨h.1, h.2.1, ?_⟩
    rintro (_ | _)
    · exact h.2.2
    · exact htwo
  · rw [hmain]
    decide

theorem Inv.drains (inv : Inv mayFail count made log s items) (hmain : s.main = .draining) :
    Moves mayFail count log s items .main := by
  have h := inv.waited
  rw [hmain] at h
  cases items with
  | nil =>
      have hempty : qIsEmpty s.queue = true := inv.stored.holds.qIsEmpty_iff.2 rfl
      apply inv.advances .done s.gRunning
      · unfold step
        simp only [hmain, if_pos hempty]
      · exact id
      · exact ⟨h.1, h.2.1, h.2.2, hempty⟩
      · rw [hmain]
        decide
  | cons item items =>
      obtain ⟨s', hdone, inv', hless⟩ := inv.consumes (by rw [hmain]; exact fun _ _ => h)
      refine ⟨_, s', made, items, ?_, inv', hless⟩
      unfold step
      simp only [hmain, if_neg inv.stored.holds.not_empty, hdone]
      rfl

/-! ## All turns -/

theorem Inv.sound (inv : Inv mayFail count made log s items) (hcount : count + 200 ≤ 1000)
    (t : Turn) :
    Sound mayFail count log s t := by
  cases t with
  | producer p item data =>
      cases hp : s.producer p with
      | none => exact .none (by unfold step; simp only [hp])
      | some i =>
          by_cases hi : i < 100
          · by_cases hfull : qIsFull s.queue = true
            · exact inv.idle (by unfold step; simp only [hp, if_pos hi, if_pos hfull])
            · by_cases hfresh : item = s.queue.list ∨ item ∈ s.live
              · apply Sound.none
                unfold step
                simp only [hp, if_pos hi, if_neg hfull, if_pos hfresh]
              · by_cases halloc : item = 0 ∨ data = 0
                · exact inv.skips hp hi hfull hfresh halloc
                · have hless := inv.total_lt hp hi
                  have hmade := inv.made_le
                  have hlabel : (label s.gCount).length ≤ 9 := by
                    rw [label_length_iff, inv.stored.counted]
                    omega
                  exact (inv.produces hlabel hp hi hfull hfresh halloc).sound
          · exact (inv.ends hp hi item data).sound
  | consumer c =>
      cases hc : s.consumer c with
      | false => exact .none (by unfold step; simp only [hc, if_neg Bool.false_ne_true])
      | true =>
          cases hrunning : s.gRunning with
          | false => exact (inv.leaves hc hrunning).sound
          | true =>
              cases items with
              | nil =>
                  have hempty : qIsEmpty s.queue = true := inv.stored.holds.qIsEmpty_iff.2 rfl
                  apply inv.idle
                  unfold step
                  simp only [if_pos hc, if_pos hrunning, if_pos hempty]
              | cons item items => exact (inv.takes hc hrunning).sound
  | main =>
      cases hmain : s.main with
      | first =>
          by_cases hone : s.producer .one = none
          · exact (inv.first hmain hone).sound
          · exact .none (by unfold step; simp only [hmain, if_neg hone])
      | second =>
          by_cases htwo : s.producer .two = none
          · exact (inv.second hmain htwo).sound
          · exact .none (by unfold step; simp only [hmain, if_neg htwo])
      | third =>
          cases hone : s.consumer .one with
          | false => exact (inv.third hmain hone).sound
          | true => exact .none (by unfold step; simp only [hmain, if_pos hone])
      | fourth =>
          cases htwo : s.consumer .two with
          | false => exact (inv.fourth hmain htwo).sound
          | true => exact .none (by unfold step; simp only [hmain, if_pos htwo])
      | draining => exact (inv.drains hmain).sound
      | done => exact .none (by unfold step; simp only [hmain])

theorem label_fits {r : Option (List (List Char) × State)} (hp : s.producer p = some i)
    (hi : i < 100) (hroom : ¬qIsFull s.queue = true)
    (hfresh : ¬(item = s.queue.list ∨ item ∈ s.live)) (halloc : ¬(item = 0 ∨ data = 0))
    (hstep : step (.producer p item data) s = .ok r) : (label s.gCount).length ≤ 9 := by
  by_contra hlong
  have hover : 10 < (label s.gCount).length + 1 := by omega
  unfold step at hstep
  simp only [hp, if_pos hi, if_neg hroom, if_neg hfresh, doProduce, if_neg halloc,
    if_pos hover] at hstep
  cases hstep

/-- While a producer is there, it can go on or a consumer can make room for it. -/
theorem Inv.producer_moves (inv : Inv mayFail count made log s items) (hsafe : Safe s)
    (hp : s.producer p = some i) : ∃ t, t.fails = false ∧ Moves mayFail count log s items t := by
  have hrunning := inv.waited.running hp
  by_cases hi : i < 100
  · by_cases hfull : qIsFull s.queue = true
    · -- `g_running` is set, so both consumers are there; a full queue is not empty.
      have hlength := inv.stored.holds.qIsFull_iff.1 hfull
      have hroom := inv.stored.holds.room
      have hthere : s.consumer .one = true := by
        by_contra hnot
        have hstopped := inv.returned .one (Bool.not_eq_true _ ▸ hnot)
        rw [hrunning] at hstopped
        cases hstopped
      cases items with
      | nil =>
          rw [List.length_nil] at hlength
          omega
      | cons item items => exact ⟨_, rfl, inv.takes hthere hrunning⟩
    · obtain ⟨item, hitem⟩ := Infinite.exists_notMem_finset (0 :: s.queue.list :: s.live).toFinset
      rw [List.mem_toFinset, List.mem_cons, List.mem_cons] at hitem
      obtain ⟨hzero, hfresh⟩ := not_or.1 hitem
      have halloc : ¬(item = 0 ∨ item = 0) := by rwa [or_self]
      obtain ⟨r, hstep⟩ := hsafe (.producer p item item)
      have hlabel := label_fits hp hi hfull hfresh halloc hstep
      refine ⟨.producer p item item, ?_, inv.produces hlabel hp hi hfull hfresh halloc⟩
      change (item == 0 || item == 0) = false
      rw [Bool.or_self, beq_eq_false_iff_ne]
      exact hzero
  · exact ⟨.producer p 1 1, rfl, inv.ends hp hi 1 1⟩

theorem Inv.moves (inv : Inv mayFail count made log s items) (hsafe : Safe s)
    (hmain : s.main ≠ .done) : ∃ t, t.fails = false ∧ Moves mayFail count log s items t := by
  have h := inv.waited
  cases hat : s.main with
  | first =>
      cases hone : s.producer .one with
      | none => exact ⟨_, rfl, inv.first hat hone⟩
      | some i => exact inv.producer_moves hsafe hone
  | second =>
      cases htwo : s.producer .two with
      | none => exact ⟨_, rfl, inv.second hat htwo⟩
      | some i => exact inv.producer_moves hsafe htwo
  | third =>
      rw [hat] at h
      cases hone : s.consumer .one with
      | false => exact ⟨_, rfl, inv.third hat hone⟩
      | true => exact ⟨_, rfl, inv.leaves hone h.1⟩
  | fourth =>
      rw [hat] at h
      cases htwo : s.consumer .two with
      | false => exact ⟨_, rfl, inv.fourth hat htwo⟩
      | true => exact ⟨_, rfl, inv.leaves htwo h.1⟩
  | draining => exact ⟨_, rfl, inv.drains hat⟩
  | done => exact absurd hat hmain

end

/-! ## Runs -/

variable {m : Lists} {list : Ptr}

theorem run_inv (hcount : count + 200 ≤ 1000)
    (run : Run anyStep (Next mayFail) (start count m list) log s) :
    ∃ made items, Inv mayFail count made log s items := by
  apply run.invariant (fun log s => ∃ made items, Inv mayFail count made log s items)
  · exact ⟨0, [], inv_start m list⟩
  · rintro log texts s s' - - ⟨made, items, inv⟩ ⟨t, hfails, ht⟩
    obtain ⟨r, hstep, hsound⟩ := inv.sound hcount t
    rw [ht] at hstep
    cases hstep
    exact hsound hfails texts s' rfl

/-- What is left gets less with every turn that moves. -/
theorem Inv.finishes {s₀ : State}
    (hsafe : ∀ log s, Run anyStep (Next mayFail) s₀ log s → Safe s) {n : Nat}
    (run : Run anyStep (Next mayFail) s₀ log s) (inv : Inv mayFail count made log s items)
    (hn : left s items = n) :
    ∃ rest s' made items', Run anyStep (Next mayFail) s₀ (log ++ rest) s' ∧
      Inv mayFail count made (log ++ rest) s' items' ∧ s'.main = .done := by
  induction n using Nat.strong_induction_on generalizing log s made items with
  | _ n ih =>
      by_cases hmain : s.main = .done
      · refine ⟨[], s, made, items, ?_, ?_, hmain⟩
        · rwa [List.append_nil]
        · rwa [List.append_nil]
      · obtain ⟨t, hfails, texts, s', made', items', hstep, inv', hless⟩ :=
          inv.moves (hsafe log s run) hmain
        have next : Next mayFail s texts s' := by
          refine ⟨t, ?_, hstep⟩
          rw [hfails]
          exact fun h => nomatch h
        obtain ⟨rest, s'', made'', items'', run', inv'', hdone⟩ :=
          ih (left s' items') (hn ▸ hless) (run.snoc trivial next) inv' rfl
        rw [List.append_assoc] at run' inv''
        exact ⟨texts ++ rest, s'', made'', items'', run', inv'', hdone⟩

theorem run_safe (hcount : count + 200 ≤ 1000) :
    ∀ log s, Run anyStep (Next mayFail) (start count m list) log s → Safe s := by
  intro log s run t
  obtain ⟨made, items, inv⟩ := run_inv hcount run
  obtain ⟨r, hstep, -⟩ := inv.sound hcount t
  exact ⟨r, hstep⟩

theorem Inv.total_eq (inv : Inv mayFail count made log s items) (hmain : s.main = .done) :
    s.total = 200 := by
  have h := inv.waited
  rw [hmain] at h
  show madeBy (s.producer .one) + madeBy (s.producer .two) = 200
  rw [h.2.1 .one, h.2.1 .two]
  rfl

theorem Inv.complete (inv : Inv mayFail count made log s items) (hmain : s.main = .done) :
    log = (List.range' count made).map label ∧ s.live = [] := by
  have h := inv.waited
  rw [hmain] at h
  have hitems : items = [] := inv.stored.holds.qIsEmpty_iff.1 h.2.2.2
  have horder := inv.stored.order
  have hlive := inv.stored.live
  rw [hitems, List.map_nil, List.append_nil] at horder
  rw [hitems] at hlive
  exact ⟨horder, hlive.eq_nil⟩

theorem Inv.made_all (inv : Inv mayFail count made log s items) (hmain : s.main = .done)
    (hnever : mayFail = false) : made = 200 := by
  rw [inv.made_eq hnever, inv.total_eq hmain]

theorem Next.weaken (next : Next false s texts s') : Next true s texts s' := by
  obtain ⟨t, -, ht⟩ := next
  exact ⟨t, fun _ => rfl, ht⟩

/-- What a turn in which `malloc` does not fail leads to. -/
def allocated (t : Turn) (s : State) : Option (List (List Char) × State) :=
  if t.fails then none else (step t s).toOption.join

/-- The lists of a memory in which no address is in a list. -/
def noLists : Lists := ⟨fun _ => 0, fun _ => 0⟩

/-- The ten bytes of a text are enough up to `libco-999`. -/
theorem turns_safe_iff :
    (∀ log s, Run anyStep (Next true) (start count m list) log s → ∀ t, ∃ r, step t s = .ok r) ↔
      count + 200 ≤ 1000 := by
  constructor
  · intro hsafe
    -- A run in which `malloc` does not fail makes all texts.
    have hsafe' (log : List (List Char)) (s : State)
        (run : Run anyStep (Next false) (start count m list) log s) : Safe s :=
      hsafe log s (run.mono Next.weaken)
    obtain ⟨rest, s', made, items', -, inv, hdone⟩ :=
      (inv_start m list).finishes hsafe' (.start : Run anyStep (Next false) _ [] _) rfl
    have hlast := inv.fits 199 (by rw [inv.made_all hdone rfl]; decide)
    rw [label_length_iff] at hlast
    omega
  · exact run_safe

end OSLabs.Libco.Tests
