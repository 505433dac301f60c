import OSLabs.Libco.Queue

/-! # The second test of the test program

Two producers and two consumers share the queue. A coroutine runs until it calls `co_yield`, and
then any of them may go on where it has yielded, or `main` if what it waits for has returned. That
`co_yield` and `co_wait` do so is assumed of the library here.
-/

namespace OSLabs.Libco.Tests

/-! ## From the source -/

inductive Fault where
  | assertion
  /-- `sprintf` writes over the ten bytes of the text. -/
  | overflow
  | badFree
  deriving DecidableEq, Repr

/-- The two producers, and the two consumers. -/
inductive Which where
  | one
  | two
  deriving DecidableEq, Repr

/-- Where `test_2` is: in one of its calls of `co_wait`, or behind them. -/
inductive Main where
  | first
  | second
  | third
  | fourth
  | draining
  | done
  deriving DecidableEq, Repr

structure State where
  queue : Queue
  /-- `data` of an item. -/
  text : Ptr → List Char
  /-- The items that have been allocated and not freed. -/
  live : List Ptr
  gCount : Nat
  gRunning : Bool
  /-- `i` of a producer that has not returned. -/
  producer : Which → Option Nat
  /-- The consumer has not returned. -/
  consumer : Which → Bool
  main : Main

/-- What `sprintf` writes with `"libco-%d"`. -/
def label (n : Nat) : List Char := "libco-".toList ++ Nat.toDigits 10 n

def State.produced (s : State) (item : Ptr) : State :=
  { s with
    text := Function.update s.text item (label s.gCount)
    live := item :: s.live
    gCount := s.gCount + 1
    queue := qPush s.queue item }

/-- `item` and `data` are what the calls of `malloc` return. If one fails, there is no text. -/
def doProduce (item data : Ptr) (s : State) : Except Fault State :=
  if qIsFull s.queue then .error .assertion
  else if item = 0 ∨ data = 0 then .ok s
  else if 10 < (label s.gCount).length + 1 then .error .overflow
  else .ok (s.produced item)

/-- The texts that are printed, and the state. -/
def doConsume (s : State) : Except Fault (List (List Char) × State) :=
  if qIsEmpty s.queue then .error .assertion
  else
    match qPop s.queue with
    | none => .ok ([], s)
    | some (item, queue) =>
      if item ∈ s.live then .ok ([s.text item], { s with queue, live := s.live.erase item })
      else .error .badFree

def State.setProducer (s : State) (p : Which) (value : Option Nat) : State :=
  { s with producer := Function.update s.producer p value }

def State.setConsumer (s : State) (c : Which) (value : Bool) : State :=
  { s with consumer := Function.update s.consumer c value }

/-- Who goes on; for a producer also what `malloc` returns. -/
inductive Turn where
  | producer (p : Which) (item data : Ptr)
  | consumer (c : Which)
  | main
  deriving DecidableEq, Repr

def Turn.fails : Turn → Bool
  | .producer _ item data => item == 0 || data == 0
  | _ => false

/-- A coroutine's code up to its next call of `co_yield`, if it can go on. -/
def step (t : Turn) (s : State) : Except Fault (Option (List (List Char) × State)) :=
  match t with
  | .producer p item data =>
    match s.producer p with
    | none => .ok none
    | some i =>
      if i < 100 then
        if qIsFull s.queue then .ok (some ([], s))
        -- `malloc` returns no address that is in use.
        else if item = s.queue.list ∨ item ∈ s.live then .ok none
        else (doProduce item data s).map fun s => some ([], s.setProducer p (some (i + 1)))
      else .ok (some ([], s.setProducer p none))
  | .consumer c =>
    if s.consumer c then
      if s.gRunning then
        if qIsEmpty s.queue then .ok (some ([], s)) else (doConsume s).map some
      else .ok (some ([], s.setConsumer c false))
    else .ok none
  | .main =>
    match s.main with
    | .first => .ok (if s.producer .one = none then some ([], { s with main := .second }) else none)
    | .second =>
      .ok (if s.producer .two = none then some ([], { s with main := .third, gRunning := false })
        else none)
    | .third => .ok (if s.consumer .one then none else some ([], { s with main := .fourth }))
    | .fourth => .ok (if s.consumer .two then none else some ([], { s with main := .draining }))
    | .draining =>
      if qIsEmpty s.queue then .ok (some ([], { s with main := .done }))
      else (doConsume s).map some
    | .done => .ok none

/-- In the first call of `co_wait`, with `count` in `g_count`. -/
def start (count : Nat) (m : Lists) (list : Ptr) : State where
  queue := qNew m list
  text := fun _ => []
  live := []
  gCount := count
  gRunning := true
  producer := fun _ => some 0
  consumer := fun _ => true
  main := .first

/-- A turn, in which calls of `malloc` fail only if `mayFail` is set. -/
def Next (mayFail : Bool) (s : State) (texts : List (List Char)) (s' : State) : Prop :=
  ∃ t : Turn, (t.fails = true → mayFail = true) ∧ step t s = .ok (some (texts, s'))

/-! ## The queue and the output -/

variable {count made : Nat} {s : State} {items : List Ptr} {item data : Ptr}
  {log : List (List Char)}

/-- What has been printed and what is in the queue are the texts so far, in order. -/
structure Stored (count made : Nat) (log : List (List Char)) (s : State) (items : List Ptr) :
    Prop where
  holds : Holds s.queue items
  live : s.live.Perm items
  order : log ++ items.map s.text = (List.range' count made).map label
  counted : s.gCount = count + made

/-- A turn that prints nothing and leaves the queue as it is. -/
theorem Stored.silent {s' : State} (h : Stored count made log s items)
    (hqueue : s'.queue = s.queue) (htext : s'.text = s.text) (hlive : s'.live = s.live)
    (hcount : s'.gCount = s.gCount) : Stored count made (log ++ []) s' items where
  holds := by
    rw [hqueue]
    exact h.holds
  live := by
    rw [hlive]
    exact h.live
  order := by
    rw [htext, List.append_nil]
    exact h.order
  counted := by
    rw [hcount]
    exact h.counted

theorem label_length_iff {n : Nat} : (label n).length ≤ 9 ↔ n < 1000 := by
  have hdigits : (Nat.toDigits 10 n).length ≤ 3 ↔ n < 1000 :=
    Nat.length_toDigits_le_iff (by decide) (by decide)
  have hlen : (label n).length = 6 + (Nat.toDigits 10 n).length := List.length_append
  omega

theorem Stored.produce (h : Stored count made log s items)
    (hlabel : (label (count + made)).length ≤ 9) (hroom : ¬qIsFull s.queue = true)
    (halloc : ¬(item = 0 ∨ data = 0)) (hlist : item ≠ s.queue.list) (hnew : item ∉ s.live) :
    doProduce item data s = .ok (s.produced item) ∧
      Stored count (made + 1) log (s.produced item) (items ++ [item]) := by
  have hitem : item ∉ items := fun hmem => hnew (h.live.mem_iff.2 hmem)
  rw [← h.counted] at hlabel
  refine ⟨?_, ?_, ?_, ?_, ?_⟩
  · unfold doProduce
    rw [if_neg hroom, if_neg halloc, if_neg (by omega)]
  · apply h.holds.push (Bool.not_eq_true _ ▸ hroom)
    simp only [List.mem_cons, not_or]
    exact ⟨hlist, hitem⟩
  · exact (h.live.cons item).trans (List.perm_append_singleton item items).symm
  · have hsame : items.map (Function.update s.text item (label s.gCount)) = items.map s.text := by
      apply List.map_congr_left
      intro a ha
      have hne : a ≠ item := fun heq => hitem (heq ▸ ha)
      exact Function.update_of_ne hne ..
    show log ++ (items ++ [item]).map (Function.update s.text item (label s.gCount)) = _
    rw [List.map_append, List.map_singleton, Function.update_self, hsame, ← List.append_assoc,
      h.order, List.range'_concat, List.map_append, List.map_singleton, h.counted, Nat.one_mul]
  · show s.gCount + 1 = count + (made + 1)
    rw [h.counted]
    rfl

theorem Stored.consume (h : Stored count made log s (item :: items)) :
    ∃ queue, doConsume s = .ok ([s.text item], { s with queue, live := s.live.erase item }) ∧
      Stored count made (log ++ [s.text item])
        { s with queue, live := s.live.erase item } items := by
  obtain ⟨queue, hpop, hholds⟩ := h.holds.pop
  have hlive : item ∈ s.live := h.live.mem_iff.2 List.mem_cons_self
  refine ⟨queue, ?_, hholds, ?_, ?_, h.counted⟩
  · unfold doConsume
    rw [if_neg h.holds.not_empty, hpop]
    exact if_pos hlive
  · have herase := h.live.erase item
    rwa [List.erase_cons_head] at herase
  · rw [← h.order, List.map_cons, List.append_assoc]
    rfl

end OSLabs.Libco.Tests
