import Mathlib.Logic.Function.Basic
import OSLabs.Lib.Circle

/-! # The queue of the test program

`co-test.h` has the circular lists of the Linux kernel and a bounded queue over them. An object
is named by the address of the `list_head` in it, and `0` is the null pointer.
-/

namespace OSLabs.Libco.Tests

open Lib (Circle)

abbrev Ptr := Nat

/-! ## From the source -/

/-- The two fields of every `list_head`. -/
structure Lists where
  next : Ptr → Ptr
  prev : Ptr → Ptr

def Lists.setNext (m : Lists) (p value : Ptr) : Lists :=
  { m with next := Function.update m.next p value }

def Lists.setPrev (m : Lists) (p value : Ptr) : Lists :=
  { m with prev := Function.update m.prev p value }

def initListHead (m : Lists) (p : Ptr) : Lists := (m.setNext p p).setPrev p p

def listAddBetween (m : Lists) (new prev next : Ptr) : Lists :=
  (((m.setPrev next new).setNext new next).setPrev new prev).setNext prev new

def listAddTail (m : Lists) (new head : Ptr) : Lists := listAddBetween m new (m.prev head) head

def listDelBetween (m : Lists) (prev next : Ptr) : Lists := (m.setPrev next prev).setNext prev next

def listDel (m : Lists) (entry : Ptr) : Lists :=
  ((listDelBetween m (m.prev entry) (m.next entry)).setNext entry 0).setPrev entry 0

def listEmpty (m : Lists) (head : Ptr) : Bool := m.next head = head

structure Queue where
  lists : Lists
  list : Ptr
  sz : Nat
  cap : Nat

def qNew (m : Lists) (list : Ptr) : Queue where
  lists := initListHead m list
  list := list
  sz := 0
  cap := 100

def qIsFull (q : Queue) : Bool := q.sz = q.cap

def qIsEmpty (q : Queue) : Bool := listEmpty q.lists q.list

def qPush (q : Queue) (item : Ptr) : Queue :=
  if qIsFull q then q
  else { q with lists := listAddTail q.lists item q.list, sz := q.sz + 1 }

/-- The item and the queue without it, or `none` for a null pointer. -/
def qPop (q : Queue) : Option (Ptr × Queue) :=
  if qIsEmpty q then none
  else
    let item := q.lists.next q.list
    some (item, { q with lists := listDel q.lists item, sz := q.sz - 1 })

/-! ## The items of a queue -/

/-- The queue has these items, the oldest one first. -/
structure Holds (q : Queue) (items : List Ptr) : Prop where
  circle : Circle q.lists.next q.lists.prev q.list items
  size : q.sz = items.length
  bound : items.length ≤ q.cap
  room : 0 < q.cap

variable {q : Queue} {items : List Ptr} {item : Ptr}

theorem holds_qNew (m : Lists) (list : Ptr) : Holds (qNew m list) [] where
  circle := Circle.empty (Function.update_self ..) (Function.update_self ..)
  size := rfl
  bound := Nat.zero_le 100
  room := Nat.succ_pos 99

theorem Holds.qIsFull_iff (h : Holds q items) : qIsFull q = true ↔ items.length = q.cap := by
  rw [← h.size]
  exact decide_eq_true_iff

theorem Holds.qIsEmpty_iff (h : Holds q items) : qIsEmpty q = true ↔ items = [] := by
  unfold qIsEmpty listEmpty
  rw [decide_eq_true_iff]
  have hlinked := h.circle.linked
  have hnodup := h.circle.nodup
  cases items with
  | nil => exact ⟨fun _ => rfl, fun _ => hlinked.1.1⟩
  | cons x items =>
      have hnext : q.lists.next q.list = x := hlinked.1.1
      constructor
      · intro hempty
        rw [hnext] at hempty
        rw [hempty] at hnodup
        simp at hnodup
      · intro hnil
        cases hnil

theorem Holds.not_empty (h : Holds q (item :: items)) : ¬qIsEmpty q = true := by
  rw [h.qIsEmpty_iff]
  exact List.cons_ne_nil item items

theorem Holds.push (h : Holds q items) (hroom : qIsFull q = false)
    (hnew : item ∉ q.list :: items) :
    Holds (qPush q item) (items ++ [item]) := by
  obtain ⟨before, after, p, r, gap⟩ := Circle.exists_gap q.list items []
  have hr : r = q.list := (List.cons.inj gap.right).1.symm
  subst hr
  have hcircle : Circle q.lists.next q.lists.prev q.list (items ++ []) := by
    rw [List.append_nil]
    exact h.circle
  have hlast : q.lists.prev q.list = p := ((Circle.linked_gap gap).1 hcircle.linked).2.1.2
  have hp : p ∈ q.list :: items := by
    rw [gap.left]
    simp
  have hpnew : item ≠ p := fun heq => hnew (heq ▸ hp)
  have hhead : q.list ≠ item := fun heq => hnew (heq ▸ List.mem_cons_self)
  have hfull : items.length ≠ q.cap := by
    rw [ne_eq, ← h.qIsFull_iff, hroom]
    exact Bool.false_ne_true
  have hbound := h.bound
  unfold qPush
  rw [hroom, if_neg Bool.false_ne_true]
  refine ⟨?_, ?_, ?_, h.room⟩
  · simp only [listAddTail, listAddBetween, Lists.setNext, Lists.setPrev, hlast]
    apply hcircle.insert gap
    · rwa [List.append_nil]
    · intro a ha hap
      rw [List.append_nil] at ha
      have hane : a ≠ item := fun heq => hnew (heq ▸ ha)
      rw [Function.update_of_ne hap, Function.update_of_ne hane]
    · intro a ha haq
      rw [List.append_nil] at ha
      have hane : a ≠ item := fun heq => hnew (heq ▸ ha)
      rw [Function.update_of_ne hane, Function.update_of_ne haq]
    · exact ⟨Function.update_self .., Function.update_self ..⟩
    · constructor
      · rw [Function.update_of_ne hpnew, Function.update_self]
      · rw [Function.update_of_ne hhead, Function.update_self]
  · rw [List.length_append, h.size]
    rfl
  · rw [List.length_append, List.length_singleton]
    exact Nat.lt_of_le_of_ne hbound hfull

theorem Holds.pop (h : Holds q (item :: items)) :
    ∃ q', qPop q = some (item, q') ∧ Holds q' items := by
  obtain ⟨before, after, p, r, gap⟩ := Circle.exists_gap q.list [] items
  have hp : p = q.list := by
    have hleft := gap.left
    cases before with
    | nil => exact (List.cons.inj hleft).1.symm
    | cons b before => simp at hleft
  subst hp
  have hcircle : Circle q.lists.next q.lists.prev q.list ([] ++ item :: items) := h.circle
  have hfirst : q.lists.next q.list = item := h.circle.linked.1.1
  obtain ⟨hprev, hnext⟩ := hcircle.neighbours gap
  have hnodup := h.circle.nodup
  have hhead : q.list ≠ item := by
    rintro heq
    rw [heq] at hnodup
    simp at hnodup
  have hrest : item ∉ items := (List.nodup_cons.1 (List.nodup_cons.1 hnodup).2).1
  have hr : r ≠ item := by
    rintro rfl
    have hmem : r ∈ items ++ [q.list] := by
      rw [gap.right]
      exact List.mem_cons_self
    simp only [List.mem_append, List.mem_singleton] at hmem
    cases hmem with
    | inl hmem => exact hrest hmem
    | inr hmem => exact hhead hmem.symm
  have hother : ∀ a ∈ q.list :: ([] ++ items), a ≠ item := by
    rintro a ha rfl
    cases List.mem_cons.1 ha with
    | inl ha => exact hhead ha.symm
    | inr ha => exact hrest ha
  have hsize := h.size
  have hbound := h.bound
  rw [List.length_cons] at hsize hbound
  unfold qPop
  rw [if_neg h.not_empty, hfirst]
  refine ⟨_, rfl, ?_, ?_, ?_, h.room⟩
  · simp only [listDel, listDelBetween, Lists.setNext, Lists.setPrev, hprev, hnext]
    apply hcircle.remove gap
    · intro a ha hap
      rw [Function.update_of_ne (hother a ha), Function.update_of_ne hap]
    · intro a ha har
      rw [Function.update_of_ne (hother a ha), Function.update_of_ne har]
    · constructor
      · rw [Function.update_of_ne hhead, Function.update_self]
      · rw [Function.update_of_ne hr, Function.update_self]
  · show q.sz - 1 = items.length
    omega
  · exact Nat.le_of_succ_le hbound

end OSLabs.Libco.Tests
