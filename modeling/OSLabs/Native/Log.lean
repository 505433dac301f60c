import Mathlib.Data.List.Induction
import OSLabs.Native.Model

/-! # Calls and their log

The kernel protects address spaces, maps pages and switches in any order. The log of the
calls that returned says what each address space maps, and whether a page was mapped again.
-/

namespace OSLabs.Native

/-! ## The calls -/

inductive Call where
  | protect (as : Nat)
  | map (as va pa prot : Nat)
  | switch (head : Option Nat)
  deriving DecidableEq, Repr

structure Mapping where
  pa : Nat
  prot : Nat
  deriving DecidableEq, Repr

def Mapping.hostPage (mp : Mapping) : HostPage := pmemPage mp.pa mp.prot

def PageMap.mapping (e : PageMap) : Mapping := ⟨e.pa, e.prot⟩

/-- A call that returned; an address space is named by its list head. -/
inductive Event where
  | protect (as h : Nat)
  | map (h va : Nat) (mp : Mapping)
  | switch (head : Option Nat)
  deriving DecidableEq, Repr

section Step

variable (pgsize : Nat) (pgalloc : Pgalloc)

def perform (fuel : Nat) (m : Machine) : Call → Except Stop (List Event × Machine)
  | .protect as => do
    let m ← protect pgsize pgalloc as m
    .ok (((m.spaces as).map fun a => .protect as a.ptr).toList, m)
  | .map as va pa prot => do
    let m ← map pgsize pgalloc as va pa prot m
    .ok (((m.spaces as).map fun a => .map a.ptr va ⟨pa, prot⟩).toList, m)
  | .switch head => do
    let m ← amSwitch fuel head m
    .ok ([.switch head], m)

def Step (m : Machine) (es : List Event) (m' : Machine) : Prop :=
  ∃ fuel call, perform pgsize pgalloc fuel m call = .ok (es, m')

end Step

/-- After `vme_init`: nothing is allocated, and the host maps no user page. -/
def start : Machine where
  nodes _ := none
  heads _ := none
  allocated := []
  spaces _ := none
  vmHead := none
  host _ := none
  vmeEnable := true

/-! ## What a log says -/

def record (f : Nat → Nat → Option Mapping) : Event → Nat → Nat → Option Mapping
  | .map h va mp => Function.update f h (Function.update (f h) va (some mp))
  | .protect _ _ => f
  | .switch _ => f

/-- What each address space maps, by the latest call of `map`. -/
def latest (log : List Event) : Nat → Nat → Option Mapping := log.foldl record fun _ _ => none

def pagesOf (log : List Event) (h : Nat) : List Nat :=
  log.filterMap fun ev =>
    match ev with
    | .map h' va _ => if h' = h then some va else none
    | _ => none

/-- No page is mapped a second time in its address space. -/
def NoRemap (log : List Event) : Prop := ∀ h, (pagesOf log h).Nodup

section Log

variable {log : List Event} {h h' va va' : Nat} {mp : Mapping}

@[simp] theorem latest_protect (as : Nat) : latest (log ++ [.protect as h]) = latest log := by
  simp [latest, record]

@[simp] theorem latest_switch (head : Option Nat) :
    latest (log ++ [.switch head]) = latest log := by
  simp [latest, record]

@[simp] theorem pagesOf_protect (as : Nat) : pagesOf (log ++ [.protect as h]) h' = pagesOf log h' := by
  simp [pagesOf]

@[simp] theorem pagesOf_switch (head : Option Nat) :
    pagesOf (log ++ [.switch head]) h = pagesOf log h := by
  simp [pagesOf]

theorem latest_map_self : latest (log ++ [.map h va mp]) h va = some mp := by
  simp [latest, record]

theorem latest_map_of_ne (hne : ¬(h' = h ∧ va' = va)) :
    latest (log ++ [.map h va mp]) h' va' = latest log h' va' := by
  by_cases hh : h' = h
  · have hva : va' ≠ va := fun hva => hne ⟨hh, hva⟩
    simp [latest, record, hh, hva]
  · simp [latest, record, hh]

theorem pagesOf_map_self : pagesOf (log ++ [.map h va mp]) h = pagesOf log h ++ [va] := by
  simp [pagesOf]

theorem pagesOf_map_of_ne (hne : h' ≠ h) :
    pagesOf (log ++ [.map h va mp]) h' = pagesOf log h' := by
  simp [pagesOf, hne.symm]

theorem mem_pagesOf : va ∈ pagesOf log h ↔ (latest log h va).isSome := by
  induction log using List.reverseRecOn with
  | nil => simp [pagesOf, latest]
  | append_singleton log ev ih =>
      cases ev with
      | protect as h' => simpa using ih
      | switch head => simpa using ih
      | map h' va' mp =>
          by_cases hh : h = h'
          · subst hh
            rw [pagesOf_map_self, List.mem_append, List.mem_singleton, ih]
            by_cases hva : va = va'
            · simp [hva, latest_map_self]
            · rw [latest_map_of_ne fun hboth => hva hboth.2]
              simp [hva]
          · rw [pagesOf_map_of_ne hh, latest_map_of_ne fun hboth => hh hboth.1, ih]

end Log

end OSLabs.Native
