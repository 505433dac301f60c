import OSLabs.Vme.Ptwalk

/-! # Address spaces as maps

The purpose of the page tables, stated without them: an address space is a map from
pages to physical pages and protections, which `protect` creates empty and `map`
changes in one place. `Refines` relates it to the tables in memory, and to the pages
obtained for each address space; `protect` and `map` keep it.
-/

namespace OSLabs.Vme

open OSLabs.Lib
open OSLabs.Lib.Heap

variable {c : Arch} {pa flag : Nat}

/-! ## The abstract address spaces -/

structure Mapping where
  pa : Nat
  prot : Nat
  deriving DecidableEq, Repr

/-- The protected address spaces, each with what is mapped at its pages. -/
abbrev Spaces := Nat → Option (Nat → Option Mapping)

def Spaces.protect (m : Spaces) (as : Nat) : Spaces :=
  Function.update m as (some fun _ => none)

def Spaces.unprotect (m : Spaces) (as : Nat) : Spaces := Function.update m as none

def Spaces.map (m : Spaces) (as va pa prot : Nat) : Spaces :=
  Function.update m as ((m as).map fun f =>
    Function.update f va (if prot = mmapNone then none else some ⟨pa, prot⟩))

def Spaces.Live (m : Spaces) (as : Nat) : Prop := (m as).isSome

def pte (pa prot : Nat) : Nat :=
  pa ||| pteP ||| pteU ||| (if prot &&& mmapWrite ≠ 0 then pteW else 0)

def entryOf : Option Mapping → Nat
  | none => 0
  | some m => pte m.pa m.prot

theorem pte_flags (haligned : pa % 4096 = 0) (hm : flag < 4096) (prot : Nat) :
    pte pa prot &&& flag = (pteP ||| (pteU ||| (if prot &&& mmapWrite ≠ 0 then pteW else 0))) &&&
      flag := by
  rw [pte, Nat.or_assoc, Nat.or_assoc]
  exact or_and_flags (s := 12) haligned hm

theorem pte_ne_zero (pa prot : Nat) : pte pa prot ≠ 0 := by
  intro h
  rw [pte, Nat.or_assoc, Nat.or_assoc, Nat.or_eq_zero_iff, Nat.or_eq_zero_iff] at h
  exact absurd h.2.1 (by decide)

theorem frame_pte (c : Arch) (pa prot : Nat) : frame c (pte pa prot) = frame c pa := by
  rw [pte, Nat.or_assoc, Nat.or_assoc]
  apply frame_or
  split <;> decide

/-! ## The kernel's tables -/

/-- What the tables of the kernel offer at the start: the top table lies in memory, no
entry of it is for users, and no walk leaves memory. -/
structure Booted (c : Arch) (σ₀ : State) : Prop where
  page : IsPage c σ₀.kpt
  top : ∃ kt, σ₀.pages σ₀.kpt = some kt ∧ ∀ i, kt i &&& pteU = 0
  closed : ∀ va, pageWalk c σ₀ σ₀.kpt va ≠ .wild

def userUse (c : Arch) : Use c where
  mask := pteP ||| pteU
  flags := pteW ||| pteU
  shared := KernelTop c
  allowed va := inRange va (uvmArea c)
  mask_lt := by decide
  mask_p := by decide
  flags_lt := by decide
  flags_mask := by decide
  root_mask := by decide
  unshared h := (userTop_of_inRange h).not_kernelTop

/-- An entry that is not for users points to no table of an address space. -/
theorem next_of_not_user {e : Nat} (he : e &&& pteU = 0) : next (userUse c) e = none := by
  rw [next, if_neg]
  intro hm
  have h : (e &&& (pteP ||| pteU)) &&& pteU = pteU := by
    rw [show e &&& (pteP ||| pteU) = pteP ||| pteU from hm]
    decide
  rw [Nat.and_assoc, show (pteP ||| pteU) &&& pteU = pteU by decide, he] at h
  cases h

/-! ## The relation -/

def Owns (c : Arch) (σ : State) (as p : Nat) : Prop :=
  ∃ π, π ≠ [] ∧ π.length ≤ (mmu c).ptlevels ∧
    descend (next (userUse c)) σ.heap (.space as) π = some (.page p)

/-- The tables `ts` of the address space `as` hold the map `f`: the top table has the
kernel's entries in their places, and the entries of the last level are those of `f`. -/
structure Holds (c : Arch) (σ₀ σ : State) (as : Nat) (f : Nat → Option Mapping)
    (ts : List Nat) : Prop where
  apart : ∀ {p}, Owns c σ as p → σ₀.pages p = none
  top : ∃ q t, descend (next (userUse c)) σ.heap (.space as) [0] = some (.page q) ∧
    σ.pages q = some t ∧
    ∀ {kt i}, σ₀.pages σ₀.kpt = some kt → KernelTop c i → t i = kt i
  leaves : ∀ {va}, inRange va (uvmArea c) → va % 4096 = 0 →
    (lookup (next (userUse c)) σ.heap (.space as) (path c va) (leafIndex c va)).getD 0 =
      entryOf (f va)
  aligned : ∀ {va mp}, f va = some mp → mp.pa % 4096 = 0
  nodup : ts.Nodup
  owns : ∀ {p}, p ∈ ts ↔ Owns c σ as p

/-- The memory `σ` holds the address spaces `m`, with the tables `tables`, beside the
kernel's tables of `σ₀`. -/
structure Refines (c : Arch) (σ₀ : State) (m : Spaces) (tables : Nat → List Nat) (σ : State) :
    Prop where
  rooted : Rooted (userUse c) m.Live σ.heap
  kpt : σ.kpt = σ₀.kpt
  kernel : ∀ {p t}, σ₀.pages p = some t → σ.pages p = some t
  holds : ∀ {as f}, m as = some f → Holds c σ₀ σ as f (tables as)

variable {σ₀ σ σ' : State} {m : Spaces} {tables : Nat → List Nat} {as va prot : Nat}
  {ps : List Nat}

theorem Refines.allocated (ref : Refines c σ₀ m tables σ) {p : Nat} (hlive : m.Live as)
    (h : Owns c σ as p) : ∃ t, σ.pages p = some t := by
  rcases h with ⟨π, _, hlen, hdesc⟩
  exact ref.rooted.ranked.alloc (Roots.intro hlive) hlen hdesc

theorem Refines.owner (ref : Refines c σ₀ m tables σ) {as' p : Nat} (hlive : m.Live as)
    (hlive' : m.Live as') (h : Owns c σ as p) (h' : Owns c σ as' p) : as = as' := by
  rcases h with ⟨π, _, hlen, hdesc⟩
  rcases h' with ⟨π', _, hlen', hdesc'⟩
  exact Base.space.inj (ref.rooted.ranked.inj (Roots.intro hlive) (Roots.intro hlive') hlen hlen'
    hdesc hdesc').1

theorem Spaces.Live.intro {f : Nat → Option Mapping} (h : m as = some f) : m.Live as := by
  rw [Spaces.Live, h]
  rfl

theorem SameTables.owns (same : SameTables (userUse c) σ.heap σ'.heap as) {p : Nat} :
    Owns c σ' as p ↔ Owns c σ as p := by
  constructor
  · intro h
    rcases h with ⟨π, hne, hlen, hdesc⟩
    exact ⟨π, hne, hlen, (same.descend hlen).symm.trans hdesc⟩
  · intro h
    rcases h with ⟨π, hne, hlen, hdesc⟩
    exact ⟨π, hne, hlen, (same.descend hlen).trans hdesc⟩

/-- What a step does not touch it leaves as it is. -/
theorem Holds.frame {f : Nat → Option Mapping} {ts : List Nat} (hh : Holds c σ₀ σ as f ts)
    (same : SameTables (userUse c) σ.heap σ'.heap as) : Holds c σ₀ σ' as f ts where
  apart h := hh.apart (same.owns.1 h)
  top := by
    rcases hh.top with ⟨q, t, hq, ht, htop⟩
    have hlen : [0].length ≤ (mmu c).ptlevels := by cases c <;> decide
    have hkeep := same hlen hq
    exact ⟨q, t, (same.descend hlen).trans hq, hkeep.trans ht, htop⟩
  leaves := by
    intro va hva haligned
    rw [same.lookup (Nat.le_of_eq (path_length c va))]
    exact hh.leaves hva haligned
  aligned := hh.aligned
  nodup := hh.nodup
  owns := hh.owns.trans same.owns.symm

end OSLabs.Vme
