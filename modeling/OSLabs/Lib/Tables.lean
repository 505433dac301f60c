import Mathlib.Data.List.Induction
import Mathlib.Data.List.Nodup
import Mathlib.Logic.Function.Basic

/-! # Trees of tables in a heap

A heap holds tables, and `next` reads from an entry the table that it points to, if
any. A path of indices leads from a root to at most one table. `Ranked` says that the
paths up to a given length stay in the heap and that no table has two of them; it is
kept by hanging a fresh table into an empty entry, by writing into a table of the last
rank, and by planting a new root.
-/

namespace OSLabs.Lib

abbrev Heap (α ι ω : Type) := α → Option (ι → ω)

namespace Heap

variable {α ι ω : Type}

/-- The table to which the path leads from the table at `a`. -/
def descend (next : ω → Option α) (h : Heap α ι ω) : α → List ι → Option α
  | a, [] => some a
  | a, i :: π => (h a).bind fun t => (next (t i)).bind fun b => descend next h b π

/-- The entry `i` of the table to which the path leads. -/
def lookup (next : ω → Option α) (h : Heap α ι ω) (a : α) (π : List ι) (i : ι) : Option ω :=
  (descend next h a π).bind fun b => (h b).map fun t => t i

def put [DecidableEq α] [DecidableEq ι] (h : Heap α ι ω) (a : α) (i : ι) (w : ω) :
    Heap α ι ω :=
  fun b => if b = a then (h a).map fun t => Function.update t i w else h b

def add [DecidableEq α] (h : Heap α ι ω) (a : α) (t : ι → ω) : Heap α ι ω :=
  Function.update h a (some t)

def drop [DecidableEq α] (h : Heap α ι ω) (as : List α) : Heap α ι ω :=
  fun b => if b ∈ as then none else h b

variable {next : ω → Option α} {h h' : Heap α ι ω} {a b : α} {i : ι} {π : List ι}

@[simp] theorem descend_nil : descend next h a [] = some a := rfl

theorem descend_append (π ρ : List ι) (a : α) :
    descend next h a (π ++ ρ) = (descend next h a π).bind fun b => descend next h b ρ := by
  induction π generalizing a with
  | nil => rfl
  | cons i π ih =>
      cases ht : h a with
      | none => simp [descend, ht]
      | some t =>
          cases hb : next (t i) with
          | none => simp [descend, ht, hb]
          | some b => simp [descend, ht, hb, ih]

theorem descend_snoc (π : List ι) (i : ι) (a : α) :
    descend next h a (π ++ [i]) =
      (descend next h a π).bind fun b => (h b).bind fun t => next (t i) := by
  rw [descend_append]
  congr 1
  funext b
  cases ht : h b with
  | none => simp [descend, ht]
  | some t => cases hn : next (t i) <;> simp [descend, ht, hn]

/-- A path depends on the tables on shorter paths only. -/
theorem descend_congr
    (agree : ∀ ρ b, ρ.length < π.length → descend next h a ρ = some b → h' b = h b) :
    descend next h' a π = descend next h a π := by
  induction π generalizing a with
  | nil => rfl
  | cons i π ih =>
      have hroot : h' a = h a := agree [] a (by simp) rfl
      cases ht : h a with
      | none => simp [descend, hroot, ht]
      | some t =>
          cases hb : next (t i) with
          | none => simp [descend, hroot, ht, hb]
          | some b =>
              have hrest : descend next h' b π = descend next h b π := by
                apply ih
                intro ρ c hlen hc
                apply agree (i :: ρ) c (by simpa using hlen)
                simp [descend, ht, hb, hc]
              simp [descend, hroot, ht, hb, hrest]

theorem descend_prefix {ρ : List ι} (hb : descend next h a (π ++ ρ) = some b) :
    ∃ c, descend next h a π = some c ∧ descend next h c ρ = some b := by
  rw [descend_append] at hb
  exact Option.bind_eq_some_iff.1 hb

/-! ## Ranked heaps -/

/-- Paths of length at most `n` from the roots stay in the heap, and a table is on one
of them only. -/
structure Ranked (next : ω → Option α) (R : α → Prop) (n : Nat) (h : Heap α ι ω) : Prop where
  alloc : ∀ {r π a}, R r → π.length ≤ n → descend next h r π = some a → ∃ t, h a = some t
  inj : ∀ {r r' π π' a}, R r → R r' → π.length ≤ n → π'.length ≤ n →
    descend next h r π = some a → descend next h r' π' = some a → r = r' ∧ π = π'

variable {R : α → Prop} {n : Nat} {r r₀ p q : α} {π₀ : List ι} {t z : ι → ω} {w : ω}

/-- What `Ranked` asks of a set of roots it asks of a smaller one. -/
theorem Ranked.mono {R' : α → Prop} (hr : Ranked next R n h) (sub : ∀ r, R' r → R r) :
    Ranked next R' n h where
  alloc hR := hr.alloc (sub _ hR)
  inj hR hR' := hr.inj (sub _ hR) (sub _ hR')

section Write

variable [DecidableEq α] [DecidableEq ι]

theorem put_self (ht : h p = some t) : put h p i w p = some (Function.update t i w) := by
  simp [put, ht]

theorem put_of_ne (hne : a ≠ p) : put h p i w a = h a := by
  simp [put, hne]

omit [DecidableEq ι] in
theorem add_self : add h q z q = some z := Function.update_self ..

omit [DecidableEq ι] in
theorem add_of_ne (hne : a ≠ q) : add h q z a = h a := Function.update_of_ne hne ..

/-- The heap after a fresh table `q` was hung into entry `i` of the table `p`. -/
def graft (h : Heap α ι ω) (p : α) (i : ι) (w : ω) (q : α) (z : ι → ω) : Heap α ι ω :=
  put (add h q z) p i w

/-- The premises of a graft: the entry points nowhere, the new table is fresh and empty. -/
structure Graftable (next : ω → Option α) (R : α → Prop) (n : Nat) (h : Heap α ι ω)
    (r₀ : α) (π₀ : List ι) (p : α) (t : ι → ω) (i : ι) (w : ω) (q : α) (z : ι → ω) : Prop where
  root : R r₀
  rank : π₀.length < n
  at_path : descend next h r₀ π₀ = some p
  table : h p = some t
  vacant : next (t i) = none
  fresh : h q = none
  points : next w = some q
  empty : ∀ j, next (z j) = none

variable (hr : Ranked next R n h) (g : Graftable next R n h r₀ π₀ p t i w q z)

include g

omit [DecidableEq α] [DecidableEq ι] in
theorem Graftable.ne : p ≠ q := by
  intro heq
  have := g.table
  rw [heq, g.fresh] at this
  cases this

theorem graft_parent : graft h p i w q z p = some (Function.update t i w) :=
  put_self (by rw [add_of_ne g.ne, g.table])

theorem graft_child : graft h p i w q z q = some z := by
  rw [graft, put_of_ne g.ne.symm, add_self]

omit g in
theorem graft_of_ne (hp : a ≠ p) (hq : a ≠ q) : graft h p i w q z a = h a := by
  rw [graft, put_of_ne hp, add_of_ne hq]

include hr

/-- The old paths are as before, and the one new path leads to the new table. -/
theorem descend_graft (hR : R r) (hlen : π.length ≤ n) :
    descend next (graft h p i w q z) r π =
      if r = r₀ ∧ π = π₀ ++ [i] then some q else descend next h r π := by
  induction π using List.reverseRec with
  | nil => simp
  | append_singleton π j ih =>
      have hshort : π.length + 1 ≤ n := by simpa using hlen
      rw [descend_snoc, ih (by omega)]
      by_cases hnew : r = r₀ ∧ π = π₀ ++ [i]
      · -- below the new table there is nothing, as there was nothing below the entry
        rw [if_pos hnew]
        have hold : descend next h r π = none := by
          rw [hnew.1, hnew.2, descend_snoc, g.at_path]
          simp [g.table, g.vacant]
        have hne : ¬(r = r₀ ∧ π ++ [j] = π₀ ++ [i]) := by
          intro heq
          have := congrArg List.length (List.append_inj_left' heq.2 rfl)
          simp [hnew.2] at this
        rw [if_neg hne, descend_snoc, hold]
        simp [graft_child g, g.empty]
      · rw [if_neg hnew]
        cases ha : descend next h r π with
        | none =>
            have hne : ¬(r = r₀ ∧ π ++ [j] = π₀ ++ [i]) := by
              intro heq
              rw [heq.1, List.append_inj_left' heq.2 rfl, g.at_path] at ha
              cases ha
            rw [if_neg hne, descend_snoc, ha]
            rfl
        | some a =>
            have haq : a ≠ q := by
              intro heq
              rcases hr.alloc hR (by omega) ha with ⟨u, hu⟩
              rw [heq, g.fresh] at hu
              cases hu
            rw [descend_snoc, ha, Option.bind_some, Option.bind_some]
            by_cases hap : a = p
            · rcases hr.inj hR g.root (by omega) (by have := g.rank; omega)
                (hap ▸ ha) g.at_path with ⟨hroot, hpath⟩
              rw [hap, graft_parent g, g.table, Option.bind_some, Option.bind_some]
              by_cases hj : j = i
              · simp [hroot, hpath, hj, g.points]
              · simp [hroot, hpath, hj]
            · have hne : ¬(r = r₀ ∧ π ++ [j] = π₀ ++ [i]) := by
                intro heq
                rw [heq.1, List.append_inj_left' heq.2 rfl, g.at_path] at ha
                exact hap (Option.some.inj ha).symm
              rw [if_neg hne, graft_of_ne hap haq]

theorem Ranked.graft : Ranked next R n (graft h p i w q z) where
  alloc := by
    intro r π a hR hlen ha
    rw [descend_graft hr g hR hlen] at ha
    by_cases haq : a = q
    · exact ⟨z, by rw [haq, graft_child g]⟩
    · split at ha
      next => exact absurd (Option.some.inj ha).symm haq
      next =>
        by_cases hap : a = p
        · exact ⟨_, by rw [hap, graft_parent g]⟩
        · rw [graft_of_ne hap haq]
          exact hr.alloc hR hlen ha
  inj := by
    have old : ∀ {r π}, R r → π.length ≤ n → descend next h r π ≠ some q := by
      intro r π hR hlen hq
      rcases hr.alloc hR hlen hq with ⟨u, hu⟩
      rw [g.fresh] at hu
      cases hu
    intro r r' π π' a hR hR' hlen hlen' ha ha'
    rw [descend_graft hr g hR hlen] at ha
    rw [descend_graft hr g hR' hlen'] at ha'
    split at ha
    next hnew =>
      split at ha'
      next hnew' => exact ⟨hnew.1.trans hnew'.1.symm, hnew.2.trans hnew'.2.symm⟩
      next => exact absurd (ha'.trans ha.symm) (old hR' hlen')
    next =>
      split at ha'
      next => exact absurd (ha.trans ha'.symm) (old hR hlen)
      next => exact hr.inj hR hR' hlen hlen' ha ha'

/-- Entries of tables of the last rank are as before, also below the new table, when that
is empty. -/
theorem lookup_graft (hR : R r) (hlen : π.length = n) (d : ω) (hz : ∀ j, z j = d) (j : ι) :
    (lookup next (graft h p i w q z) r π j).getD d = (lookup next h r π j).getD d := by
  rw [lookup, descend_graft hr g hR (Nat.le_of_eq hlen)]
  split
  next hnew =>
    have hold : descend next h r π = none := by
      rw [hnew.1, hnew.2, descend_snoc, g.at_path]
      simp [g.table, g.vacant]
    simp [lookup, hold, graft_child g, hz]
  next =>
    cases ha : descend next h r π with
    | none => simp [lookup, ha]
    | some a =>
        have hap : a ≠ p := by
          intro heq
          have hpath := (hr.inj hR g.root (Nat.le_of_eq hlen) (Nat.le_of_lt g.rank)
            (heq ▸ ha) g.at_path).2
          have hrank := g.rank
          rw [← hpath] at hrank
          omega
        have haq : a ≠ q := by
          intro heq
          rcases hr.alloc hR (Nat.le_of_eq hlen) ha with ⟨u, hu⟩
          rw [heq, g.fresh] at hu
          cases hu
        simp [lookup, ha, graft_of_ne hap haq]

end Write

/-! ## Changes that leave the paths alone -/

/-- Paths only depend on the tables above the last rank. -/
theorem Ranked.descend_frame
    (agree : ∀ {r π a}, R r → π.length < n → descend next h r π = some a → h' a = h a)
    (hR : R r) (hlen : π.length ≤ n) : descend next h' r π = descend next h r π :=
  descend_congr fun _ _ hρ hb => agree hR (by omega) hb

theorem Ranked.frame (hr : Ranked next R n h)
    (agree : ∀ {r π a}, R r → π.length < n → descend next h r π = some a → h' a = h a)
    (keep : ∀ {a}, (∃ t, h a = some t) →
      (∃ r π, R r ∧ π.length ≤ n ∧ descend next h r π = some a) → ∃ t, h' a = some t) :
    Ranked next R n h' where
  alloc := by
    intro r π a hR hlen ha
    rw [descend_frame agree hR hlen] at ha
    exact keep (hr.alloc hR hlen ha) ⟨r, π, hR, hlen, ha⟩
  inj := by
    intro r r' π π' a hR hR' hlen hlen' ha ha'
    rw [descend_frame agree hR hlen] at ha
    rw [descend_frame agree hR' hlen'] at ha'
    exact hr.inj hR hR' hlen hlen' ha ha'

section Leaf

variable [DecidableEq α] [DecidableEq ι] (hr : Ranked next R n h) (hR₀ : R r₀)
  (hlen₀ : π₀.length = n) (hp : descend next h r₀ π₀ = some p)

include hr hR₀ hlen₀ hp

theorem put_leaf_agree (hR : R r) (hlen : π.length < n) (ha : descend next h r π = some a) :
    put h p i w a = h a := by
  apply put_of_ne
  intro heq
  have hpath := (hr.inj hR hR₀ (Nat.le_of_lt hlen) (Nat.le_of_eq hlen₀) (heq ▸ ha) hp).2
  rw [hpath] at hlen
  omega

theorem descend_put_leaf (hR : R r) (hlen : π.length ≤ n) :
    descend next (put h p i w) r π = descend next h r π :=
  Ranked.descend_frame (put_leaf_agree hr hR₀ hlen₀ hp) hR hlen

theorem Ranked.put_leaf : Ranked next R n (put h p i w) := by
  apply hr.frame (put_leaf_agree hr hR₀ hlen₀ hp)
  intro a halloc _
  rcases halloc with ⟨u, hu⟩
  by_cases hap : a = p
  · exact ⟨_, by rw [hap, put_self (hap ▸ hu)]⟩
  · exact ⟨u, by rw [put_of_ne hap, hu]⟩

/-- Writing one entry of the last rank changes this entry and no other. -/
theorem lookup_put_leaf (hR : R r) (hlen : π.length = n) (j : ι) :
    lookup next (put h p i w) r π j =
      if r = r₀ ∧ π = π₀ ∧ j = i then some w else lookup next h r π j := by
  rw [lookup, descend_put_leaf hr hR₀ hlen₀ hp hR (Nat.le_of_eq hlen)]
  by_cases hsame : r = r₀ ∧ π = π₀
  · rcases hr.alloc hR₀ (Nat.le_of_eq hlen₀) hp with ⟨u, hu⟩
    by_cases hj : j = i
    · simp [hsame.1, hsame.2, hp, put_self hu, hj]
    · simp [lookup, hsame.1, hsame.2, hp, put_self hu, hu, hj]
  · have hne : ¬(r = r₀ ∧ π = π₀ ∧ j = i) := fun h => hsame ⟨h.1, h.2.1⟩
    rw [if_neg hne, lookup]
    cases ha : descend next h r π with
    | none => rfl
    | some a =>
        have hap : a ≠ p := fun heq =>
          hsame (hr.inj hR hR₀ (Nat.le_of_eq hlen) (Nat.le_of_eq hlen₀) (heq ▸ ha) hp)
        simp [put_of_ne hap]

end Leaf

/-! ## A new root -/

/-- The premises under which `r₀` becomes the root of a tree with one fresh table `q`. -/
structure Plantable (next : ω → Option α) (R : α → Prop) (n : Nat) (h h' : Heap α ι ω)
    (r₀ : α) (t₀ : ι → ω) (j₀ : ι) (q : α) (z : ι → ω) : Prop where
  apart : ∀ {r π}, R r → r ≠ r₀ → π.length ≤ n → descend next h r π ≠ some r₀
  fresh : h q = none
  ne : q ≠ r₀
  root : h' r₀ = some t₀
  child : h' q = some z
  others : ∀ {a}, a ≠ r₀ → a ≠ q → h' a = h a
  only : ∀ {j b}, next (t₀ j) = some b ↔ j = j₀ ∧ b = q
  empty : ∀ j, next (z j) = none

section Plant

variable {t₀ : ι → ω} {j₀ : ι} (hr : Ranked next R n h)
  (pl : Plantable next R n h h' r₀ t₀ j₀ q z)

include pl

theorem descend_planted : descend next h' r₀ π = some a ↔
    π = [] ∧ a = r₀ ∨ π = [j₀] ∧ a = q := by
  cases π with
  | nil => simp [eq_comm]
  | cons j π =>
      cases hn : next (t₀ j) with
      | none =>
          have hj : j ≠ j₀ := fun hj => by simp [pl.only.2 ⟨hj, rfl⟩] at hn
          simp [descend, pl.root, hn, hj]
      | some b =>
          rcases pl.only.1 hn with ⟨hj, hb⟩
          cases π with
          | nil => simp [descend, pl.root, hj ▸ hn, hj, hb, eq_comm]
          | cons k π => simp [descend, pl.root, hn, hb, pl.child, pl.empty]

include hr

theorem descend_unplanted (hR : R r) (hne : r ≠ r₀) (hlen : π.length ≤ n) :
    descend next h' r π = descend next h r π := by
  apply descend_congr
  intro ρ b hρ hb
  apply pl.others
  · intro heq
    exact pl.apart hR hne (by omega) (heq ▸ hb)
  · intro heq
    rcases hr.alloc hR (by omega) hb with ⟨u, hu⟩
    rw [heq, pl.fresh] at hu
    cases hu

theorem Ranked.plant : Ranked next (fun r => r = r₀ ∨ R r) n h' := by
  have old : ∀ {r π a}, R r → r ≠ r₀ → π.length ≤ n → descend next h' r π = some a →
      descend next h r π = some a ∧ a ≠ r₀ ∧ a ≠ q := by
    intro r π a hR hne hlen ha
    rw [descend_unplanted hr pl hR hne hlen] at ha
    refine ⟨ha, fun heq => pl.apart hR hne hlen (heq ▸ ha), ?_⟩
    intro heq
    rcases hr.alloc hR hlen ha with ⟨u, hu⟩
    rw [heq, pl.fresh] at hu
    cases hu
  constructor
  · intro r π a hR hlen ha
    by_cases hne : r = r₀
    · rcases (descend_planted pl).1 (hne ▸ ha) with ⟨_, heq⟩ | ⟨_, heq⟩
      · exact ⟨t₀, heq ▸ pl.root⟩
      · exact ⟨z, heq ▸ pl.child⟩
    · have hR := hR.resolve_left hne
      rcases old hR hne hlen ha with ⟨hold, hroot, hq⟩
      rw [pl.others hroot hq]
      exact hr.alloc hR hlen hold
  · intro r r' π π' a hR hR' hlen hlen' ha ha'
    by_cases hne : r = r₀
    · by_cases hne' : r' = r₀
      · rcases (descend_planted pl).1 (hne ▸ ha) with ⟨hπ, heq⟩ | ⟨hπ, heq⟩
        · rcases (descend_planted pl).1 (hne' ▸ ha') with ⟨hπ', _⟩ | ⟨_, heq'⟩
          · exact ⟨hne.trans hne'.symm, hπ.trans hπ'.symm⟩
          · exact absurd (heq'.symm.trans heq) pl.ne
        · rcases (descend_planted pl).1 (hne' ▸ ha') with ⟨_, heq'⟩ | ⟨hπ', _⟩
          · exact absurd (heq.symm.trans heq') pl.ne
          · exact ⟨hne.trans hne'.symm, hπ.trans hπ'.symm⟩
      · rcases old (hR'.resolve_left hne') hne' hlen' ha' with ⟨_, hroot, hq⟩
        rcases (descend_planted pl).1 (hne ▸ ha) with ⟨_, heq⟩ | ⟨_, heq⟩
        · exact absurd heq hroot
        · exact absurd heq hq
    · rcases old (hR.resolve_left hne) hne hlen ha with ⟨hold, hroot, hq⟩
      by_cases hne' : r' = r₀
      · rcases (descend_planted pl).1 (hne' ▸ ha') with ⟨_, heq⟩ | ⟨_, heq⟩
        · exact absurd heq hroot
        · exact absurd heq hq
      · rcases old (hR'.resolve_left hne') hne' hlen' ha' with ⟨hold', _, _⟩
        exact hr.inj (hR.resolve_left hne) (hR'.resolve_left hne') hlen hlen' hold hold'

end Plant

/-! ## All tables below a root -/

/-- The path takes its indices from the lists of indices, and is shorter than their list. -/
def Follows : List ι → List (List ι) → Prop
  | _, [] => False
  | [], _ :: _ => True
  | i :: π, s :: ss => i ∈ s ∧ Follows π ss

/-- The tables at and below `a`, children before their parent: one list of indices for
each rank. -/
def nodes (next : ω → Option α) (h : Heap α ι ω) : List (List ι) → α → List α
  | [], _ => []
  | s :: ss, a =>
    s.flatMap (fun i =>
      match (h a).bind fun t => next (t i) with
      | some b => nodes next h ss b
      | none => []) ++ [a]

theorem mem_nodes {ss : List (List ι)} :
    b ∈ nodes next h ss a ↔ ∃ π, Follows π ss ∧ descend next h a π = some b := by
  induction ss generalizing a with
  | nil => simp [nodes, Follows]
  | cons s ss ih =>
      simp only [nodes, List.mem_append, List.mem_flatMap, List.mem_singleton]
      constructor
      · intro hb
        rcases hb with ⟨i, hi, hb⟩ | hb
        · split at hb
          next c hc =>
            rcases ih.1 hb with ⟨π, hπ, hdesc⟩
            rcases Option.bind_eq_some_iff.1 hc with ⟨t, ht, hn⟩
            exact ⟨i :: π, ⟨hi, hπ⟩, by simp [descend, ht, hn, hdesc]⟩
          next => simp at hb
        · exact ⟨[], trivial, by simp [hb]⟩
      · intro hb
        rcases hb with ⟨π, hπ, hdesc⟩
        cases π with
        | nil => exact Or.inr (Option.some.inj hdesc).symm
        | cons i π =>
            rw [descend, Option.bind_eq_some_iff] at hdesc
            rcases hdesc with ⟨t, ht, hdesc⟩
            rcases Option.bind_eq_some_iff.1 hdesc with ⟨c, hc, hrest⟩
            refine Or.inl ⟨i, hπ.1, ?_⟩
            simp only [ht, Option.bind_some, hc]
            exact ih.2 ⟨π, hπ.2, hrest⟩

theorem self_mem_nodes {s : List ι} {ss : List (List ι)} : a ∈ nodes next h (s :: ss) a := by
  simp [nodes]

/-- What is listed depends on the listed tables only. -/
theorem nodes_congr {ss : List (List ι)} (agree : ∀ b ∈ nodes next h ss a, h' b = h b) :
    nodes next h' ss a = nodes next h ss a := by
  induction ss generalizing a with
  | nil => rfl
  | cons s ss ih =>
      have hroot : h' a = h a := agree a self_mem_nodes
      simp only [nodes, hroot]
      congr 1
      apply List.flatMap_congr
      intro i hi
      split
      next b hb =>
        apply ih
        intro c hc
        apply agree
        rw [nodes, List.mem_append, List.mem_flatMap]
        exact Or.inl ⟨i, hi, by simpa only [hb] using hc⟩
      next => rfl

theorem nodes_nodup {ss : List (List ι)} (hs : ∀ s ∈ ss, s.Nodup)
    (distinct : ∀ {π π' b}, Follows π ss → Follows π' ss → descend next h a π = some b →
      descend next h a π' = some b → π = π') : (nodes next h ss a).Nodup := by
  induction ss generalizing a with
  | nil => simp [nodes]
  | cons s ss ih =>
      have child : ∀ {i b}, i ∈ s → ((h a).bind fun t => next (t i)) = some b →
          ∀ π, descend next h a (i :: π) = descend next h b π := by
        intro i b hi hb π
        rcases Option.bind_eq_some_iff.1 hb with ⟨t, ht, hn⟩
        simp [descend, ht, hn]
      -- a table listed below entry `i` is on a path that starts with `i`
      have below : ∀ {i c}, i ∈ s → (c ∈ match (h a).bind fun t => next (t i) with
          | some b => nodes next h ss b
          | none => []) → ∃ π, Follows (i :: π) (s :: ss) ∧
            descend next h a (i :: π) = some c := by
        intro i c hi hc
        split at hc
        next b hb =>
          rcases mem_nodes.1 hc with ⟨π, hπ, hdesc⟩
          exact ⟨π, ⟨hi, hπ⟩, by rw [child hi hb, hdesc]⟩
        next => simp at hc
      rw [nodes, List.nodup_append]
      refine ⟨List.nodup_flatMap.2 ⟨?_, ?_⟩, List.nodup_singleton a, ?_⟩
      · intro i hi
        split
        next b hb =>
          apply ih (fun s' hs' => hs s' (List.mem_cons_of_mem _ hs'))
          intro π π' c hπ hπ' hc hc'
          have hpath := @distinct (i :: π) (i :: π') c ⟨hi, hπ⟩ ⟨hi, hπ'⟩
            (by rw [child hi hb, hc]) (by rw [child hi hb, hc'])
          exact (List.cons.inj hpath).2
        next => exact List.nodup_nil
      · apply (hs s (by simp)).imp_of_mem
        intro i j hi hj hij c hci hcj
        rcases below hi hci with ⟨π, hπ, hdesc⟩
        rcases below hj hcj with ⟨π', hπ', hdesc'⟩
        exact hij (List.cons.inj (distinct hπ hπ' hdesc hdesc')).1
      · intro c hc b hb heq
        rcases List.mem_flatMap.1 hc with ⟨i, hi, hci⟩
        rcases below hi hci with ⟨π, hπ, hdesc⟩
        have hself : descend next h a [] = some c := by simp [heq, List.mem_singleton.1 hb]
        have hpath := @distinct (i :: π) [] c hπ trivial hdesc hself
        cases hpath

end Heap

end OSLabs.Lib
