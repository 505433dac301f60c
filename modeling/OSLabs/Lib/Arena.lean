import Mathlib.Data.List.Basic

/-! # Regions taken from an arena

A region is a half-open range of addresses. An arena hands out regions one behind the
other, below a head that only moves up; the regions that are in use at the same time lie
in the arena and do not overlap.
-/

namespace OSLabs.Lib

structure Region where
  start : Int
  size : Int
  deriving DecidableEq, Repr

namespace Region

variable {r s t : Region}

def finish (r : Region) : Int := r.start + r.size

def Holds (r s : Region) : Prop := r.start ≤ s.start ∧ s.finish ≤ r.finish

instance (r s : Region) : Decidable (r.Holds s) := inferInstanceAs (Decidable (_ ∧ _))

def Has (r : Region) (a : Int) : Prop := r.start ≤ a ∧ a < r.finish

instance (r : Region) (a : Int) : Decidable (r.Has a) := inferInstanceAs (Decidable (_ ∧ _))

def Apart (r s : Region) : Prop := r.finish ≤ s.start ∨ s.finish ≤ r.start

instance (r s : Region) : Decidable (r.Apart s) := inferInstanceAs (Decidable (_ ∨ _))

theorem mk_holds {a n b k : Int} :
    (Region.mk a n).Holds ⟨b, k⟩ ↔ a ≤ b ∧ b + k ≤ a + n := Iff.rfl

theorem mk_has {a n b : Int} : (Region.mk a n).Has b ↔ a ≤ b ∧ b < a + n := Iff.rfl

theorem mk_apart {a n b k : Int} :
    (Region.mk a n).Apart ⟨b, k⟩ ↔ a + n ≤ b ∨ b + k ≤ a := Iff.rfl

theorem Holds.trans (hrs : r.Holds s) (hst : s.Holds t) : r.Holds t :=
  ⟨Int.le_trans hrs.1 hst.1, Int.le_trans hst.2 hrs.2⟩

theorem Holds.has {a : Int} (hrs : r.Holds s) (ha : s.Has a) : r.Has a :=
  ⟨Int.le_trans hrs.1 ha.1, Int.lt_of_lt_of_le ha.2 hrs.2⟩

theorem Apart.not_has {a : Int} (hrs : r.Apart s) (ha : r.Has a) : ¬ s.Has a := by
  intro has
  unfold Apart at hrs
  unfold Has at ha has
  omega

end Region

variable {arena : Region} {live : List Region} {head : Int}

/-- The regions in use are taken from the arena below `head`. -/
structure Stacked (arena : Region) (live : List Region) (head : Int) : Prop where
  inside : ∀ r ∈ live, arena.Holds r
  below : ∀ r ∈ live, r.finish ≤ head
  apart : live.Pairwise Region.Apart

theorem Stacked.nil (arena : Region) (head : Int) : Stacked arena [] head where
  inside := by simp
  below := by simp
  apart := .nil

theorem Stacked.mono (stacked : Stacked arena live head) {head' : Int} (hle : head ≤ head') :
    Stacked arena live head' where
  inside := stacked.inside
  below := fun r hr => Int.le_trans (stacked.below r hr) hle
  apart := stacked.apart

theorem Stacked.push (stacked : Stacked arena live head) {size : Int} (hsize : 0 ≤ size)
    (hstart : arena.start ≤ head) (hfinish : head + size ≤ arena.finish) :
    Stacked arena (⟨head, size⟩ :: live) (head + size) where
  inside := List.forall_mem_cons.2 ⟨⟨hstart, hfinish⟩, stacked.inside⟩
  below := List.forall_mem_cons.2
    ⟨Int.le_refl _, fun r hr => Int.le_trans (stacked.below r hr) (by omega)⟩
  apart := List.pairwise_cons.2 ⟨fun r hr => .inr (stacked.below r hr), stacked.apart⟩

end OSLabs.Lib
