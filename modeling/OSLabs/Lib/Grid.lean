import Mathlib.Data.Set.Image

/-! # Lines of cells

A text is read as lines of cells. Some cells have a stroke that leaves them upwards, some
one that leaves them downwards. `Flows` says that the strokes of neighbouring lines meet,
and keeps the columns where strokes come in above the first line and go out below the
last one, so that blocks of lines can be put below and behind each other.
-/

namespace OSLabs.Lib

variable {κ : Type} {up down p : κ → Bool} {s r t : Set Nat} {A B : List (List κ)}
  {head rest line : List κ} {i j : Nat}

def cell (lines : List (List κ)) (i j : Nat) : Option κ := lines[i]?.bind fun l => l[j]?

def marks (p : κ → Bool) (l : List κ) : Set Nat := {j | ∃ c, l[j]? = some c ∧ p c = true}

theorem marks_eq_empty (h : ∀ c ∈ line, p c = false) : marks p line = ∅ := by
  ext j
  constructor
  · rintro ⟨c, hc, hp⟩
    rw [h c (List.mem_of_getElem? hc)] at hp
    cases hp
  · exact fun hj => hj.elim

theorem marks_append (p : κ → Bool) (u v : List κ) :
    marks p (u ++ v) = marks p u ∪ (u.length + ·) '' marks p v := by
  ext j
  constructor
  · rintro ⟨c, hc, hp⟩
    by_cases hj : j < u.length
    · rw [List.getElem?_append_left hj] at hc
      exact .inl ⟨c, hc, hp⟩
    · rw [List.getElem?_append_right (Nat.le_of_not_lt hj)] at hc
      exact .inr ⟨j - u.length, ⟨c, hc, hp⟩, by simp only; omega⟩
  · rintro (⟨c, hc, hp⟩ | ⟨k, ⟨c, hc, hp⟩, rfl⟩)
    · have hj : j < u.length := (List.getElem?_eq_some_iff.1 hc).1
      exact ⟨c, by rw [List.getElem?_append_left hj]; exact hc, hp⟩
    · exact ⟨c, by rw [List.getElem?_append_right (by simp)]; simpa using hc, hp⟩

theorem marks_append_plain {u v : List κ} (h : ∀ c ∈ v, p c = false) :
    marks p (u ++ v) = marks p u := by
  rw [marks_append, marks_eq_empty h, Set.image_empty, Set.union_empty]

theorem marks_congr {q : κ → Bool} {u v : List κ} (h : u.map p = v.map q) :
    marks p u = marks q v := by
  ext j
  have hj := congrArg (·[j]?) h
  simp only [List.getElem?_map] at hj
  have hmem : ∀ (r : κ → Bool) (w : List κ), j ∈ marks r w ↔ w[j]?.map r = some true :=
    fun r w => Option.map_eq_some_iff.symm
  rw [hmem, hmem, hj]

/-! ## Blocks -/

/-- Strokes come in above the first line in the columns `s` and go out below the last one
in the columns `t`; in between they meet. -/
def Flows (up down : κ → Bool) : Set Nat → List (List κ) → Set Nat → Prop
  | s, [], t => s = t
  | s, line :: lines, t => marks up line = s ∧ Flows up down (marks down line) lines t

theorem Flows.append (hA : Flows up down s A r) (hB : Flows up down r B t) :
    Flows up down s (A ++ B) t := by
  induction A generalizing s with
  | nil =>
      have hs : s = r := hA
      subst hs
      exact hB
  | cons line A ih => exact ⟨hA.1, ih hA.2⟩

theorem Flows.indent (hB : Flows up down s B t) (through : marks up rest = marks down rest) :
    Flows up down (marks down rest ∪ (rest.length + ·) '' s) (B.map (rest ++ ·))
      (marks down rest ∪ (rest.length + ·) '' t) := by
  induction B generalizing s with
  | nil =>
      have hs : s = t := hB
      subst hs
      rfl
  | cons line B ih =>
      rcases hB with ⟨rfl, hB⟩
      refine ⟨?_, ?_⟩
      · rw [marks_append, through]
      · rw [marks_append]
        exact ih hB

/-- The block behind `head` on its first line and behind `rest` on the others. -/
def hang (head rest : List κ) : List (List κ) → List (List κ)
  | [] => [head]
  | line :: lines => (head ++ line) :: lines.map (rest ++ ·)

theorem hang_length (head rest : List κ) (B : List (List κ)) :
    (hang head rest B).length = max 1 B.length := by
  cases B with
  | nil => rfl
  | cons line lines =>
      have hle : 1 ≤ (line :: lines).length := by simp
      rw [hang, List.length_cons, List.length_map, Nat.max_eq_right hle, List.length_cons]

theorem hang_ne_nil (head rest : List κ) (B : List (List κ)) : hang head rest B ≠ [] := by
  cases B with
  | nil => simp [hang]
  | cons line lines => simp [hang]

theorem mem_hang {c : κ} (h : ∃ line ∈ hang head rest B, c ∈ line) :
    c ∈ head ∨ c ∈ rest ∨ ∃ line ∈ B, c ∈ line := by
  rcases h with ⟨line, hline, hc⟩
  cases B with
  | nil =>
      rw [List.mem_singleton.1 hline] at hc
      exact .inl hc
  | cons first lines =>
      rcases List.mem_cons.1 hline with rfl | hline
      · rcases List.mem_append.1 hc with hc | hc
        · exact .inl hc
        · exact .inr (.inr ⟨first, by simp, hc⟩)
      · rcases List.mem_map.1 hline with ⟨later, hlater, rfl⟩
        rcases List.mem_append.1 hc with hc | hc
        · exact .inr (.inl hc)
        · exact .inr (.inr ⟨later, by simp [hlater], hc⟩)

/-- Strokes that leave `head` downwards go on in `rest`. -/
theorem Flows.hang (hB : Flows up down ∅ B ∅) (hlength : head.length = rest.length)
    (hup : marks up rest = marks down head) (hdown : marks down rest = marks down head) :
    Flows up down (marks up head) (hang head rest B) (marks down head) := by
  cases B with
  | nil => exact ⟨rfl, rfl⟩
  | cons line lines =>
      rcases hB with ⟨hfirst, hlines⟩
      have hrest := hlines.indent (hup.trans hdown.symm)
      refine ⟨by rw [marks_append, hfirst, Set.image_empty, Set.union_empty], ?_⟩
      rw [marks_append, hlength, ← hdown]
      rwa [Set.image_empty, Set.union_empty] at hrest

/-! ## Reading a block -/

/-- A stroke that comes from above comes from the line above. -/
theorem Flows.above (hB : Flows up down s B t) {c : κ} (hc : cell B i j = some c)
    (hup : up c = true) :
    (i = 0 ∧ j ∈ s) ∨ ∃ k d, i = k + 1 ∧ cell B k j = some d ∧ down d = true := by
  induction B generalizing s i with
  | nil => simp [cell] at hc
  | cons line B ih =>
      rcases hB with ⟨rfl, hB⟩
      cases i with
      | zero => exact .inl ⟨rfl, c, by simpa [cell] using hc, hup⟩
      | succ i =>
          have hc' : cell B i j = some c := by simpa [cell] using hc
          rcases ih hB hc' with ⟨rfl, d, hd, hdown⟩ | ⟨k, d, rfl, hd, hdown⟩
          · exact .inr ⟨0, d, rfl, by simpa [cell] using hd, hdown⟩
          · exact .inr ⟨k + 1, d, rfl, by simpa [cell] using hd, hdown⟩

/-- A stroke that goes down goes on in the line below. -/
theorem Flows.below (hB : Flows up down s B t) {c : κ} (hc : cell B i j = some c)
    (hdown : down c = true) :
    (i + 1 = B.length ∧ j ∈ t) ∨ ∃ d, cell B (i + 1) j = some d ∧ up d = true := by
  induction B generalizing s i with
  | nil => simp [cell] at hc
  | cons line B ih =>
      rcases hB with ⟨rfl, hB⟩
      cases i with
      | zero =>
          have hj : j ∈ marks down line := ⟨c, by simpa [cell] using hc, hdown⟩
          cases B with
          | nil =>
              have ht : marks down line = t := hB
              rw [ht] at hj
              exact .inl ⟨rfl, hj⟩
          | cons next B =>
              rw [← hB.1] at hj
              rcases hj with ⟨d, hd, hup⟩
              exact .inr ⟨d, by simpa [cell] using hd, hup⟩
      | succ i =>
          have hc' : cell B i j = some c := by simpa [cell] using hc
          rcases ih hB hc' with ⟨hi, hj⟩ | ⟨d, hd, hup⟩
          · exact .inl ⟨by rw [hi, List.length_cons], hj⟩
          · exact .inr ⟨d, by simpa [cell] using hd, hup⟩

end OSLabs.Lib
