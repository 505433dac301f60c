import Mathlib.Data.BitVec
import Mathlib.Data.List.Basic
import Mathlib.Tactic.Abel

/-! # Words in a memory of bytes

Addresses of `w` bits that wrap around, and words of `w` bits, the low byte first. A block of
words is given by its first address; the words that a push puts below a block become its
first ones.
-/

namespace OSLabs.Lib

abbrev ByteMemory (w : Nat) := BitVec w → BitVec 8

namespace ByteMemory

variable {w n i j : Nat} {mem mem' : ByteMemory w} {a b v : BitVec w}

/-- `b` is one of the `n` addresses from `a` on. -/
def Within (a : BitVec w) (n : Nat) (b : BitVec w) : Prop := (b - a).toNat < n

instance (a : BitVec w) (n : Nat) (b : BitVec w) : Decidable (Within a n b) :=
  inferInstanceAs (Decidable (_ < _))

/-- The word with the bits `f`, the low one first. -/
def ofBits (f : Fin w → Bool) : BitVec w := (BitVec.iunfoldr (fun i _ => ((), f i)) ()).2

theorem getLsbD_ofBits (f : Fin w → Bool) (i : Fin w) : (ofBits f).getLsbD i = f i :=
  BitVec.iunfoldr_getLsbD (fun _ => ()) i fun _ => rfl

def load (mem : ByteMemory w) (a : BitVec w) : BitVec w :=
  ofBits fun i => (mem (a + BitVec.ofNat w (i / 8))).getLsbD (i % 8)

def store (mem : ByteMemory w) (a v : BitVec w) : ByteMemory w :=
  fun b => if Within a (w / 8) b then v.extractLsb' (8 * (b - a).toNat) 8 else mem b

/-- The address of word `i` of the block at `a`. -/
def slot (a : BitVec w) (i : Nat) : BitVec w := a + BitVec.ofNat w (w / 8 * i)

def words (mem : ByteMemory w) (a : BitVec w) (n : Nat) : List (BitVec w) :=
  (List.range n).map fun i => load mem (slot a i)

/-! ## Addresses -/

theorem offset_toNat (hi : i < 2 ^ w) : (a + BitVec.ofNat w i - a).toNat = i := by
  rw [BitVec.add_comm, BitVec.add_sub_cancel, BitVec.toNat_ofNat, Nat.mod_eq_of_lt hi]

@[simp] theorem slot_zero (a : BitVec w) : slot a 0 = a := by simp [slot]

theorem slot_add (a : BitVec w) (i j : Nat) : slot (slot a i) j = slot a (i + j) := by
  unfold slot
  rw [Nat.mul_add, BitVec.ofNat_add, BitVec.add_assoc]

theorem Within.of_sub {p k m : Nat} (h : Within (a - BitVec.ofNat w p) n b) (hpk : p ≤ k)
    (hn : n + (k - p) ≤ m) : Within (a - BitVec.ofNat w k) m b := by
  have hk : BitVec.ofNat w k = BitVec.ofNat w p + BitVec.ofNat w (k - p) := by
    rw [← BitVec.ofNat_add, Nat.add_sub_cancel' hpk]
  have hsplit : b - (a - BitVec.ofNat w k) =
      b - (a - BitVec.ofNat w p) + BitVec.ofNat w (k - p) := by
    rw [hk]
    abel
  unfold Within at h ⊢
  rw [hsplit, BitVec.toNat_add, BitVec.toNat_ofNat]
  have hmod := Nat.mod_le (k - p) (2 ^ w)
  have hle := Nat.mod_le ((b - (a - BitVec.ofNat w p)).toNat + (k - p) % 2 ^ w) (2 ^ w)
  omega

theorem sub_toNat_eq (a b : BitVec w) : (b - a).toNat =
    if a.toNat ≤ b.toNat then b.toNat - a.toNat else 2 ^ w - a.toNat + b.toNat := by
  have ha := a.isLt
  have hb := b.isLt
  rw [BitVec.toNat_sub]
  split
  next hle =>
    have hsum : 2 ^ w - a.toNat + b.toNat = b.toNat - a.toNat + 2 ^ w := by omega
    rw [hsum, Nat.add_mod_right, Nat.mod_eq_of_lt (by omega)]
  next hlt => exact Nat.mod_eq_of_lt (by omega)

theorem within_iff (hfit : a.toNat + n ≤ 2 ^ w) :
    Within a n b ↔ a.toNat ≤ b.toNat ∧ b.toNat < a.toNat + n := by
  have hb := b.isLt
  unfold Within
  rw [sub_toNat_eq]
  split <;> omega

theorem slot_toNat (hi : w / 8 * i < 2 ^ w) : (slot a i - a).toNat = w / 8 * i := offset_toNat hi

theorem Within.of_slot (h : Within (slot a i) (w / 8 * n) b) : Within a (w / 8 * (i + n)) b := by
  unfold Within at h ⊢
  have hsplit : b - a = b - slot a i + BitVec.ofNat w (w / 8 * i) := by
    unfold slot
    rw [← BitVec.sub_sub, BitVec.sub_add_cancel]
  have hmod := Nat.mod_le (w / 8 * i) (2 ^ w)
  rw [hsplit, BitVec.toNat_add, BitVec.toNat_ofNat]
  have hle := Nat.mod_le ((b - slot a i).toNat + w / 8 * i % 2 ^ w) (2 ^ w)
  rw [Nat.mul_add]
  omega

/-! ## Loads and stores -/

theorem load_congr (h : ∀ b, Within a (w / 8) b → mem' b = mem b) (hw : 8 ∣ w) :
    load mem' a = load mem a := by
  unfold load
  congr 1
  funext i
  have hlt := i.isLt
  have hpow := Nat.lt_two_pow_self (n := w)
  rw [h]
  unfold Within
  rw [offset_toNat (by omega)]
  omega

theorem load_store (hw : 8 ∣ w) : load (store mem a v) a = v := by
  apply BitVec.eq_of_getLsbD_eq
  intro i hi
  have hpow := Nat.lt_two_pow_self (n := w)
  have hoffset : (a + BitVec.ofNat w (i / 8) - a).toNat = i / 8 := offset_toNat (by omega)
  have hin : Within a (w / 8) (a + BitVec.ofNat w (i / 8)) := by
    unfold Within
    omega
  unfold load store
  rw [getLsbD_ofBits _ ⟨i, hi⟩]
  simp only [if_pos hin, hoffset, BitVec.getLsbD_extractLsb']
  rw [decide_eq_true (by omega), Bool.true_and, Nat.div_add_mod]

/-- Two words have no byte in common. -/
def Apart (a b : BitVec w) : Prop := w / 8 ≤ (b - a).toNat ∧ w / 8 ≤ (a - b).toNat

theorem Apart.not_within (h : Apart a b) {c : BitVec w} (ha : Within a (w / 8) c) :
    ¬Within b (w / 8) c := by
  intro hb
  obtain ⟨hba, hab⟩ := h
  unfold Within at ha hb
  have hc := c.isLt
  rw [sub_toNat_eq] at ha hb hba hab
  split at ha <;> split at hb <;> split at hba <;> split at hab <;> omega

theorem load_store_apart (h : Apart a b) (hw : 8 ∣ w) : load (store mem a v) b = load mem b :=
  load_congr (fun _ hb => if_neg fun ha => h.not_within ha hb) hw

/-! ## Blocks -/

theorem slot_apart (hij : i < j) (hj : j < n) (hfit : w / 8 * n ≤ 2 ^ w) :
    Apart (slot a i) (slot a j) := by
  have hlast : w / 8 * (j + 1) ≤ w / 8 * n := Nat.mul_le_mul_left _ hj
  have hfirst : w / 8 * (i + 1) ≤ w / 8 * j := Nat.mul_le_mul_left _ hij
  have hmul : w / 8 * (j - i) = w / 8 * j - w / 8 * i := Nat.mul_sub _ _ _
  rw [Nat.mul_add, Nat.mul_one] at hlast hfirst
  have hdistance : (slot a j - slot a i).toNat = w / 8 * (j - i) := by
    have hslot : slot a j = slot (slot a i) (j - i) := by
      rw [slot_add, Nat.add_sub_cancel' (Nat.le_of_lt hij)]
    rw [hslot]
    by_cases hzero : w / 8 = 0
    · simp [slot, hzero]
    · exact slot_toNat (by omega)
  constructor
  · omega
  · have hback := sub_toNat_eq (slot a j) (slot a i)
    rw [sub_toNat_eq] at hdistance
    have hi := (slot a i).isLt
    have hj' := (slot a j).isLt
    split at hdistance <;> split at hback <;> omega

theorem Apart.symm (h : Apart a b) : Apart b a := ⟨h.2, h.1⟩

theorem slot_apart_of_ne (hij : i ≠ j) (hi : i < n) (hj : j < n) (hfit : w / 8 * n ≤ 2 ^ w) :
    Apart (slot a i) (slot a j) := by
  rcases Nat.lt_or_gt_of_ne hij with hlt | hgt
  · exact slot_apart hlt hj hfit
  · exact (slot_apart hgt hi hfit).symm

@[simp] theorem length_words (mem : ByteMemory w) (a : BitVec w) (n : Nat) :
    (words mem a n).length = n := by simp [words]

theorem getElem?_words (hi : i < n) : (words mem a n)[i]? = some (load mem (slot a i)) := by
  simp [words, hi]

theorem words_succ (mem : ByteMemory w) (a : BitVec w) (n : Nat) :
    words mem a (n + 1) = load mem a :: words mem (slot a 1) n := by
  unfold words
  rw [List.range_succ_eq_map, List.map_cons, List.map_map, slot_zero]
  congr 1
  apply List.map_congr_left
  intro i _
  rw [slot_add, Nat.add_comm 1]
  rfl

theorem words_add (mem : ByteMemory w) (a : BitVec w) (i n : Nat) :
    words mem a (i + n) = words mem a i ++ words mem (slot a i) n := by
  unfold words
  rw [List.range_add, List.map_append, List.map_map]
  congr 1
  apply List.map_congr_left
  intro j _
  rw [slot_add]
  rfl

theorem words_congr (h : ∀ b, Within a (w / 8 * n) b → mem' b = mem b) (hw : 8 ∣ w) :
    words mem' a n = words mem a n := by
  apply List.map_congr_left
  intro i hi
  apply load_congr _ hw
  intro b hb
  rw [List.mem_range] at hi
  have hwide : w / 8 * (i + 1) ≤ w / 8 * n := Nat.mul_le_mul_left _ hi
  rw [← Nat.mul_one (w / 8)] at hb
  exact h b (Nat.lt_of_lt_of_le hb.of_slot hwide)

/-- A store to a word of a block changes that word only. -/
theorem words_store (hi : i < n) (hfit : w / 8 * n ≤ 2 ^ w) (hw : 8 ∣ w) :
    words (store mem (slot a i) v) a n = (words mem a n).set i v := by
  apply List.ext_getElem?
  intro j
  rw [List.getElem?_set, length_words]
  by_cases hj : j < n
  · rw [getElem?_words hj, getElem?_words hj]
    by_cases hij : i = j
    · rw [if_pos hij, if_pos hi, hij, load_store hw]
    · rw [if_neg hij, load_store_apart (slot_apart_of_ne hij hi hj hfit) hw]
  · rw [List.getElem?_eq_none (by simpa using hj), List.getElem?_eq_none (by simpa using hj)]
    by_cases hij : i = j
    · omega
    · rw [if_neg hij]

/-- A store below a block puts a word before the others. -/
theorem words_push (hslot : slot b 1 = a) (hfit : w / 8 * (n + 1) ≤ 2 ^ w) (hw : 8 ∣ w) :
    words (store mem b v) b (n + 1) = v :: words mem a n := by
  have hstore : words (store mem (slot b 0) v) b (n + 1) = _ :=
    words_store (Nat.succ_pos n) hfit hw
  rw [slot_zero] at hstore
  rw [hstore, words_succ, hslot]
  rfl

theorem store_frame (hi : i < n) (hb : ¬Within a (w / 8 * n) b) :
    store mem (slot a i) v b = mem b := by
  refine if_neg fun hin => hb ?_
  rw [← Nat.mul_one (w / 8)] at hin
  have hle : w / 8 * (i + 1) ≤ w / 8 * n := Nat.mul_le_mul_left _ hi
  exact Nat.lt_of_lt_of_le hin.of_slot hle

theorem load_of_words {l : List (BitVec w)} (h : words mem a n = l) (hi : i < n) :
    l[i]? = some (load mem (slot a i)) := by rw [← h, getElem?_words hi]

theorem words_zero (h : ∀ b, Within a (w / 8 * n) b → mem b = 0) (hw : 8 ∣ w) :
    words mem a n = List.replicate n 0 := by
  have hzero : ∀ c : BitVec w, load (fun _ => 0) c = 0 := by
    intro c
    apply BitVec.eq_of_getLsbD_eq
    intro i hi
    rw [load, getLsbD_ofBits _ ⟨i, hi⟩]
    simp
  have hwords : words mem a n = words (fun _ => 0) a n := words_congr h hw
  rw [hwords, words, List.map_congr_left fun i _ => hzero (slot a i), List.map_const',
    List.length_range]

/-! ## Copies -/

/-- The memory after `n` words have been copied from `src` to `dst`, the last one first. -/
def copyDown (dst src : BitVec w) : Nat → ByteMemory w → ByteMemory w
  | 0, mem => mem
  | n + 1, mem => copyDown dst src n (store mem (slot dst n) (load mem (slot src n)))

variable {dst src : BitVec w}

theorem copyDown_frame {k : Nat} (hk : k ≤ n) (hb : ¬Within dst (w / 8 * n) b) :
    copyDown dst src k mem b = mem b := by
  induction k generalizing mem with
  | zero => rfl
  | succ k ih => rw [copyDown, ih (by omega), store_frame hk hb]

/-- The words may overlap if the copy does not start below its source. -/
theorem apart_of_distance (hij : i < j) (hj : j < n)
    (hdistance : (src - dst).toNat = 0 ∨ w / 8 * n ≤ (src - dst).toNat)
    (hfit : w / 8 * n ≤ 2 ^ w) : Apart (slot dst j) (slot src i) := by
  have hlast : w / 8 * (j - i + 1) ≤ w / 8 * n := Nat.mul_le_mul_left _ (by omega)
  have hfirst : w / 8 * 1 ≤ w / 8 * (j - i) := Nat.mul_le_mul_left _ (by omega)
  rw [Nat.mul_add] at hlast
  rw [Nat.mul_one] at hlast hfirst
  have hj : slot dst j = slot dst i + BitVec.ofNat w (w / 8 * (j - i)) := by
    have hslot := slot_add dst i (j - i)
    rw [Nat.add_sub_cancel' (Nat.le_of_lt hij)] at hslot
    exact hslot.symm
  have hforth : slot src i - slot dst j = src - dst - BitVec.ofNat w (w / 8 * (j - i)) := by
    rw [hj]
    unfold slot
    abel
  have hback : slot dst j - slot src i = BitVec.ofNat w (w / 8 * (j - i)) - (src - dst) := by
    rw [hj]
    unfold slot
    abel
  have hlt := (src - dst).isLt
  by_cases hzero : w / 8 = 0
  · rw [Apart, hzero]
    exact ⟨Nat.zero_le _, Nat.zero_le _⟩
  · have hstep : (BitVec.ofNat w (w / 8 * (j - i))).toNat = w / 8 * (j - i) :=
      Nat.mod_eq_of_lt (by omega)
    unfold Apart
    rw [hforth, hback, sub_toNat_eq, sub_toNat_eq (src - dst), hstep]
    constructor
    · split <;> omega
    · split <;> omega

theorem words_copyDown (hdistance : (src - dst).toNat = 0 ∨ w / 8 * n ≤ (src - dst).toNat)
    (hfit : w / 8 * n ≤ 2 ^ w) (hw : 8 ∣ w) {k : Nat} (hk : k ≤ n) :
    words (copyDown dst src k mem) dst k = words mem src k := by
  induction k generalizing mem with
  | zero => rfl
  | succ k ih =>
      have hle : w / 8 * (k + 1) ≤ w / 8 * n := Nat.mul_le_mul_left _ hk
      have hlast : load (copyDown dst src k (store mem (slot dst k) (load mem (slot src k))))
          (slot dst k) = load mem (slot src k) := by
        have hkept : load (copyDown dst src k (store mem (slot dst k) (load mem (slot src k))))
            (slot dst k) = load (store mem (slot dst k) (load mem (slot src k))) (slot dst k) := by
          apply load_congr _ hw
          intro b hb
          apply copyDown_frame (Nat.le_refl k)
          intro hin
          unfold Within at hb hin
          have hslot : b - dst = b - slot dst k + BitVec.ofNat w (w / 8 * k) := by
            unfold slot
            abel
          have hlt := (b - slot dst k).isLt
          rw [Nat.mul_add, Nat.mul_one] at hle
          rw [hslot, BitVec.toNat_add, BitVec.toNat_ofNat, Nat.mod_eq_of_lt (a := w / 8 * k)
            (by omega), Nat.mod_eq_of_lt (by omega)] at hin
          omega
        rw [hkept, load_store hw]
      have hrest : words (store mem (slot dst k) (load mem (slot src k))) src k =
          words mem src k := by
        apply List.map_congr_left
        intro i hi
        rw [List.mem_range] at hi
        exact load_store_apart (apart_of_distance hi (by omega) hdistance hfit) hw
      rw [copyDown, words_add, words_add, ih (by omega), hrest]
      simp only [words, List.range_one, List.map_cons, List.map_nil, slot_zero, hlast]

/-! ## Stacks -/

/-- The words `vs` have been put below `top`, the last of them first, and now start at `sp`.
Beyond them the memory is as it was. -/
structure Pushed (mem : ByteMemory w) (top : BitVec w) (mem' : ByteMemory w) (sp : BitVec w)
    (vs : List (BitVec w)) : Prop where
  words_eq : words mem' sp vs.length = vs
  top_eq : slot sp vs.length = top
  frame : ∀ b, ¬Within sp (w / 8 * vs.length) b → mem' b = mem b

variable {top sp : BitVec w} {vs : List (BitVec w)}

theorem Pushed.nil (mem : ByteMemory w) (top : BitVec w) : Pushed mem top mem top [] where
  words_eq := rfl
  top_eq := slot_zero top
  frame := fun _ _ => rfl

theorem slot_sub (a : BitVec w) (n : Nat) : slot (a - BitVec.ofNat w (w / 8 * n)) n = a :=
  BitVec.sub_add_cancel _ _

/-- Words that are left as they are. -/
theorem Pushed.skip (pushed : Pushed mem top mem' sp vs) (n : Nat) :
    Pushed mem top mem' (sp - BitVec.ofNat w (w / 8 * n))
      (words mem' (sp - BitVec.ofNat w (w / 8 * n)) n ++ vs) where
  words_eq := by
    rw [List.length_append, length_words, words_add, slot_sub, pushed.words_eq]
  top_eq := by
    rw [List.length_append, length_words, ← slot_add, slot_sub, pushed.top_eq]
  frame := by
    intro b hb
    apply pushed.frame
    intro hin
    rw [List.length_append, length_words] at hb
    rw [← slot_sub sp n] at hin
    exact hb hin.of_slot

theorem Pushed.push (pushed : Pushed mem top mem' sp vs)
    (hfit : w / 8 * (vs.length + 1) ≤ 2 ^ w) (hw : 8 ∣ w) (v : BitVec w) :
    Pushed mem top (store mem' (sp - BitVec.ofNat w (w / 8)) v) (sp - BitVec.ofNat w (w / 8))
      (v :: vs) := by
  have hslot := slot_sub sp 1
  rw [Nat.mul_one] at hslot
  constructor
  · rw [List.length_cons, words_push hslot hfit hw, pushed.words_eq]
  · rw [List.length_cons, Nat.add_comm, ← slot_add, hslot, pushed.top_eq]
  · intro b hb
    rw [List.length_cons] at hb
    have hnot : ¬Within (sp - BitVec.ofNat w (w / 8)) (w / 8) b := by
      intro hin
      have hle : w / 8 * 1 ≤ w / 8 * (vs.length + 1) := Nat.mul_le_mul_left _ (by omega)
      rw [Nat.mul_one] at hle
      exact hb (Nat.lt_of_lt_of_le hin hle)
    rw [store, if_neg hnot]
    apply pushed.frame
    intro hin
    rw [← hslot] at hin
    rw [Nat.add_comm] at hb
    exact hb hin.of_slot

end ByteMemory

end OSLabs.Lib
