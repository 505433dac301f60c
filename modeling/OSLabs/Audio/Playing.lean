import Mathlib.Data.List.Basic
import OSLabs.Audio.Model
import OSLabs.Lib.Run

/-! # Regular runs play in order

Every submitted byte is in exactly one place: played, held by the callback, in the pipe,
or still to be sent. `count` lags behind the pipe by what the writer has not added yet and
runs ahead of it by what the callback has not subtracted.
-/

namespace OSLabs.Audio

open Lib (Run anyStep replay exists_run_of_replay)

/-! ## Where the bytes are -/

def unsent : Writer → List UInt8
  | .idle => []
  | .writing buf nwrite => buf.drop nwrite
  | .wrote buf nwrite n => buf.drop (nwrite + n)
  | .adding buf nwrite n _ => buf.drop (nwrite + n)

/-- How many bytes are in the pipe before they are counted. -/
def uncounted : Writer → Nat
  | .wrote _ _ n => n
  | .adding _ _ n _ => n
  | _ => 0

/-- The bytes that a callback has read and not returned yet. -/
def held : Reader → List UInt8
  | .reading stream _ _ b => sound stream b
  | .subtract stream _ nread => sound stream nread.toNat
  | .storing stream _ nread _ => sound stream nread.toNat
  | .fill stream _ nread => sound stream nread.toNat
  | _ => []

/-- How many bytes that have left the pipe are still counted. -/
def overcounted : Reader → Int
  | .reading _ _ _ b => b
  | .subtract _ _ nread => nread
  | .storing _ _ nread _ => nread
  | _ => 0

def WriterOk : Writer → Prop
  | .idle => True
  | .writing buf nwrite => nwrite < buf.length
  | .wrote buf nwrite n => nwrite + n ≤ buf.length
  | .adding buf nwrite n _ => nwrite + n ≤ buf.length

/-- What a callback asks for fits its stream and is counted. -/
def ReaderOk (count : Int) : Reader → Prop
  | .reading _ len nread b => b < nread ∧ nread ≤ len ∧ nread ≤ count
  | .subtract _ len nread => 0 ≤ nread ∧ nread ≤ len ∧ nread ≤ count
  | .storing _ len nread _ => 0 ≤ nread ∧ nread ≤ len ∧ nread ≤ count
  | .fill _ len nread => 0 ≤ nread ∧ nread ≤ len
  | _ => True

theorem ReaderOk.mono {count count' : Int} {r : Reader} (h : ReaderOk count r)
    (hle : count ≤ count') : ReaderOk count' r := by
  cases r with
  | idle => trivial
  | compare stream len => trivial
  | assign stream len => trivial
  | reading stream len nread b => exact ⟨h.1, h.2.1, Int.le_trans h.2.2 hle⟩
  | subtract stream len nread => exact ⟨h.1, h.2.1, Int.le_trans h.2.2 hle⟩
  | storing stream len nread loaded => exact ⟨h.1, h.2.1, Int.le_trans h.2.2 hle⟩
  | fill stream len nread => exact h

/-! ## The loops -/

theorem unsent_writeLoop (buf : List UInt8) (nwrite : Nat) :
    unsent (writeLoop buf nwrite) = buf.drop nwrite := by
  unfold writeLoop
  split
  case isTrue => rfl
  case isFalse h => exact (List.drop_eq_nil_of_le (Nat.le_of_not_lt h)).symm

theorem uncounted_writeLoop (buf : List UInt8) (nwrite : Nat) :
    uncounted (writeLoop buf nwrite) = 0 := by
  unfold writeLoop
  split
  · rfl
  · rfl

theorem writerOk_writeLoop (buf : List UInt8) (nwrite : Nat) :
    WriterOk (writeLoop buf nwrite) := by
  unfold writeLoop
  split
  case isTrue h => exact h
  case isFalse => trivial

theorem readLoop_spec (stream : Nat → UInt8) (len b : Nat) (nread count : Int)
    (hb : b ≤ nread) (hlen : nread ≤ len) (hcount : nread ≤ count) :
    held (readLoop stream len nread b) = sound stream b ∧
      overcounted (readLoop stream len nread b) = b ∧
      ReaderOk count (readLoop stream len nread b) := by
  unfold readLoop
  split
  case isTrue h => exact ⟨rfl, rfl, h, hlen, hcount⟩
  case isFalse h =>
    have hdone : nread = b := by omega
    subst hdone
    exact ⟨rfl, rfl, by omega, hlen, hcount⟩

theorem sound_zero (stream : Nat → UInt8) : sound stream 0 = [] :=
  rfl

/-- The first transfer of a callback puts the head of the pipe into the stream. -/
theorem sound_read {pipe : List UInt8} {n : Nat} (stream : Nat → UInt8) (h : n ≤ pipe.length) :
    sound (fun i => if i < n then pipe.getD i 0 else stream i) n = pipe.take n := by
  apply List.ext_getElem
  · simp [sound, h]
  · intro i hi _
    have hin : i < n := by simpa [sound] using hi
    simp [sound, hin, List.getElem?_eq_getElem (Nat.lt_of_lt_of_le hin h)]

/-! ## Logs -/

theorem submitted_append (log es : List Event) :
    submitted (log ++ es) = submitted log ++ submitted es := by
  induction log with
  | nil => rfl
  | cons e log ih =>
      cases e with
      | submitted buf =>
          show buf ++ submitted (log ++ es) = buf ++ submitted log ++ submitted es
          rw [ih, List.append_assoc]
      | stored len offset size => exact ih
      | returned s => exact ih

theorem played_append (log es : List Event) :
    played (log ++ es) = played log ++ played es := by
  induction log with
  | nil => rfl
  | cons e log ih =>
      cases e with
      | submitted buf => exact ih
      | stored len offset size => exact ih
      | returned s =>
          show s ++ played (log ++ es) = s ++ played log ++ played es
          rw [ih, List.append_assoc]

/-! ## The invariant -/

structure Flow (log : List Event) (s : Device) : Prop where
  bytes : submitted log = played log ++ (held s.reader ++ (s.pipe ++ unsent s.writer))
  count : s.count = s.pipe.length + overcounted s.reader - uncounted s.writer
  nonneg : 0 ≤ s.count
  writer : WriterOk s.writer
  reader : ReaderOk s.count s.reader
  inside : ∀ (len : Nat) (offset : Int) (size : Nat), .stored len offset size ∈ log →
    0 ≤ offset ∧ offset + size ≤ len

theorem Flow.inOrder {log : List Event} {s : Device} (h : Flow log s) : InOrder log s where
  inOrder := by
    rw [h.bytes]
    exact List.prefix_append _ _
  inside := h.inside
  counted := by
    intro hw hr
    have hcount := h.count
    rw [hw, hr] at hcount
    simpa [overcounted, uncounted] using hcount

theorem flow_init : Flow [] .init where
  bytes := rfl
  count := rfl
  nonneg := Int.le_refl _
  writer := trivial
  reader := trivial
  inside := by
    intro len offset size h
    cases h

variable {capacity n len : Nat} {log es : List Event} {s s' : Device} {buf : List UInt8}
  {stream : Nat → UInt8}

/-- A step without events that concern the streams keeps the stores inside. -/
theorem Flow.inside_silent (h : Flow log s) (hes : ∀ len offset size, .stored len offset size ∉ es) :
    ∀ (len : Nat) (offset : Int) (size : Nat), .stored len offset size ∈ log ++ es →
      0 ≤ offset ∧ offset + size ≤ len := by
  intro len offset size hmem
  rcases List.mem_append.1 hmem with hmem | hmem
  · exact h.inside len offset size hmem
  · exact absurd hmem (hes len offset size)

theorem flow_play (h : Flow log s) (hstep : step capacity (.play buf) s = some (es, s')) :
    Flow (log ++ es) s' := by
  simp only [step] at hstep
  split at hstep
  case h_2 => cases hstep
  case h_1 hw =>
    cases hstep
    have hbytes := h.bytes
    have hcount := h.count
    rw [hw] at hbytes hcount
    constructor
    · rw [submitted_append, played_append, hbytes, unsent_writeLoop]
      simp [submitted, played, unsent]
    · rw [uncounted_writeLoop]
      exact hcount
    · exact h.nonneg
    · exact writerOk_writeLoop buf 0
    · exact h.reader
    · exact h.inside_silent (by simp)

theorem flow_write (h : Flow log s) (hreg : regular s (.write n) = true)
    (hstep : step capacity (.write n) s = some (es, s')) :
    Flow (log ++ es) s' := by
  simp only [step] at hstep
  split at hstep
  case h_2 => cases hstep
  case h_1 buf nwrite hw =>
    split at hstep
    case isFalse => cases hstep
    case isTrue hroom =>
      cases hstep
      have hbytes := h.bytes
      have hcount := h.count
      have hok := h.writer
      rw [hw] at hbytes hcount hok
      have hfirst : nwrite = 0 ∨ n = 0 := by simpa [regular, hw] using hreg
      -- What is sent is the head of what was unsent.
      have hsent : buf.take n ++ buf.drop (nwrite + n) = buf.drop nwrite := by
        rcases hfirst with rfl | rfl
        · rw [Nat.zero_add]
          exact List.take_append_drop n buf
        · rfl
      rw [List.append_nil]
      constructor
      · rw [hbytes]
        show _ = played log ++ (held s.reader ++ ((s.pipe ++ buf.take n) ++
          buf.drop (nwrite + n)))
        rw [List.append_assoc s.pipe, hsent]
        rfl
      · show s.count = ((s.pipe ++ buf.take n).length : Nat) + overcounted s.reader - n
        rw [List.length_append, List.length_take, Nat.min_eq_left hroom.1]
        simp only [uncounted] at hcount
        omega
      · exact h.nonneg
      · show nwrite + n ≤ buf.length
        have hlt : nwrite < buf.length := hok
        omega
      · exact h.reader
      · exact h.inside

theorem flow_loadWriter (h : Flow log s)
    (hstep : step capacity .loadWriter s = some (es, s')) :
    Flow (log ++ es) s' := by
  simp only [step] at hstep
  split at hstep
  case h_2 => cases hstep
  case h_1 buf nwrite n hw =>
    cases hstep
    have hbytes := h.bytes
    have hcount := h.count
    have hok := h.writer
    rw [hw] at hbytes hcount hok
    rw [List.append_nil]
    exact ⟨hbytes, hcount, h.nonneg, hok, h.reader, h.inside⟩

theorem flow_storeWriter (h : Flow log s) (hreg : regular s .storeWriter = true)
    (hstep : step capacity .storeWriter s = some (es, s')) :
    Flow (log ++ es) s' := by
  simp only [step] at hstep
  split at hstep
  case h_2 => cases hstep
  case h_1 buf nwrite n loaded hw =>
    cases hstep
    have hbytes := h.bytes
    have hcount := h.count
    have hnonneg := h.nonneg
    rw [hw] at hbytes hcount
    have hloaded : s.count = loaded := by simpa [regular, hw] using hreg
    rw [List.append_nil]
    constructor
    · rw [hbytes, unsent_writeLoop]
      rfl
    · rw [uncounted_writeLoop]
      simp only [uncounted] at hcount
      show loaded + n = s.pipe.length + overcounted s.reader - (0 : Nat)
      omega
    · show 0 ≤ loaded + n
      omega
    · exact writerOk_writeLoop buf (nwrite + n)
    · apply h.reader.mono
      show s.count ≤ loaded + n
      omega
    · exact h.inside

theorem flow_callback (h : Flow log s)
    (hstep : step capacity (.callback stream len) s = some (es, s')) :
    Flow (log ++ es) s' := by
  simp only [step] at hstep
  split at hstep
  case h_2 => cases hstep
  case h_1 hr =>
    cases hstep
    have hbytes := h.bytes
    have hcount := h.count
    rw [hr] at hbytes hcount
    rw [List.append_nil]
    exact ⟨hbytes, hcount, h.nonneg, h.writer, trivial, h.inside⟩

/-- The callback asks for `nread` bytes that are there. -/
theorem Flow.startReading (h : Flow log s) (hheld : held s.reader = [])
    (hover : overcounted s.reader = 0) {nread : Int} (hnonneg : 0 ≤ nread)
    (hlen : nread ≤ len) (hcount : nread ≤ s.count) :
    Flow log { s with reader := readLoop stream len nread 0 } := by
  rcases readLoop_spec stream len 0 nread s.count hnonneg hlen hcount with ⟨hheld', hover', hok⟩
  constructor
  · rw [hheld', sound_zero, h.bytes, hheld]
  · rw [hover', h.count, hover]
    rfl
  · exact h.nonneg
  · exact h.writer
  · exact hok
  · exact h.inside

theorem flow_compare (h : Flow log s) (hstep : step capacity .compare s = some (es, s')) :
    Flow (log ++ es) s' := by
  simp only [step] at hstep
  split at hstep
  case h_2 => cases hstep
  case h_1 stream len hr =>
    split at hstep
    case isTrue =>
      have hbytes := h.bytes
      have hcount := h.count
      rw [hr] at hbytes hcount
      cases hstep
      rw [List.append_nil]
      exact ⟨hbytes, hcount, h.nonneg, h.writer, trivial, h.inside⟩
    case isFalse henough =>
      cases hstep
      rw [List.append_nil]
      exact h.startReading (by rw [hr]; rfl) (by rw [hr]; rfl) (Int.natCast_nonneg len)
        (Int.le_refl _) (Int.not_lt.1 henough)

theorem flow_assign (h : Flow log s) (hreg : regular s .assign = true)
    (hstep : step capacity .assign s = some (es, s')) :
    Flow (log ++ es) s' := by
  simp only [step] at hstep
  split at hstep
  case h_2 => cases hstep
  case h_1 stream len hr =>
    cases hstep
    have hfits : s.count ≤ len := by simpa [regular, hr] using hreg
    rw [List.append_nil]
    exact h.startReading (by rw [hr]; rfl) (by rw [hr]; rfl) h.nonneg hfits (Int.le_refl _)

theorem flow_read (h : Flow log s) (hreg : regular s (.read n) = true)
    (hstep : step capacity (.read n) s = some (es, s')) :
    Flow (log ++ es) s' := by
  simp only [step] at hstep
  split at hstep
  case h_2 => cases hstep
  case h_1 stream len nread b hr =>
    split at hstep
    case isFalse => cases hstep
    case isTrue hn =>
      cases hstep
      have hbytes := h.bytes
      have hcount := h.count
      have hok := h.reader
      rw [hr] at hbytes hcount hok
      have hfirst : b = 0 ∨ n = 0 := by simpa [regular, hr] using hreg
      rcases hok with ⟨hb, hlen, hasked⟩
      -- What the callback holds grows by the head of the pipe.
      have hmoved : sound (fun i => if i < n then s.pipe.getD i 0 else stream i) (b + n) =
          sound stream b ++ s.pipe.take n := by
        rcases hfirst with rfl | rfl
        · rw [Nat.zero_add, sound_read stream hn.2, sound_zero, List.nil_append]
        · simp [sound]
      rcases readLoop_spec (fun i => if i < n then s.pipe.getD i 0 else stream i) len (b + n)
        nread s.count (by omega) hlen hasked with ⟨hheld, hover, hok⟩
      constructor
      · rw [hheld, hmoved, submitted_append, played_append, hbytes]
        show (played log ++ (sound stream b ++ (s.pipe ++ unsent s.writer))) ++ [] =
          played log ++ [] ++ ((sound stream b ++ s.pipe.take n) ++
            (s.pipe.drop n ++ unsent s.writer))
        rw [List.append_nil, List.append_nil, List.append_assoc (sound stream b),
          ← List.append_assoc (s.pipe.take n), List.take_append_drop]
      · rw [hover]
        show s.count = ((s.pipe.drop n).length : Nat) + ((b + n : Nat) : Int) - uncounted s.writer
        rw [List.length_drop]
        simp only [overcounted] at hcount
        omega
      · exact h.nonneg
      · exact h.writer
      · exact hok
      · intro len' offset size hmem
        rcases List.mem_append.1 hmem with hmem | hmem
        · exact h.inside len' offset size hmem
        · cases List.mem_singleton.1 hmem
          omega

theorem flow_loadReader (h : Flow log s)
    (hstep : step capacity .loadReader s = some (es, s')) :
    Flow (log ++ es) s' := by
  simp only [step] at hstep
  split at hstep
  case h_2 => cases hstep
  case h_1 stream len nread hr =>
    cases hstep
    have hbytes := h.bytes
    have hcount := h.count
    have hok := h.reader
    rw [hr] at hbytes hcount hok
    rw [List.append_nil]
    exact ⟨hbytes, hcount, h.nonneg, h.writer, hok, h.inside⟩

theorem flow_storeReader (h : Flow log s) (hreg : regular s .storeReader = true)
    (hstep : step capacity .storeReader s = some (es, s')) :
    Flow (log ++ es) s' := by
  simp only [step] at hstep
  split at hstep
  case h_2 => cases hstep
  case h_1 stream len nread loaded hr =>
    cases hstep
    have hbytes := h.bytes
    have hcount := h.count
    have hok := h.reader
    rw [hr] at hbytes hcount hok
    have hloaded : s.count = loaded := by simpa [regular, hr] using hreg
    rcases hok with ⟨hnonneg, hlen, hasked⟩
    rw [List.append_nil]
    constructor
    · exact hbytes
    · simp only [overcounted] at hcount
      show loaded - nread = s.pipe.length + 0 - uncounted s.writer
      omega
    · show 0 ≤ loaded - nread
      omega
    · exact h.writer
    · exact ⟨hnonneg, hlen⟩
    · exact h.inside

theorem flow_finish (h : Flow log s) (hstep : step capacity .finish s = some (es, s')) :
    Flow (log ++ es) s' := by
  simp only [step] at hstep
  split at hstep
  case h_2 => cases hstep
  case h_1 stream len nread hr =>
    cases hstep
    have hbytes := h.bytes
    have hcount := h.count
    have hok := h.reader
    rw [hr] at hbytes hcount hok
    rcases hok with ⟨hnonneg, hlen⟩
    constructor
    · rw [submitted_append, played_append, hbytes]
      split
      · simp [submitted, played, held]
      · simp [submitted, played, held]
    · exact hcount
    · exact h.nonneg
    · exact h.writer
    · trivial
    · intro len' offset size hmem
      rcases List.mem_append.1 hmem with hmem | hmem
      · exact h.inside len' offset size hmem
      · rcases List.mem_append.1 hmem with hmem | hmem
        · split at hmem
          · cases List.mem_singleton.1 hmem
            omega
          · cases hmem
        · cases List.mem_singleton.1 hmem

theorem flow_step {a : Act} (h : Flow log s) (hreg : regular s a = true)
    (hstep : step capacity a s = some (es, s')) :
    Flow (log ++ es) s' := by
  cases a with
  | play buf => exact flow_play h hstep
  | write n => exact flow_write h hreg hstep
  | loadWriter => exact flow_loadWriter h hstep
  | storeWriter => exact flow_storeWriter h hreg hstep
  | callback stream len => exact flow_callback h hstep
  | compare => exact flow_compare h hstep
  | assign => exact flow_assign h hreg hstep
  | read n => exact flow_read h hreg hstep
  | loadReader => exact flow_loadReader h hstep
  | storeReader => exact flow_storeReader h hreg hstep
  | finish => exact flow_finish h hstep

theorem flow_run (run : Run anyStep (RegularStep capacity) .init log s) : Flow log s := by
  refine run.invariant Flow flow_init ?_
  rintro log es s s' _ _ h ⟨a, hreg, hstep⟩
  exact flow_step h hreg hstep

/-! ## Playing -/

/-- In a run of regular steps the sound is played in order. -/
theorem regular_run_inOrder (run : Run anyStep (RegularStep capacity) .init log s) :
    InOrder log s :=
  (flow_run run).inOrder

/-- The steps that the given labels name, as far as they are regular. -/
def nextRegular (capacity : Nat) (a : Act) (s : Device) : Option (List Event × Device) :=
  if regular s a then step capacity a s else none

theorem regularStep_of_next {a : Act} (h : nextRegular capacity a s = some (es, s')) :
    RegularStep capacity s es s' := by
  unfold nextRegular at h
  split at h
  case isTrue hreg => exact ⟨a, hreg, h⟩
  case isFalse => cases h

theorem regular_run_inOrder_padded :
    ∃ log s, Run anyStep (RegularStep 4096) .init log s ∧ played log = [1, 2] ∧
      InOrder log s := by
  have hrun := exists_run_of_replay anyStep (RegularStep 4096) .init (fun _ _ => true)
    (fun _ _ _ => trivial)
    (fun a s es s' (h : nextRegular 4096 a s = some (es, s')) => regularStep_of_next h)
    [.play [1, 2], .write 2, .loadWriter, .storeWriter, .callback (fun _ => 0) 3, .compare,
      .assign, .read 2, .loadReader, .storeReader, .finish]
    (fun log _ => decide (played log = [1, 2])) (by decide)
  rcases hrun with ⟨log, s, run, hlog⟩
  exact ⟨log, s, run, by simpa using hlog, regular_run_inOrder run⟩

/-- After a short write the buffer is sent from its beginning again. -/
theorem short_write_repeats :
    ¬ ∀ log s, Run anyStep (Step 4096) .init log s → InOrder log s := by
  intro hall
  have hrun := exists_run_of_replay anyStep (Step 4096) .init (fun _ _ => true)
    (fun _ _ _ => trivial)
    (fun a s es s' (h : step 4096 a s = some (es, s')) => ⟨a, h⟩)
    [.play [1, 2, 3, 4], .write 2, .loadWriter, .storeWriter, .write 2, .loadWriter,
      .storeWriter, .callback (fun _ => 0) 4, .compare, .read 4, .loadReader, .storeReader,
      .finish]
    (fun log _ => decide (played log = [1, 2, 1, 2]) && decide (submitted log = [1, 2, 3, 4]))
    (by decide)
  rcases hrun with ⟨log, s, run, hlog⟩
  rw [Bool.and_eq_true, decide_eq_true_eq, decide_eq_true_eq] at hlog
  have hordered := (hall log s run).inOrder
  rw [hlog.1, hlog.2] at hordered
  exact absurd hordered (by decide)

end OSLabs.Audio
