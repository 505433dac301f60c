/-! # The audio device of the native machine

The program writes sound into a pipe and the host's audio thread reads it out in
callbacks. The two sides share the variable `count`. A step is one call of `write` or
`read`, or one access to `count`: the compiler may not merge the accesses of a `volatile`
variable, and either side can run between two of them. The length of a buffer is an `int`
in the source; buffers of `2 ^ 31` bytes and more are not meant here.
-/

namespace OSLabs.Audio

/-- Where `audio_write` is. `writing` is the head of its loop, `wrote` is behind a `write`
that returned `n`, and `adding` has loaded `count` for `count += n`. -/
inductive Writer where
  | idle
  | writing (buf : List UInt8) (nwrite : Nat)
  | wrote (buf : List UInt8) (nwrite n : Nat)
  | adding (buf : List UInt8) (nwrite n : Nat) (loaded : Int)
  deriving DecidableEq, Repr

/-- Where the callback `audio_play` is. `compare` is in front of the test `count < len`,
`assign` in front of `nread = count`, `reading` is the head of the loop, `subtract` and
`storing` are the two accesses of `count -= nread`, and `fill` is in front of `memset`.
`stream` is the memory that the argument points to. -/
inductive Reader where
  | idle
  | compare (stream : Nat → UInt8) (len : Nat)
  | assign (stream : Nat → UInt8) (len : Nat)
  | reading (stream : Nat → UInt8) (len : Nat) (nread : Int) (b : Nat)
  | subtract (stream : Nat → UInt8) (len : Nat) (nread : Int)
  | storing (stream : Nat → UInt8) (len : Nat) (nread loaded : Int)
  | fill (stream : Nat → UInt8) (len : Nat) (nread : Int)

structure Device where
  pipe : List UInt8
  count : Int
  writer : Writer
  reader : Reader

def Device.init : Device := { pipe := [], count := 0, writer := .idle, reader := .idle }

/-- What can be seen of a step: a buffer is submitted, a callback stores `size` bytes from
`offset` on into its stream of `len` bytes, or it returns with `nread` bytes of sound. -/
inductive Event where
  | submitted (buf : List UInt8)
  | stored (len : Nat) (offset : Int) (size : Nat)
  | returned (sound : List UInt8)
  deriving DecidableEq, Repr

def writeLoop (buf : List UInt8) (nwrite : Nat) : Writer :=
  if nwrite < buf.length then .writing buf nwrite else .idle

def readLoop (stream : Nat → UInt8) (len : Nat) (nread : Int) (b : Nat) : Reader :=
  if b < nread then .reading stream len nread b else .subtract stream len nread

/-- The bytes of a stream in front of its padding. -/
def sound (stream : Nat → UInt8) (n : Nat) : List UInt8 := (List.range n).map stream

/-- The steps of both sides. `write` and `read` are labelled with the number of bytes that
the pipe transfers, which is zero when the call returns `-1`. -/
inductive Act where
  | play (buf : List UInt8)
  | write (n : Nat)
  | loadWriter
  | storeWriter
  | callback (stream : Nat → UInt8) (len : Nat)
  | compare
  | assign
  | read (n : Nat)
  | loadReader
  | storeReader
  | finish

/-- `capacity` is the size of the pipe. -/
def step (capacity : Nat) (a : Act) (s : Device) : Option (List Event × Device) :=
  match a with
  | .play buf =>
    match s.writer with
    | .idle => some ([.submitted buf], { s with writer := writeLoop buf 0 })
    | _ => none
  | .write n =>
    match s.writer with
    | .writing buf nwrite =>
      if n ≤ buf.length ∧ s.pipe.length + n ≤ capacity then
        some ([], { s with pipe := s.pipe ++ buf.take n, writer := .wrote buf nwrite n })
      else none
    | _ => none
  | .loadWriter =>
    match s.writer with
    | .wrote buf nwrite n => some ([], { s with writer := .adding buf nwrite n s.count })
    | _ => none
  | .storeWriter =>
    match s.writer with
    | .adding buf nwrite n loaded =>
      some ([], { s with count := loaded + n, writer := writeLoop buf (nwrite + n) })
    | _ => none
  | .callback stream len =>
    match s.reader with
    | .idle => some ([], { s with reader := .compare stream len })
    | _ => none
  | .compare =>
    match s.reader with
    | .compare stream len =>
      if s.count < len then some ([], { s with reader := .assign stream len })
      else some ([], { s with reader := readLoop stream len len 0 })
    | _ => none
  | .assign =>
    match s.reader with
    | .assign stream len => some ([], { s with reader := readLoop stream len s.count 0 })
    | _ => none
  | .read n =>
    match s.reader with
    | .reading stream len nread b =>
      if n ≤ nread ∧ n ≤ s.pipe.length then
        some ([.stored len 0 n],
          { s with
            pipe := s.pipe.drop n
            reader := readLoop (fun i => if i < n then s.pipe.getD i 0 else stream i) len nread
              (b + n) })
      else none
    | _ => none
  | .loadReader =>
    match s.reader with
    | .subtract stream len nread =>
      some ([], { s with reader := .storing stream len nread s.count })
    | _ => none
  | .storeReader =>
    match s.reader with
    | .storing stream len nread loaded =>
      some ([], { s with count := loaded - nread, reader := .fill stream len nread })
    | _ => none
  | .finish =>
    match s.reader with
    | .fill stream len nread =>
      let padding := if nread < len then [Event.stored len nread (len - nread).toNat] else []
      some (padding ++ [.returned (sound stream nread.toNat)], { s with reader := .idle })
    | _ => none

def Step (capacity : Nat) (s : Device) (es : List Event) (s' : Device) : Prop :=
  ∃ a, step capacity a s = some (es, s')

/-! ## What is heard -/

def submitted : List Event → List UInt8
  | [] => []
  | .submitted buf :: log => buf ++ submitted log
  | _ :: log => submitted log

/-- The sound in the streams of the callbacks that have returned. -/
def played : List Event → List UInt8
  | [] => []
  | .returned s :: log => s ++ played log
  | _ :: log => played log

/-- The sound is played in order, no callback stores outside its stream, and between calls
`count` is the number of bytes in the pipe. -/
structure InOrder (log : List Event) (s : Device) : Prop where
  inOrder : played log <+: submitted log
  inside : ∀ (len : Nat) (offset : Int) (size : Nat), .stored len offset size ∈ log →
    0 ≤ offset ∧ offset + size ≤ len
  counted : s.writer = .idle → s.reader = .idle → s.count = s.pipe.length

/-- A step that does not meet one of the ways in which a transfer goes wrong: a second
transfer within one call, another value of `count` at the end of an update than at its
beginning, and more bytes counted at the assignment than the stream has room for. -/
def regular (s : Device) : Act → Bool
  | .write n =>
    match s.writer with
    | .writing _ nwrite => nwrite = 0 ∨ n = 0
    | _ => true
  | .storeWriter =>
    match s.writer with
    | .adding _ _ _ loaded => s.count = loaded
    | _ => true
  | .assign =>
    match s.reader with
    | .assign _ len => s.count ≤ len
    | _ => true
  | .read n =>
    match s.reader with
    | .reading _ _ _ b => b = 0 ∨ n = 0
    | _ => true
  | .storeReader =>
    match s.reader with
    | .storing _ _ _ loaded => s.count = loaded
    | _ => true
  | _ => true

def RegularStep (capacity : Nat) (s : Device) (es : List Event) (s' : Device) : Prop :=
  ∃ a, regular s a = true ∧ step capacity a s = some (es, s')

end OSLabs.Audio
