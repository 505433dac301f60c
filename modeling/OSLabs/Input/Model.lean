import Mathlib.Logic.Function.Basic

/-! # The keyboard queue of the native machine

A thread that waits for events of the window system puts key codes into a ring, and the
program polls them out. Each side holds `key_queue_lock` while it touches the ring, so the
two sides are steps of one machine that come in any order.
-/

namespace OSLabs.Input

def KEYDOWN_MASK : BitVec 32 := 0x8000

def KEY_QUEUE_LEN : Nat := 1024

/-! ## Key codes -/

/-- The names in `AM_KEYS`; the code of a key is its place, counted from one. -/
def amKeys : List String :=
  ["ESCAPE", "F1", "F2", "F3", "F4", "F5", "F6", "F7", "F8", "F9", "F10", "F11", "F12",
   "GRAVE", "1", "2", "3", "4", "5", "6", "7", "8", "9", "0", "MINUS", "EQUALS", "BACKSPACE",
   "TAB", "Q", "W", "E", "R", "T", "Y", "U", "I", "O", "P", "LEFTBRACKET", "RIGHTBRACKET",
   "BACKSLASH",
   "CAPSLOCK", "A", "S", "D", "F", "G", "H", "J", "K", "L", "SEMICOLON", "APOSTROPHE", "RETURN",
   "LSHIFT", "Z", "X", "C", "V", "B", "N", "M", "COMMA", "PERIOD", "SLASH", "RSHIFT",
   "LCTRL", "APPLICATION", "LALT", "SPACE", "RALT", "RCTRL",
   "UP", "DOWN", "LEFT", "RIGHT", "INSERT", "DELETE", "HOME", "END", "PAGEUP", "PAGEDOWN"]

def AM_KEY_NONE : BitVec 32 := 0

/-- The table from scancodes to key codes. `scancode` is the library's numbering of the
keys, `SDL_SCANCODE_k` for the name `k`. -/
def keymap (scancode : String → Nat) : Nat → Nat :=
  amKeys.zipIdx.foldl (fun map key => Function.update map (scancode key.1) (key.2 + 1))
    fun _ => 0

/-! ## The ring -/

structure KeyQueue where
  keyQueue : Nat → BitVec 32
  keyF : Nat
  keyR : Nat

def KeyQueue.init : KeyQueue := { keyQueue := fun _ => 0, keyF := 0, keyR := 0 }

structure Kbd where
  keydown : Bool
  keycode : BitVec 32
  deriving DecidableEq, Repr

/-- A key event with its press or release flag in one word. -/
def amCode (key : Kbd) : BitVec 32 :=
  key.keycode ||| (if key.keydown then KEYDOWN_MASK else 0)

/-- The critical section of `event_thread`. -/
def insert (q : KeyQueue) (code : BitVec 32) : KeyQueue :=
  { q with
    keyQueue := Function.update q.keyQueue q.keyR code
    keyR := (q.keyR + 1) % KEY_QUEUE_LEN }

/-- The two fields that `__am_input_keybrd` fills in from the word `k`. -/
def unpack (k : BitVec 32) : Kbd :=
  { keydown := k &&& KEYDOWN_MASK ≠ 0, keycode := k &&& ~~~KEYDOWN_MASK }

def inputKeybrd (q : KeyQueue) : Kbd × KeyQueue :=
  if q.keyF ≠ q.keyR then
    (unpack (q.keyQueue q.keyF), { q with keyF := (q.keyF + 1) % KEY_QUEUE_LEN })
  else (unpack AM_KEY_NONE, q)

/-! ## Both sides together -/

/-- One step: an `SDL_KEYDOWN` or `SDL_KEYUP` event at the thread, or a poll. -/
inductive Step where
  | event (keydown : Bool) (scancode : Nat)
  | poll
  deriving DecidableEq, Repr

/-- What a step does that can be told from outside. -/
inductive Event where
  | inserted (key : Kbd)
  | polled (answer : Kbd)
  deriving DecidableEq, Repr

/-- A key that the table does not map is ignored. -/
def eventThread (map : Nat → Nat) (q : KeyQueue) (keydown : Bool) (scancode : Nat) :
    List Event × KeyQueue :=
  if map scancode ≠ 0 then
    let key : Kbd := { keydown, keycode := BitVec.ofNat 32 (map scancode) }
    ([.inserted key], insert q (amCode key))
  else ([], q)

def step (map : Nat → Nat) (q : KeyQueue) : Step → List Event × KeyQueue
  | .event keydown scancode => eventThread map q keydown scancode
  | .poll => ([.polled (inputKeybrd q).1], (inputKeybrd q).2)

def run (map : Nat → Nat) (steps : List Step) : List Event × KeyQueue :=
  steps.foldl (fun c a => (c.1 ++ (step map c.2 a).1, (step map c.2 a).2)) ([], .init)

def inserted : List Event → List Kbd
  | [] => []
  | .inserted key :: log => key :: inserted log
  | .polled _ :: log => inserted log

/-- The answers of the polls that returned a key. -/
def reported : List Event → List Kbd
  | [] => []
  | .inserted _ :: log => reported log
  | .polled answer :: log =>
    if answer.keycode ≠ AM_KEY_NONE then answer :: reported log else reported log

end OSLabs.Input
