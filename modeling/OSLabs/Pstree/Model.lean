import Mathlib.Logic.Function.Basic
import OSLabs.Lib.Fallible

/-! # pstree: reading `/proc` and building the tree

`pstree.c` up to the printing. `psNode` objects live in a heap of numbered cells, a
pointer is the number of a cell or `none` for `NULL`, and every name carries the
address of its first character, which `ConstructTree_name` compares. Characters of
files and names stand for bytes. Numbers are exact; the messages about missing
processes and the debug output are left out.
-/

namespace OSLabs.Pstree

/-- What stops a run: an access outside an array, through `NULL` or to a variable that
was never set, or a loop or recursion that does not end. -/
inductive Fault where
  | outOfRange
  | nullDeref
  | unset
  | endless
  deriving DecidableEq, Repr

/-- The value of an expression that is undefined on `none`. -/
def orFault {α : Type} (f : Fault) : Option α → Except Fault α
  | none => .error f
  | some a => .ok a

theorem orFault_eq_ok {α : Type} {f : Fault} {o : Option α} {a : α} :
    orFault f o = .ok a ↔ o = some a := by
  cases o with
  | none => simp [orFault]
  | some b => simp [orFault]

/-! ## The C library -/

def isspace (c : Char) : Bool := c ∈ [' ', '\t', '\n', '\x0b', '\x0c', '\r']

def digitsValue (s : List Char) : Nat :=
  s.foldl (fun n c => 10 * n + (c.toNat - '0'.toNat)) 0

def scanDigits (s : List Char) : Option Nat :=
  match s.takeWhile Char.isDigit with
  | [] => none
  | ds => some (digitsValue ds)

def scanInt (s : List Char) : Option Int :=
  match s.dropWhile isspace with
  | '-' :: t => (scanDigits t).map fun n => -(n : Int)
  | '+' :: t => (scanDigits t).map fun n => (n : Int)
  | t => (scanDigits t).map fun n => (n : Int)

def atoi (s : List Char) : Int := (scanInt s).getD 0

/-- `sscanf(s, "%s", buf)`. -/
def scanWord (s : List Char) : Option (List Char) :=
  match (s.dropWhile isspace).takeWhile fun c => !isspace c with
  | [] => none
  | w => some w

/-- `strtok(s, " ")`: the token and what the next call goes on with. -/
def strtok (s : List Char) : Option (List Char × List Char) :=
  match s.dropWhile (· = ' ') with
  | [] => none
  | t => some (t.takeWhile (· ≠ ' '), (t.dropWhile (· ≠ ' ')).drop 1)

def maxLineLength : Nat := 1024

def firstLine : List Char → List Char
  | [] => []
  | c :: s => if c = '\n' then [c] else c :: firstLine s

/-- `fgets(line, MAX_LINE_LENGTH, fp)`, which sets nothing at the end of the file. -/
def fgets (file : List Char) : Except Fault (List Char) :=
  match firstLine (file.take (maxLineLength - 1)) with
  | [] => .error .unset
  | line => .ok line

/-! ## The surroundings -/

/-- What the program sees of its surroundings: the entries of `/proc` in the order of
`readdir`, the contents of `/proc/<pid>/stat` where `fopen` succeeds, and where
`malloc` puts the name that belongs to the `n`-th node; `literal` is the address of
the literal `"?"`. -/
structure Sys where
  dir : List (List Char)
  stat : Int → Option (List Char)
  nameBuf : Nat → Nat
  literal : Nat

/-- A row of `pids`. -/
structure Row where
  pid : Int
  ppid : Int
  deriving DecidableEq, Repr

/-- The second and the fourth token of a stat line. -/
def statTokens (line : List Char) : Except Fault (List Char × List Char) := do
  let t₁ ← orFault .nullDeref (strtok line)
  let t₂ ← orFault .nullDeref (strtok t₁.2)
  let t₃ ← orFault .nullDeref (strtok t₂.2)
  let t₄ ← orFault .nullDeref (strtok t₃.2)
  return (t₂.1, t₄.1)

def isNumeric (s : List Char) : Bool := s.all Char.isDigit

def getPPID (sys : Sys) (targetPID : Int) : Except Fault Int :=
  match sys.stat targetPID with
  | none => .ok (-1)
  | some file => do
    let line ← fgets file
    let tokens ← statTokens line
    orFault .unset (scanInt tokens.2)

def maxRows : Nat := 3000

/-- The loop of `getPIDs` over the rest of the directory. -/
def scanDir (sys : Sys) : List (List Char) → List Row → Except Fault (List Row)
  | [], pids => .ok pids
  | name :: rest, pids =>
    if isNumeric name then do
      let ppid ← getPPID sys (atoi name)
      if pids.length < maxRows then scanDir sys rest (pids ++ [⟨atoi name, ppid⟩])
      else .error .outOfRange
    else scanDir sys rest pids

/-- `getPIDs`, which puts a row for the first process before those of the directory. -/
def getPIDs (sys : Sys) : Except Fault (List Row) := scanDir sys sys.dir [⟨1, 0⟩]

def cmpPid (a b : Row) : Int := a.pid - b.pid

/-! ## Nodes -/

structure Name where
  addr : Nat
  text : List Char
  deriving DecidableEq, Repr

abbrev Ptr := Option Nat

structure PsNode where
  pid : Int
  name : Name
  ppid : Int
  depth : Int
  parent : Ptr
  firstSon : Ptr
  nextSibling : Ptr
  deriving DecidableEq, Repr

structure Heap where
  node : Nat → PsNode
  size : Nat

namespace Heap

def get (h : Heap) : Ptr → Except Fault PsNode
  | none => .error .nullDeref
  | some a => .ok (h.node a)

def modify (h : Heap) (a : Nat) (f : PsNode → PsNode) : Heap :=
  { h with node := Function.update h.node a (f (h.node a)) }

def set (h : Heap) (p : Ptr) (f : PsNode → PsNode) : Except Fault Heap :=
  match p with
  | none => .error .nullDeref
  | some a => .ok (h.modify a f)

def push (h : Heap) (n : PsNode) : Heap :=
  { node := Function.update h.node h.size n, size := h.size + 1 }

end Heap

/-- What `NewNode` reads from the stat file; the word of the command is as `%s` read it. -/
structure Stat where
  pid : Int
  word : List Char
  ppid : Int
  deriving DecidableEq, Repr

def readStat (file : List Char) : Except Fault Stat := do
  let line ← fgets file
  let pid ← orFault .unset (scanInt line)
  let tokens ← statTokens line
  let word ← orFault .unset (scanWord tokens.1)
  let ppid ← orFault .unset (scanInt tokens.2)
  return ⟨pid, word, ppid⟩

/-- The word at address `addr` without a `'('` at its start and a `')'` at its end. -/
def stripParens (addr : Nat) (word : List Char) : Name :=
  let cut := if word.getLast? = some ')' then word.dropLast else word
  if word.head? = some '(' then ⟨addr + 1, cut.drop 1⟩ else ⟨addr, cut⟩

/-- The node `NewNode(pid)` would put into cell `n`, or `none` if it returns `NULL`. -/
def freshNode (sys : Sys) (n : Nat) (pid : Int) : Except Fault (Option PsNode) :=
  if pid = 0 then
    .ok (some
      { pid := 0, name := ⟨sys.literal, ['?']⟩, ppid := 0, depth := 0,
        parent := none, firstSon := none, nextSibling := none })
  else
    match sys.stat pid with
    | none => .ok none
    | some file => do
      let stat ← readStat file
      return some
        { pid := stat.pid, name := stripParens (sys.nameBuf n) stat.word, ppid := stat.ppid,
          depth := 0, parent := none, firstSon := none, nextSibling := none }

def newNode (sys : Sys) (h : Heap) (pid : Int) : Except Fault (Ptr × Heap) := do
  match ← freshNode sys h.size pid with
  | none => return (none, h)
  | some n => return (some h.size, h.push n)

def getNode (h : Heap) (pid : Int) : Nat → Ptr → Except Fault Ptr
  | _, none => .ok none
  | 0, some _ => .error .endless
  | fuel + 1, some root =>
    if (h.node root).pid = pid then .ok (some root)
    else do
      match ← getNode h pid fuel (h.node root).firstSon with
      | some node => return some node
      | none => getNode h pid fuel (h.node root).nextSibling

/-- `while(go(temp) && temp->NextSibling) temp = temp->NextSibling`. -/
def walk (go : PsNode → Bool) (h : Heap) : Nat → Nat → Except Fault Nat
  | 0, _ => .error .endless
  | fuel + 1, temp =>
    match go (h.node temp), (h.node temp).nextSibling with
    | true, some next => walk go h fuel next
    | _, _ => .ok temp

/-- Put `q` among the sons of `p`: as the first one, or as the next sibling of the son
at which the walk stops. A walk that takes more steps than there are nodes goes round
in a circle. -/
def insertSon (go : PsNode → PsNode → Bool) (h : Heap) (p q : Ptr) : Except Fault Heap := do
  match (← h.get p).firstSon with
  | none => h.set p fun n => { n with firstSon := q }
  | some first =>
    let node ← h.get q
    let temp ← walk (go · node) h (h.size + 1) first
    h.set (some temp) fun n => { n with nextSibling := q }

def addNewNode (sys : Sys) (h : Heap) (pid : Int) (root : Ptr) : Except Fault (Ptr × Heap) :=
  match root with
  | none => newNode sys h pid
  | some _ => do
    let new ← newNode sys h pid
    match new.1 with
    | none => return (root, new.2)
    | some q =>
      let parent ← getNode new.2 (new.2.node q).ppid (new.2.size + 1) root
      match parent with
      | none => return (root, new.2)
      | some p =>
        let h := new.2.modify q fun n => { n with depth := (new.2.node p).depth + 1 }
        let h := h.modify q fun n => { n with parent := some p }
        return (root, ← insertSon (fun _ _ => true) h (some p) (some q))

/-- What `ConstructTree` does with a row of the node `p` before it calls itself. -/
def addSon (go : PsNode → PsNode → Bool) (sys : Sys) (h : Heap) (p : Ptr) (row : Row) :
    Except Fault (Ptr × Heap) := do
  let new ← newNode sys h row.pid
  let q := new.1
  let h ← new.2.set q fun n => { n with parent := p }
  let depth := (← h.get p).depth + 1
  let h ← h.set q fun n => { n with depth := depth }
  return (q, ← insertSon go h p q)

/-- The loop body of `ConstructTree`, which calls `construct` on a new node. -/
def constructRow (go : PsNode → PsNode → Bool) (sys : Sys)
    (construct : Heap → Ptr → Int → Except Fault Heap) (p : Ptr) (pid : Int) (h : Heap)
    (row : Row) : Except Fault Heap :=
  if row.ppid = pid then do
    let son ← addSon go sys h p row
    construct son.2 son.1 row.pid
  else .ok h

/-- `ConstructTree` and `ConstructTree_name`, up to the condition of the walk. -/
def constructTreeBy (go : PsNode → PsNode → Bool) (sys : Sys) (pids : List Row) :
    Nat → Heap → Ptr → Int → Except Fault Heap
  | 0, _, _, _ => .error .endless
  | fuel + 1, h, p, pid =>
    pids.foldlM (constructRow go sys (constructTreeBy go sys pids fuel) p pid) h

def constructTree : Sys → List Row → Nat → Heap → Ptr → Int → Except Fault Heap :=
  constructTreeBy fun temp q => temp.pid < q.pid

def constructTreeName : Sys → List Row → Nat → Heap → Ptr → Int → Except Fault Heap :=
  constructTreeBy fun temp q => temp.name.addr < q.name.addr

def emptyHeap : Heap where
  node := fun _ =>
    { pid := 0, name := ⟨0, []⟩, ppid := 0, depth := 0, parent := none, firstSon := none,
      nextSibling := none }
  size := 0

/-- The part that `exe_n` and `exe_p` share: everything but the printing. -/
def buildTree (sys : Sys) (qsort : List Row → List Row) (fuel : Nat) (rootPID : Int) :
    Except Fault (Ptr × Heap) := do
  let pids ← getPIDs sys
  let new ← addNewNode sys emptyHeap rootPID none
  let h ← constructTree sys (qsort pids) fuel new.2 new.1 rootPID
  return (new.1, h)

/-- The same part of `cmd_root`. -/
def buildTreeName (sys : Sys) (qsort : List Row → List Row) (fuel : Nat) (rootPID : Int) :
    Except Fault (Ptr × Heap) := do
  let pids ← getPIDs sys
  let new ← addNewNode sys emptyHeap rootPID none
  let h ← constructTreeName sys (qsort pids) fuel new.2 new.1 rootPID
  return (new.1, h)

end OSLabs.Pstree
