import OSLabs.Pstree.Model

/-! # pstree: printing the tree

`PrintTree` and `PrintTree_p`, which differ in the label of a node and in how its
width is computed. The stack of ancestors is a list with the top first; it grows as
`realloc` lets it. What is printed before a fault does not matter and is dropped.
-/

namespace OSLabs.Pstree

/-! ## The stack -/

abbrev Stack := List Nat

def initStack : Stack := []

def push (s : Stack) (node : Nat) : Stack := node :: s

def pop : Stack → Ptr × Stack
  | [] => (none, [])
  | node :: s => (some node, s)

def isEmpty (s : Stack) : Bool := s.isEmpty

/-! ## PrintTree -/

def isLastSibling (h : Heap) (a : Nat) : Bool := (h.node a).nextSibling.isNone

def spaces (n : Nat) : List Char := List.replicate n ' '

/-- `while(q->pid != rootPID){ push(stack, q); q = q->Parent; }`. -/
def climb (h : Heap) (rootPID : Int) : Nat → Ptr → Stack → Except Fault (Nat × Stack)
  | 0, _, _ => .error .endless
  | _ + 1, none, _ => .error .nullDeref
  | fuel + 1, some q, stack =>
    if (h.node q).pid ≠ rootPID then climb h rootPID fuel (h.node q).parent (push stack q)
    else .ok (q, stack)

/-- `while(!isEmpty(stack))`: the columns of the ancestors on the stack. -/
def drawStack (width : PsNode → Nat) (h : Heap) : Stack → List Char
  | [] => []
  | q :: stack =>
    (if isLastSibling h q then [' ', ' ', ' '] else [' ', '│', ' ']) ++
      spaces (width (h.node q)) ++ drawStack width h stack

/-- What is printed between the newline and the branch of `child`. -/
def margin (width : PsNode → Nat) (h : Heap) (rootPID : Int) (fuel child : Nat) :
    Except Fault (List Char) := do
  let res ← climb h rootPID fuel (h.node child).parent initStack
  return spaces (width (h.node res.1)) ++ drawStack width h res.2

mutual

/-- `PrintTree` and `PrintTree_p`, up to the label of a node and its width; `n` bounds
the climbs. -/
def printTreeBy (label : PsNode → List Char) (width : PsNode → Nat) (h : Heap)
    (rootPID : Int) (n : Nat) : Nat → Ptr → Except Fault (List Char)
  | 0, _ => .error .endless
  | _ + 1, none => .ok []
  | fuel + 1, some root =>
    match (h.node root).firstSon with
    | none => .ok (label (h.node root))
    | some child =>
      if isLastSibling h child then do
        let first ← printTreeBy label width h rootPID n fuel (some child)
        return label (h.node root) ++ ['─', '─', '─'] ++ first
      else do
        let first ← printTreeBy label width h rootPID n fuel (some child)
        let others ← printSiblings label width h rootPID n fuel (h.node child).nextSibling
        return label (h.node root) ++ ['─', '┬', '─'] ++ first ++ others

def printSiblings (label : PsNode → List Char) (width : PsNode → Nat) (h : Heap)
    (rootPID : Int) (n : Nat) : Nat → Ptr → Except Fault (List Char)
  | 0, _ => .error .endless
  | _ + 1, none => .ok []
  | fuel + 1, some child => do
    let before ← margin width h rootPID n child
    let branch := if isLastSibling h child then [' ', '└', '─'] else [' ', '├', '─']
    let tree ← printTreeBy label width h rootPID n fuel (some child)
    let others ← printSiblings label width h rootPID n fuel (h.node child).nextSibling
    return '\n' :: before ++ branch ++ tree ++ others

end

def printTree (h : Heap) (rootPID : Int) (fuel : Nat) (root : Ptr) :
    Except Fault (List Char) :=
  printTreeBy (fun n => n.name.text) (fun n => n.name.text.length) h rootPID fuel fuel root

def showInt (x : Int) : List Char :=
  if x < 0 then '-' :: Nat.toDigits 10 x.natAbs else Nat.toDigits 10 x.natAbs

/-- `while(x){ x /= 10; pid_len++; }`, which takes fewer steps than `x` is large. -/
def pidLen : Nat → Int → Nat
  | 0, _ => 0
  | fuel + 1, x => if x = 0 then 0 else pidLen fuel (x.tdiv 10) + 1

def pidLabel (n : PsNode) : List Char :=
  if n.pid ≠ 0 then n.name.text ++ '(' :: showInt n.pid ++ [')'] else n.name.text ++ ['(', ')']

def printTreeP (h : Heap) (rootPID : Int) (fuel : Nat) (root : Ptr) :
    Except Fault (List Char) :=
  printTreeBy pidLabel (fun n => n.name.text.length + 2 + pidLen n.pid.natAbs n.pid) h rootPID
    fuel fuel root

def exeN (sys : Sys) (qsort : List Row → List Row) (fuel : Nat) (rootPID : Int) :
    Except Fault (List Char) := do
  let res ← buildTree sys qsort fuel rootPID
  printTree res.2 rootPID fuel res.1

def exeP (sys : Sys) (qsort : List Row → List Row) (fuel : Nat) (rootPID : Int) :
    Except Fault (List Char) := do
  let res ← buildTree sys qsort fuel rootPID
  printTreeP res.2 rootPID fuel res.1

def cmdRoot (sys : Sys) (qsort : List Row → List Row) (fuel : Nat) (rootPID : Int) :
    Except Fault (List Char) := do
  let res ← buildTreeName sys qsort fuel rootPID
  printTree res.2 rootPID fuel res.1

end OSLabs.Pstree
