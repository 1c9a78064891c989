import SimpleLeveldb.Basic
import SimpleLeveldb.Lib.Chain

set_option autoImplicit false

/-! # The skip list (`skip_list.h`)

The nodes live in an arena and are never freed. A node has a key and an array of links, one for
each level below its height; a link that was never written cannot be read. The comparator and the
heights that `random_height` returns are parameters.
-/

namespace SimpleLeveldb

abbrev NodePtr := Nat

/-- `node`: the key, the length of `next_`, and its links. -/
structure SkipNode (Key : Type) where
  key : Key
  height : Nat
  next : Nat → Option (Option NodePtr)

/-- `skip_list`: the nodes, the next free address, and `max_height_`. -/
structure SkipList (Key : Type) where
  nodes : NodePtr → Option (SkipNode Key)
  nextNode : NodePtr
  maxHeight : Nat

namespace SkipList

def kMaxHeight : Nat := 12

/-- `head_` -/
def head : NodePtr := 0

variable {Key : Type}

/-! ## Nodes -/

def read (sl : SkipList Key) (p : NodePtr) : Except Fault (SkipNode Key) :=
  match sl.nodes p with
  | some n => .ok n
  | none => .error .badAccess

/-- The link of a node at a level, if it has one. -/
def link (sl : SkipList Key) (level : Nat) (p : NodePtr) : Option (Option NodePtr) :=
  (sl.nodes p).bind fun n => if level < n.height then n.next level else none

/-- `next` -/
def next (sl : SkipList Key) (p : NodePtr) (level : Nat) : Except Fault (Option NodePtr) :=
  match sl.link level p with
  | some x => .ok x
  | none => .error .badAccess

/-- `set_next` -/
def setNext (sl : SkipList Key) (p : NodePtr) (level : Nat) (x : Option NodePtr) :
    Except Fault (SkipList Key) := do
  let n ← sl.read p
  if level < n.height then
    return { sl with
      nodes := Function.update sl.nodes p (some { n with
        next := Function.update n.next level (some x) }) }
  else throw .badAccess

/-- `new_node` -/
def newNode (sl : SkipList Key) (key : Key) (height : Nat) : NodePtr × SkipList Key :=
  (sl.nextNode, { sl with
    nodes := Function.update sl.nodes sl.nextNode (some ⟨key, height, fun _ => none⟩)
    nextNode := sl.nextNode + 1 })

/-- The constructor. The key of the head is never compared. -/
def new (key : Key) : Except Fault (SkipList Key) :=
  let (head, sl) := newNode ⟨fun _ => none, head, 1⟩ key kMaxHeight
  (List.range kMaxHeight).foldlM (fun sl i => sl.setNext head i none) sl

/-! ## Searching -/

section Compare

variable (compare : Key → Key → Int)

/-- `key_is_after_node` -/
def keyIsAfterNode (sl : SkipList Key) (key : Key) : Option NodePtr → Except Fault Bool
  | none => .ok false
  | some p => do return decide (compare (← sl.read p).key key < 0)

/-- The variables of `find_greater_or_equal`. -/
structure Search where
  x : NodePtr
  level : Nat
  prev : Nat → Option NodePtr

/-- One turn of the loop of `find_greater_or_equal`. -/
def searchTurn (sl : SkipList Key) (key : Key) (s : Search) :
    Except Fault (Search ⊕ Option NodePtr × (Nat → Option NodePtr)) := do
  let next ← sl.next s.x s.level
  if ← sl.keyIsAfterNode compare key next then return .inl { s with x := ← deref next }
  else if s.level = 0 then return .inr (next, Function.update s.prev s.level (some s.x))
  else return .inl ⟨s.x, s.level - 1, Function.update s.prev s.level (some s.x)⟩

/-- `find_greater_or_equal`: the node, and the array `prev`, which a caller that passes no array
does not look at. A search passes a node at most once, and goes down `max_height_` levels. -/
def findGreaterOrEqual (sl : SkipList Key) (key : Key) (prev : Nat → Option NodePtr) :
    Except Fault (Option NodePtr × (Nat → Option NodePtr)) :=
  Loop.run .endless (searchTurn compare sl key) (sl.nextNode + sl.maxHeight)
    ⟨head, sl.maxHeight - 1, prev⟩

/-- The test of `find_less_than`: `next == nullptr || compare_( next->key, key ) >= 0`. -/
def isNotBefore (sl : SkipList Key) (key : Key) : Option NodePtr → Except Fault Bool
  | none => .ok true
  | some p => do return decide (0 ≤ compare (← sl.read p).key key)

/-- The assertion of `find_less_than`. -/
def assertBefore (sl : SkipList Key) (key : Key) (x : NodePtr) : Except Fault Unit :=
  if x = head then .ok () else do require (compare (← sl.read x).key key < 0)

/-- One turn of the loop of `find_less_than`, with `x` and `level`. -/
def lessThanTurn (sl : SkipList Key) (key : Key) (s : NodePtr × Nat) :
    Except Fault (NodePtr × Nat ⊕ NodePtr) := do
  sl.assertBefore compare key s.1
  let next ← sl.next s.1 s.2
  if ← sl.isNotBefore compare key next then
    if s.2 = 0 then return .inr s.1 else return .inl (s.1, s.2 - 1)
  else return .inl (← deref next, s.2)

/-- `find_less_than` -/
def findLessThan (sl : SkipList Key) (key : Key) : Except Fault NodePtr :=
  Loop.run .endless (lessThanTurn compare sl key) (sl.nextNode + sl.maxHeight)
    (head, sl.maxHeight - 1)

/-- One turn of the loop of `find_last`. -/
def lastTurn (sl : SkipList Key) (s : NodePtr × Nat) :
    Except Fault (NodePtr × Nat ⊕ NodePtr) := do
  match ← sl.next s.1 s.2 with
  | none => if s.2 = 0 then return .inr s.1 else return .inl (s.1, s.2 - 1)
  | some x => return .inl (x, s.2)

/-- `find_last` -/
def findLast (sl : SkipList Key) : Except Fault NodePtr :=
  Loop.run .endless (lastTurn sl) (sl.nextNode + sl.maxHeight) (head, sl.maxHeight - 1)

/-- `equal( key, x->key )` -/
def equalAt (sl : SkipList Key) (key : Key) (p : NodePtr) : Except Fault Bool := do
  return decide (compare key (← sl.read p).key = 0)

/-- `contains` -/
def contains (sl : SkipList Key) (key : Key) : Except Fault Bool := do
  match ← sl.findGreaterOrEqual compare key (fun _ => none) with
  | (some x, _) => sl.equalAt compare key x
  | (none, _) => return false

/-! ## Inserting -/

/-- The assertion at the start of `insert`. -/
def assertNew (sl : SkipList Key) (key : Key) : Option NodePtr → Except Fault Unit
  | some x => do
      let equal ← sl.equalAt compare key x
      require (equal = false)
  | none => .ok ()

/-- The part of `prev` above `max_height_`. -/
def extendPrev (maxHeight height : Nat) (prev : Nat → Option NodePtr) : Nat → Option NodePtr :=
  fun i => if maxHeight ≤ i ∧ i < height then some head else prev i

/-- The first store of a turn of the loop of `insert`: `x` gets the link of its predecessor. -/
def storeNew (prev : Nat → Option NodePtr) (x : NodePtr) (sl : SkipList Key) (i : Nat) :
    Except Fault (SkipList Key) := do
  let p ← deref (prev i)
  let next ← sl.next p i
  sl.setNext x i next

/-- The second store of a turn: `x` is linked at the level `i`. -/
def storePrev (prev : Nat → Option NodePtr) (x : NodePtr) (sl : SkipList Key) (i : Nat) :
    Except Fault (SkipList Key) := do
  let p ← deref (prev i)
  sl.setNext p i (some x)

/-- One turn of the loop of `insert`. -/
def linkLevel (prev : Nat → Option NodePtr) (x : NodePtr) (sl : SkipList Key) (i : Nat) :
    Except Fault (SkipList Key) := do
  let sl ← storeNew prev x sl i
  storePrev prev x sl i

/-- The store to `max_height_`. -/
def raise (sl : SkipList Key) (height : Nat) : SkipList Key :=
  { sl with maxHeight := max sl.maxHeight height }

/-- `insert` up to the loop, where `random_height` returns `height`: the array `prev`, the new
node, and the list. -/
def startInsert (sl : SkipList Key) (key : Key) (height : Nat) :
    Except Fault ((Nat → Option NodePtr) × NodePtr × SkipList Key) := do
  let (x, prev) ← sl.findGreaterOrEqual compare key (fun _ => none)
  sl.assertNew compare key x
  require (0 < height)
  require (height ≤ kMaxHeight)
  return (extendPrev sl.maxHeight height prev, (sl.raise height).newNode key height)

/-- `insert` with the first `k` turns of its loop. -/
def insertUpTo (sl : SkipList Key) (key : Key) (height k : Nat) : Except Fault (SkipList Key) := do
  let (prev, x, sl) ← sl.startInsert compare key height
  (List.range k).foldlM (linkLevel prev x) sl

/-- The first `k` turns, and the first store of the next one. -/
def insertHalf (sl : SkipList Key) (key : Key) (height k : Nat) : Except Fault (SkipList Key) := do
  let (prev, x, sl) ← sl.startInsert compare key height
  storeNew prev x (← (List.range k).foldlM (linkLevel prev x) sl) k

/-- `insert` -/
protected def insert (sl : SkipList Key) (key : Key) (height : Nat) : Except Fault (SkipList Key) :=
  sl.insertUpTo compare key height height

/-- A new list, into which the keys are inserted one after the other, each with its height. -/
def build (zero : Key) (keys : List (Key × Nat)) : Except Fault (SkipList Key) := do
  keys.foldlM (fun sl k => sl.insert compare k.1 k.2) (← new zero)

end Compare

end SkipList

end SimpleLeveldb
