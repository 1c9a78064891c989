import SimpleLeveldb.Basic
import SimpleLeveldb.Lib.Buckets
import SimpleLeveldb.Lib.Ring

set_option autoImplicit false

/-! # The LRU cache (`cache.cc`)

One shard of the cache. The entries are heap objects in two circular lists and a chained hash
table. The links of the entries and of the two list heads are kept apart from the entries, and
the chains of `next_hash` are lists; a pointer to a slot of a chain is the cut of the chain in
front of the slot. Every access to an entry checks that it is alive, so that the use of a freed
entry is the fault `badAccess`.
-/

namespace SimpleLeveldb.Cache

abbrev Ptr := Nat

/-- `void*` -/
abbrev Value := Nat

/-- `core::function< void( const slice&, void* ) >`, by a name for it. -/
abbrev Deleter := Nat

/-- The bytes of `deleter` in the chunk that `malloc` returns, when they are taken for a function. No
constructor runs on them, and `free` leaves there what the entry before had. -/
inductive RawFunction where
  | empty
  | stale
  deriving DecidableEq

/-- `e->deleter = deleter;`: the assignment destroys what it finds, as if it were a function. The bytes
of an empty one ask for nothing; any others make it call what they seem to point to. -/
def RawFunction.assign (raw : RawFunction) (deleter : Deleter) : Except Fault Deleter :=
  match raw with
  | .empty => .ok deleter
  | .stale => .error .badAccess

theorem RawFunction.assign_eq_ok {raw : RawFunction} {deleter d : Deleter} :
    raw.assign deleter = .ok d ↔ raw = .empty ∧ deleter = d := by
  cases raw with
  | empty => simp [RawFunction.assign]
  | stale => simp [RawFunction.assign]

/-- `lru_handle`, without its links. -/
structure LruHandle where
  value : Value
  deleter : Deleter
  charge : U64
  inCache : Bool
  refs : U32
  hash : U32
  keyData : Bytes

/-- The address of `lru_`. -/
def lruHead : Ptr := 0

/-- The address of `in_use_`. -/
def inUseHead : Ptr := 1

/-- The entries that are alive, the links, and the next free address. -/
structure Heap where
  entries : Ptr → Option LruHandle
  links : Ring.Links Ptr
  nextPtr : Ptr

namespace Heap

/-! ## Entries -/

/-- What has links: the two heads and the entries. -/
def Alive (h : Heap) (p : Ptr) : Prop := p = lruHead ∨ p = inUseHead ∨ (h.entries p).isSome

instance (h : Heap) (p : Ptr) : Decidable (h.Alive p) :=
  inferInstanceAs (Decidable (p = lruHead ∨ p = inUseHead ∨ (h.entries p).isSome))

def read (h : Heap) (p : Ptr) : Except Fault LruHandle :=
  match h.entries p with
  | some e => .ok e
  | none => .error .badAccess

/-- Change the fields of an entry that is alive. -/
def modify (h : Heap) (p : Ptr) (f : LruHandle → LruHandle) : Except Fault Heap := do
  let e ← h.read p
  return { h with entries := Function.update h.entries p (some (f e)) }

/-- `malloc` -/
def malloc (h : Heap) (e : LruHandle) : Ptr × Heap :=
  (h.nextPtr, { h with
    entries := Function.update h.entries h.nextPtr (some e)
    nextPtr := h.nextPtr + 1 })

def free (h : Heap) (p : Ptr) : Heap := { h with entries := Function.update h.entries p none }

/-- `key`: the assertion says that the entry is not the head of an empty list. -/
def key (h : Heap) (p : Ptr) : Except Fault Bytes := do
  let e ← h.read p
  require (h.links.next p ≠ some p)
  return e.keyData

/-! ## Links -/

def setNext (h : Heap) (p : Ptr) (x : Option Ptr) : Except Fault Heap :=
  if h.Alive p then
    .ok { h with links := ⟨Function.update h.links.next p x, h.links.prev⟩ }
  else .error .badAccess

def setPrev (h : Heap) (p : Ptr) (x : Option Ptr) : Except Fault Heap :=
  if h.Alive p then
    .ok { h with links := ⟨h.links.next, Function.update h.links.prev p x⟩ }
  else .error .badAccess

/-- `lru_remove` -/
def lruRemove (h : Heap) (e : Ptr) : Except Fault Heap := do
  let next ← deref (h.links.next e)
  let h ← h.setPrev next (h.links.prev e)
  let prev ← deref (h.links.prev e)
  h.setNext prev (h.links.next e)

/-- `lru_append` -/
def lruAppend (h : Heap) (list e : Ptr) : Except Fault Heap := do
  let h ← h.setNext e (some list)
  let h ← h.setPrev e (h.links.prev list)
  let prev ← deref (h.links.prev e)
  let h ← h.setNext prev (some e)
  let next ← deref (h.links.next e)
  h.setPrev next (some e)

/-- `lru_remove( e ); lru_append( list, e );`, when `b` holds. -/
def moveIf (h : Heap) (b : Bool) (list e : Ptr) : Except Fault Heap :=
  if b then do (← h.lruRemove e).lruAppend list e else .ok h

end Heap

/-! ## The hash table -/

/-- `handle_table` -/
structure HandleTable where
  length : U32
  elems : U32
  list : Nat → List Ptr

namespace HandleTable

/-- `hash & ( length_ - 1 )` -/
def indexOf (length hash : U32) : Nat := (hash &&& (length - 1)).toNat

/-- The condition under which the loop of `find_pointer` stops. -/
def isMatch (heap : Heap) (key : Bytes) (hash : U32) (p : Ptr) : Except Fault Bool := do
  let e ← heap.read p
  if e.hash ≠ hash then return false else return decide (key = (← heap.key p))

/-- The loop of `find_pointer`, with the part of the chain that was passed. -/
def findIn (heap : Heap) (key : Bytes) (hash : U32) (passed : List Ptr) :
    List Ptr → Except Fault (List Ptr × List Ptr)
  | [] => .ok (passed, [])
  | p :: ps => do
      if ← isMatch heap key hash p then return (passed, p :: ps)
      else findIn heap key hash (passed ++ [p]) ps

/-- `find_pointer`: the bucket, and its chain up to the slot and from the slot on. -/
def findPointer (t : HandleTable) (heap : Heap) (key : Bytes) (hash : U32) :
    Except Fault (Nat × List Ptr × List Ptr) := do
  let i := indexOf t.length hash
  if t.length.toNat ≤ i then throw .badAccess
  return (i, ← findIn heap key hash [] (t.list i))

/-- `look_up` -/
def lookUp (t : HandleTable) (heap : Heap) (key : Bytes) (hash : U32) :
    Except Fault (Option Ptr) := do
  let (_, _, slot) ← t.findPointer heap key hash
  return slot.head?

/-- One turn of the loop that doubles `new_length`. -/
def growTurn (elems newLength : U32) : Except Fault (U32 ⊕ U32) :=
  .ok (if newLength < elems then .inl (newLength * 2) else .inr newLength)

/-- The loop that doubles `new_length`. After 30 rounds it is zero for ever. -/
def newLength (elems : U32) : Except Fault U32 :=
  Loop.run .endless (growTurn elems) 31 4

/-- One turn of the inner loop of `resize`. -/
def rehash (heap : Heap) (newLength : U32) (list : Nat → List Ptr) (p : Ptr) :
    Except Fault (Nat → List Ptr) := do
  let e ← heap.read p
  let i := indexOf newLength e.hash
  return Function.update list i (p :: list i)

/-- `resize` -/
def resize (t : HandleTable) (heap : Heap) : Except Fault HandleTable := do
  let length ← newLength t.elems
  let old := Buckets.contents t.length.toNat t.list
  let list ← old.foldlM (rehash heap length) (fun _ => [])
  require (t.elems = BitVec.ofNat 32 old.length)
  return { t with length := length, list := list }

/-- The end of `insert` for a new element. -/
def grow (t : HandleTable) (heap : Heap) : Except Fault HandleTable :=
  if t.length < t.elems then t.resize heap else .ok t

/-- `insert`: the entry that `h` replaces, if any. -/
protected def insert (t : HandleTable) (heap : Heap) (h : Ptr) :
    Except Fault (Option Ptr × HandleTable) := do
  let e ← heap.read h
  let (i, passed, slot) ← t.findPointer heap (← heap.key h) e.hash
  match slot with
  | old :: rest =>
      return (some old, { t with list := Function.update t.list i (passed ++ h :: rest) })
  | [] => do
      let t := { t with list := Function.update t.list i (passed ++ [h]), elems := t.elems + 1 }
      return (none, ← t.grow heap)

/-- `remove` -/
def remove (t : HandleTable) (heap : Heap) (key : Bytes) (hash : U32) :
    Except Fault (Option Ptr × HandleTable) := do
  let (i, passed, slot) ← t.findPointer heap key hash
  match slot with
  | result :: rest =>
      return (some result,
        { t with list := Function.update t.list i (passed ++ rest), elems := t.elems - 1 })
  | [] => return (none, t)

/-- The constructor of `handle_table`. -/
def new (heap : Heap) : Except Fault HandleTable := resize ⟨0, 0, fun _ => []⟩ heap

end HandleTable

/-! ## The cache -/

/-- `lru_cache`. `deleted` collects the calls of the deleters. -/
structure LruCache where
  capacity : U64
  usage : U64
  heap : Heap
  table : HandleTable
  deleted : List (Deleter × Bytes × Value)

namespace LruCache

/-- The constructor of `lru_cache`, followed by `set_capacity`. -/
def new (capacity : U64) : Except Fault LruCache := do
  let heap : Heap := {
    entries := fun _ => none
    links := ⟨fun p => if p < 2 then some p else none, fun p => if p < 2 then some p else none⟩
    nextPtr := 2 }
  return {
    capacity := capacity
    usage := 0
    heap := heap
    table := ← HandleTable.new heap
    deleted := [] }

/-- `ref` -/
def ref (c : LruCache) (e : Ptr) : Except Fault LruCache := do
  let h ← c.heap.read e
  let heap ← c.heap.moveIf (h.refs == 1 && h.inCache) inUseHead e
  let heap ← heap.modify e fun h => { h with refs := h.refs + 1 }
  return { c with heap := heap }

/-- `un_ref`: the deleter is called and the entry freed. The function in it is not destroyed. -/
def unRef (c : LruCache) (e : Ptr) : Except Fault LruCache := do
  let h ← c.heap.read e
  require (0 < h.refs)
  let heap ← c.heap.modify e fun h => { h with refs := h.refs - 1 }
  if h.refs - 1 = 0 then do
    require (h.inCache = false)
    let key ← heap.key e
    return { c with heap := heap.free e, deleted := c.deleted ++ [(h.deleter, key, h.value)] }
  else do
    let heap ← heap.moveIf (h.inCache && h.refs - 1 == 1) lruHead e
    return { c with heap := heap }

/-- `finish_erase` -/
def finishErase (c : LruCache) : Option Ptr → Except Fault (Bool × LruCache)
  | none => .ok (false, c)
  | some e => do
      let h ← c.heap.read e
      require (h.inCache = true)
      let heap ← c.heap.lruRemove e
      let heap ← heap.modify e fun h => { h with inCache := false }
      let c ← LruCache.unRef { c with heap := heap, usage := c.usage - h.charge } e
      return (true, c)

/-- `look_up` -/
def lookUp (c : LruCache) (key : Bytes) (hash : U32) : Except Fault (Option Ptr × LruCache) := do
  match ← c.table.lookUp c.heap key hash with
  | some e => return (some e, ← c.ref e)
  | none => return (none, c)

/-- `release` -/
def release (c : LruCache) (handle : Ptr) : Except Fault LruCache := c.unRef handle

/-- `erase` -/
def erase (c : LruCache) (key : Bytes) (hash : U32) : Except Fault LruCache := do
  let (e, table) ← c.table.remove c.heap key hash
  let (_, c) ← LruCache.finishErase { c with table := table } e
  return c

/-- The body of the loops of `insert` and `prune`: the oldest entry of `lru_` is erased. -/
def eraseOldest (c : LruCache) (old : Ptr) : Except Fault LruCache := do
  let h ← c.heap.read old
  require (h.refs = 1)
  let (e, table) ← c.table.remove c.heap (← c.heap.key old) h.hash
  let (erased, c) ← LruCache.finishErase { c with table := table } e
  require (erased = true)
  return c

/-- One turn of these loops, which go on as long as `more` holds and `lru_` is not empty. -/
def eraseTurn (more : LruCache → Bool) (c : LruCache) : Except Fault (LruCache ⊕ LruCache) := do
  if !more c then return .inr c
  let old ← deref (c.heap.links.next lruHead)
  if old = lruHead then return .inr c
  return .inl (← c.eraseOldest old)

/-- There are fewer entries than addresses used. -/
def eraseWhile (more : LruCache → Bool) (c : LruCache) : Except Fault LruCache :=
  Loop.run .endless (eraseTurn more) (c.heap.nextPtr + 1) c

/-- `prune` -/
def prune (c : LruCache) : Except Fault LruCache := eraseWhile (fun _ => true) c

/-- `insert`, from the assignment of the deleter up to the loop: a new entry is cached unless the
capacity is zero. -/
def insertEntry (c : LruCache) (key : Bytes) (hash : U32) (value : Value) (charge : U64)
    (deleter : Deleter) : Except Fault (Ptr × LruCache) :=
  if 0 < c.capacity then do
    let (e, heap) := c.heap.malloc ⟨value, deleter, charge, true, 2, hash, key⟩
    let heap ← heap.lruAppend inUseHead e
    let (old, table) ← c.table.insert heap e
    let (_, c) ← LruCache.finishErase
      { c with heap := heap, usage := c.usage + charge, table := table } old
    return (e, c)
  else do
    let (e, heap) := c.heap.malloc ⟨value, deleter, charge, false, 1, hash, key⟩
    return (e, { c with heap := ← heap.setNext e none })

/-- `insert`, in a chunk of memory that reads as `raw`. -/
protected def insert (c : LruCache) (raw : RawFunction) (key : Bytes) (hash : U32) (value : Value)
    (charge : U64) (deleter : Deleter) : Except Fault (Ptr × LruCache) := do
  let deleter ← raw.assign deleter
  let (e, c) ← c.insertEntry key hash value charge deleter
  return (e, ← eraseWhile (fun c => decide (c.capacity < c.usage)) c)

end LruCache

end SimpleLeveldb.Cache
