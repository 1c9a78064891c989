import SimpleLeveldb.Cache.Ledger
import SimpleLeveldb.Util.Hash

set_option autoImplicit false

/-! # The sharded cache

`sharded_lru_cache` has sixteen caches, and the hash of a key says which of them is asked. Each of
them has addresses of its own, so that a handle is an address and the shard that it belongs to.
The destructors are part of the model, too.
-/

namespace SimpleLeveldb.Cache

/-! ## Destruction -/

namespace LruCache

/-- One turn of the loop of `~lru_cache`. -/
def destroyTurn (s : LruCache × Ptr) : Except Fault ((LruCache × Ptr) ⊕ LruCache) := do
  let (c, e) := s
  if e = lruHead then return .inr c
  let h ← c.heap.read e
  let next ← deref (c.heap.links.next e)
  require (h.inCache = true)
  let heap ← c.heap.modify e fun h => { h with inCache := false }
  require (h.refs = 1)
  let c ← LruCache.unRef { c with heap := heap } e
  return .inl (c, next)

/-- `~lru_cache`: what is left is the record of the calls of the deleters. -/
def destroy (c : LruCache) : Except Fault LruCache := do
  require (c.heap.links.next inUseHead = some inUseHead)
  let e ← deref (c.heap.links.next lruHead)
  Loop.run .endless destroyTurn (c.heap.nextPtr + 1) (c, e)

end LruCache

/-! ## Shards -/

def kNumShardBits : Nat := 4

def kNumShards : Nat := 2 ^ kNumShardBits

abbrev Shard := Fin kNumShards

/-- `Hashslice` -/
def hashSlice (s : Bytes) : U32 := Hash.hash s 0

/-- `Shard` -/
def shardOf (hash : U32) : Shard :=
  ⟨(hash >>> (32 - kNumShardBits)).toNat, by
    have := hash.isLt
    rw [BitVec.toNat_ushiftRight, kNumShards, kNumShardBits, Nat.shiftRight_eq_div_pow]
    omega⟩

/-- The address of an entry. -/
structure Handle where
  shard : Shard
  ptr : Ptr
  deriving DecidableEq

/-- `sharded_lru_cache` -/
structure ShardedLruCache where
  shard : Shard → LruCache

namespace ShardedLruCache

/-- The constructor. -/
def new (capacity : U64) : Except Fault ShardedLruCache := do
  let perShard := (capacity + (BitVec.ofNat 64 kNumShards - 1)) / BitVec.ofNat 64 kNumShards
  let c ← LruCache.new perShard
  return ⟨fun _ => c⟩

/-- Another state of one shard. -/
def set (c : ShardedLruCache) (s : Shard) (x : LruCache) : ShardedLruCache :=
  ⟨Function.update c.shard s x⟩

/-- `insert` -/
protected def insert (c : ShardedLruCache) (raw : RawFunction) (key : Bytes) (value : Value)
    (charge : U64) (deleter : Deleter) : Except Fault (Handle × ShardedLruCache) := do
  let hash := hashSlice key
  let s := shardOf hash
  let (p, x) ← (c.shard s).insert raw key hash value charge deleter
  return (⟨s, p⟩, c.set s x)

/-- `look_up` -/
def lookUp (c : ShardedLruCache) (key : Bytes) :
    Except Fault (Option Handle × ShardedLruCache) := do
  let hash := hashSlice key
  let s := shardOf hash
  let (r, x) ← (c.shard s).lookUp key hash
  return (r.map (Handle.mk s), c.set s x)

/-- `release`: the hash of the entry says which shard is asked. It has to be the one of the
address, where alone the entry is known. -/
def release (c : ShardedLruCache) (handle : Handle) : Except Fault ShardedLruCache := do
  let h ← (c.shard handle.shard).heap.read handle.ptr
  if shardOf h.hash = handle.shard then
    return c.set handle.shard (← (c.shard handle.shard).release handle.ptr)
  else throw .badAccess

/-- `erase` -/
def erase (c : ShardedLruCache) (key : Bytes) : Except Fault ShardedLruCache := do
  let hash := hashSlice key
  let s := shardOf hash
  return c.set s (← (c.shard s).erase key hash)

/-- `prune`: every shard, in order. -/
def prune (c : ShardedLruCache) : Except Fault ShardedLruCache :=
  (List.finRange kNumShards).foldlM (fun c s => do return c.set s (← (c.shard s).prune)) c

/-- The destructor destroys the shards, the last one first. -/
def destroy (c : ShardedLruCache) : Except Fault ShardedLruCache :=
  (List.finRange kNumShards).reverse.foldlM
    (fun c s => do return c.set s (← (c.shard s).destroy)) c

/-- The calls of the deleters, shard by shard. -/
def deleted (c : ShardedLruCache) : List (Deleter × Bytes × Value) :=
  (List.finRange kNumShards).flatMap fun s => (c.shard s).deleted

end ShardedLruCache

end SimpleLeveldb.Cache
