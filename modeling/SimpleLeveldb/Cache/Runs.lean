import SimpleLeveldb.Cache.Operations

set_option autoImplicit false

/-! # Runs of the cache

A run starts with the constructor and goes on with calls of the five operations, where a key
always comes with the same hash, a client releases only handles that it has, and `insert` finds a
chunk of memory to which a function can be assigned. As long as no entry has more handles than
`refs` can count, every state is sound (`sound_of_reachable`); one `look_up` more, and the reference
count is zero (`exists_reachable_not_sound`).
-/

namespace SimpleLeveldb.Cache

/-! ## Runs -/

/-- The calls; that of `insert` with what it finds in the chunk that `malloc` returns. -/
inductive Call where
  | insert (raw : RawFunction) (key : Bytes) (value : Value) (charge : U64) (deleter : Deleter)
  | lookUp (key : Bytes)
  | release (handle : Ptr)
  | erase (key : Bytes)
  | prune

/-- The cache in a run, with the number of handles to each entry that clients hold. -/
structure Run where
  cache : LruCache
  held : Ptr → Nat := fun _ => 0

namespace Run

def step (hash : Bytes → U32) (st : Run) : Call → Except Fault Run
  | .insert raw key value charge deleter => do
      let (e, cache) ← st.cache.insert raw key (hash key) value charge deleter
      return ⟨cache, Function.update st.held e (st.held e + 1)⟩
  | .lookUp key => do
      let (e, cache) ← st.cache.lookUp key (hash key)
      return ⟨cache, e.elim st.held fun p => Function.update st.held p (st.held p + 1)⟩
  | .release p => do
      return ⟨← st.cache.release p, Function.update st.held p (st.held p - 1)⟩
  | .erase key => do
      return ⟨← st.cache.erase key (hash key), st.held⟩
  | .prune => do
      return ⟨← st.cache.prune, st.held⟩

/-- A client releases each handle at most once, and the chunk of a new entry reads as an empty
function. -/
def Permitted (st : Run) : Call → Prop
  | .insert raw _ _ _ _ => raw = .empty
  | .release p => 0 < st.held p
  | _ => True

/-- Also, a handle is asked for only while its entry has fewer than 2^32 - 2. -/
def Bounded (st : Run) : Call → Prop
  | .insert raw _ _ _ _ => raw = .empty
  | .release p => 0 < st.held p
  | .lookUp key => ∀ p e, st.cache.heap.entries p = some e → e.inCache = true → e.keyData = key →
      st.held p < 2 ^ 32 - 2
  | _ => True

end Run

/-- The states of the runs whose calls are all permitted. -/
inductive Reachable (permitted : Run → Call → Prop) (hash : Bytes → U32) (capacity : U64) :
    Run → Prop
  | new {c : LruCache} : LruCache.new capacity = .ok c →
      Reachable permitted hash capacity { cache := c }
  | step {st st' : Run} (call : Call) : Reachable permitted hash capacity st → permitted st call →
      st.step hash call = .ok st' → Reachable permitted hash capacity st'

/-- **The representation invariant**, where `lru` and `inUse` are what the two lists hold. -/
structure SoundLists (st : Run) (lru inUse : List Ptr) : Prop where
  lru_ring : Ring.IsRing st.cache.heap.links lruHead lru
  inUse_ring : Ring.IsRing st.cache.heap.links inUseHead inUse
  disjoint : lru.Disjoint inUse
  alive : ∀ p ∈ lru ++ inUse, (st.cache.heap.entries p).isSome
  cached : ∀ p e, st.cache.heap.entries p = some e → e.inCache = true →
    (p ∈ lru ∨ p ∈ inUse) ∧ (p ∈ lru ↔ e.refs = 1) ∧ (p ∈ inUse ↔ 2 ≤ e.refs)
  uncached : ∀ p e, st.cache.heap.entries p = some e → e.inCache = false → p ∉ lru ∧ p ∉ inUse
  table : ∀ i p, p ∈ st.cache.table.list i ↔ ∃ e, st.cache.heap.entries p = some e
    ∧ e.inCache = true ∧ HandleTable.indexOf st.cache.table.length e.hash = i
  chains : ∀ i, (st.cache.table.list i).Nodup
    ∧ (st.cache.table.list i ≠ [] → i < st.cache.table.length.toNat)
  elems : st.cache.table.elems.toNat = (lru ++ inUse).length
  keys : ∀ p q e e', st.cache.heap.entries p = some e → st.cache.heap.entries q = some e' →
    e.inCache = true → e'.inCache = true → e.keyData = e'.keyData → p = q
  refs : ∀ p e, st.cache.heap.entries p = some e →
    e.refs.toNat = st.held p + if e.inCache then 1 else 0
  held : ∀ p, st.cache.heap.entries p = none → st.held p = 0
  usage : st.cache.usage.toNat
    = ((lru ++ inUse).map fun p => (st.cache.heap.chargeOf p).toNat).sum % 2 ^ 64

def Sound (st : Run) : Prop := ∃ lru inUse, SoundLists st lru inUse

/-! ## The invariant of the model is the one of the code -/

theorem toNat_total (h : Heap) (l : List Ptr) :
    (h.total l).toNat = (l.map fun p => (h.chargeOf p).toNat).sum % 2 ^ 64 := by
  induction l with
  | nil => rfl
  | cons p l ih =>
      rw [Heap.total_cons, BitVec.toNat_add, ih, List.map_cons, List.sum_cons, Nat.add_mod_mod]

variable {hash : Bytes → U32} {capacity : U64} {st st' : Run} {lru inUse : List Ptr} {p : Ptr}

/-- The elements of the table are the entries with the mark of the cache. -/
theorem Stored.mem_iff {c : LruCache} {held : Ptr → Nat} (h : Stored hash c held lru inUse) :
    p ∈ (lru ++ inUse).toFinset ↔ ∃ e, c.heap.entries p = some e ∧ e.inCache = true := by
  rw [List.mem_toFinset]
  constructor
  · intro hp
    obtain ⟨e, he⟩ := h.core.exists_entry hp
    exact ⟨e, he, (h.core.entry p e he).mem_iff.mp (List.mem_append.mp hp)⟩
  · rintro ⟨e, he, hc⟩
    exact List.mem_append.mpr ((h.core.entry p e he).mem_iff.mpr hc)

theorem Stored.sound (h : Stored hash st.cache st.held lru inUse) : SoundLists st lru inUse where
  lru_ring := h.core.rings.left
  inUse_ring := h.core.rings.right
  disjoint := (List.nodup_append'.mp h.core.nodup).2.2
  alive := by
    intro p hp
    obtain ⟨e, he⟩ := h.core.exists_entry hp
    rw [he]
    rfl
  cached := by
    intro p e he hc
    have hok := h.core.entry p e he
    refine ⟨hok.mem_iff.mpr hc, ?_, ?_⟩
    · rw [hok.lru, and_iff_right hc, ← BitVec.toNat_inj]
      rfl
    · rw [hok.inUse, and_iff_right hc, BitVec.le_def]
      rfl
  uncached := by
    intro p e he hc
    have hok := h.core.entry p e he
    rw [← not_or, hok.mem_iff, hc]
    decide
  table := by
    intro i p
    rw [h.tabled.holds.mem_iff, h.mem_iff]
    constructor
    · rintro ⟨⟨e, he, hc⟩, hi⟩
      exact ⟨e, he, hc, by rw [← hi]; simp [Heap.hashOf, he]⟩
    · rintro ⟨e, he, hc, hi⟩
      exact ⟨⟨e, he, hc⟩, by rw [← hi]; simp [Heap.hashOf, he]⟩
  chains := by
    refine fun i => ⟨h.tabled.holds.nodup i, fun hne => ?_⟩
    obtain ⟨p, hp⟩ := List.exists_mem_of_ne_nil _ hne
    obtain ⟨hps, hi⟩ := (h.tabled.holds.mem_iff i p).mp hp
    exact hi ▸ h.tabled.holds.index_lt p hps
  elems := by rw [h.tabled.elems, List.toFinset_card_of_nodup h.core.nodup]
  keys := by
    intro p q e e' he he' hc hc' hkey
    refine h.tabled.keys p (h.mem_iff.mpr ⟨e, he, hc⟩) q (h.mem_iff.mpr ⟨e', he', hc'⟩) ?_
    simp [Heap.keyOf, he, he', hkey]
  refs := fun p e he => (h.core.entry p e he).refs
  held := fun p hp => (h.core.gone p hp).1
  usage := by rw [h.core.usage, toNat_total]

/-! ## Every step keeps the invariant -/

/-- A `look_up` that is bounded. -/
theorem Stored.lt_of_bounded {key : Bytes} (h : Stored hash st.cache st.held lru inUse)
    (hcall : st.Bounded (.lookUp key)) :
    ∀ p ∈ lru ++ inUse, st.cache.heap.keyOf p = key → st.held p + 2 < 2 ^ 32 := by
  intro p hp hkey
  obtain ⟨e, he, hc⟩ := h.mem_iff.mp (List.mem_toFinset.mpr hp)
  have := hcall p e he hc (by rw [← hkey]; simp [Heap.keyOf, he])
  omega

/-- **A step** -/
theorem Stored.step (h : Stored hash st.cache st.held lru inUse) (call : Call)
    (hcall : st.Bounded call) :
    (∃ st' lru' inUse', st.step hash call = .ok st'
        ∧ Stored hash st'.cache st'.held lru' inUse')
      ∨ (∃ raw key value charge deleter, call = .insert raw key value charge deleter)
        ∧ st.cache.table.elems.toNat = 2 ^ 31 ∧ st.step hash call = .error .endless := by
  cases call with
  | insert raw key value charge deleter =>
      obtain rfl : raw = .empty := hcall
      have hnew : st.held st.cache.heap.nextPtr = 0 := (h.core.gone _ h.core.nextPtr_not_mem).1
      rcases h.insert key value charge deleter with
        ⟨c', lru', inUse', hinsert, hstored⟩ | ⟨hmax, hinsert⟩
      · left
        refine ⟨⟨c', Function.update st.held st.cache.heap.nextPtr 1⟩, lru', inUse', ?_, hstored⟩
        rw [Run.step, hinsert, ok_bind]
        simp only [hnew]
        rfl
      · right
        exact ⟨⟨.empty, key, value, charge, deleter, rfl⟩, hmax, by rw [Run.step, hinsert]; rfl⟩
  | lookUp key =>
      obtain ⟨r, c', inUse', hlook, -, hstored, -, -⟩ := h.lookUp key (h.lt_of_bounded hcall)
      left
      refine ⟨⟨c', _⟩, _, inUse', ?_, hstored⟩
      rw [Run.step, hlook]
      rfl
  | release p =>
      obtain ⟨c', lru', inUse', hrelease, hstored, -, -⟩ := h.release hcall
      left
      refine ⟨⟨c', _⟩, lru', inUse', ?_, hstored⟩
      rw [Run.step, hrelease]
      rfl
  | erase key =>
      obtain ⟨r, c', herase, -, hstored⟩ := h.erase key (hash key)
      left
      refine ⟨⟨c', st.held⟩, _, _, ?_, hstored⟩
      rw [Run.step, herase]
      rfl
  | prune =>
      obtain ⟨c', hprune, hstored⟩ := h.prune
      left
      refine ⟨⟨c', st.held⟩, _, _, ?_, hstored⟩
      rw [Run.step, hprune]
      rfl

/-- **A run** -/
theorem Reachable.stored (h : Reachable Run.Bounded hash capacity st) :
    ∃ lru inUse, Stored hash st.cache st.held lru inUse := by
  induction h with
  | new hnew =>
      obtain ⟨c, hc, hstored⟩ := new_stored hash capacity
      obtain rfl := Except.ok.inj (hnew.symm.trans hc)
      exact ⟨[], [], hstored⟩
  | step call _ hcall hstep ih =>
      obtain ⟨lru, inUse, hstored⟩ := ih
      rcases hstored.step call hcall with ⟨st', lru', inUse', hok, hstored'⟩ | ⟨-, -, herror⟩
      · obtain rfl := Except.ok.inj (hstep.symm.trans hok)
        exact ⟨lru', inUse', hstored'⟩
      · rw [hstep] at herror
        cases herror

/-- **Every state of a run is sound**, and every call returns but for one: an `insert` that would
be the 2^31 + 1st element of the table doubles its length for ever. -/
theorem sound_of_reachable (h : Reachable Run.Bounded hash capacity st) :
    Sound st ∧ ∀ call, st.Bounded call → (∃ st', st.step hash call = .ok st')
      ∨ (∃ raw key value charge deleter, call = .insert raw key value charge deleter)
        ∧ st.cache.table.elems.toNat = 2 ^ 31 ∧ st.step hash call = .error .endless := by
  obtain ⟨lru, inUse, hstored⟩ := h.stored
  refine ⟨⟨lru, inUse, hstored.sound⟩, fun call hcall => ?_⟩
  exact (hstored.step call hcall).imp_left fun ⟨st', _, _, hok, _⟩ => ⟨st', hok⟩

/-- A key is inserted twice, while a client holds the first entry. -/
theorem sound_insert_twice :
    ∃ c st₁ st₂, LruCache.new 1 = .ok c
      ∧ Run.step (fun _ => 0) { cache := c } (.insert .empty [1] 7 1 0) = .ok st₁
      ∧ Run.step (fun _ => 0) st₁ (.insert .empty [1] 8 1 0) = .ok st₂ ∧ st₂.held 2 = 1 ∧ Sound st₂ :=
  ⟨_, _, _, rfl, rfl, rfl, rfl, (sound_of_reachable
    (.step (.insert .empty [1] 8 1 0) (.step (.insert .empty [1] 7 1 0) (.new rfl) rfl rfl) rfl rfl :
      Reachable Run.Bounded (fun _ => 0) 1 _)).1⟩

/-! ## Too many handles -/

theorem Reachable.permitted (h : Reachable Run.Bounded hash capacity st) :
    Reachable Run.Permitted hash capacity st := by
  induction h with
  | new hnew => exact .new hnew
  | @step st st' call _ hcall hstep ih =>
      refine ih.step call ?_ hstep
      cases call with
      | insert raw key value charge deleter => exact hcall
      | release p => exact hcall
      | _ => trivial

/-- The state has an entry of the cache with the empty key and `n` handles. -/
def HasHandles (st : Run) (n : Nat) : Prop :=
  ∃ p e, st.cache.heap.entries p = some e ∧ e.inCache = true ∧ e.keyData = [] ∧ st.held p = n

/-- One `look_up` adds a handle. -/
theorem HasHandles.lookUp {n : Nat} (hst : Reachable Run.Bounded hash capacity st)
    (h : HasHandles st n) (hn : n < 2 ^ 32 - 2) :
    ∃ st', Reachable Run.Bounded hash capacity st' ∧ HasHandles st' (n + 1) := by
  obtain ⟨lru, inUse, hstored⟩ := hst.stored
  obtain ⟨p, e, he, hc, hkey, rfl⟩ := h
  have hp := hstored.mem_iff.mpr ⟨e, he, hc⟩
  have hkeyp : st.cache.heap.keyOf p = [] := by simp [Heap.keyOf, he, hkey]
  have honly : ∀ q ∈ lru ++ inUse, st.cache.heap.keyOf q = [] → q = p := fun q hq hkeyq =>
    hstored.tabled.keys q (List.mem_toFinset.mpr hq) p hp (hkeyq.trans hkeyp.symm)
  obtain ⟨r, c', inUse', hlook, hfound, hstored', hperm, hkeys⟩ := hstored.lookUp []
    fun q hq hkeyq => by rw [honly q hq hkeyq]; omega
  obtain rfl : r = some p :=
    (hfound p).mpr ⟨hp, by rw [hstored.core.hashOf (List.mem_toFinset.mp hp), hkeyp], hkeyp⟩
  have hstep : st.step hash (.lookUp []) = .ok ⟨c', Function.update st.held p (st.held p + 1)⟩ := by
    rw [Run.step, hlook]
    rfl
  obtain ⟨e', he', hc'⟩ := hstored'.mem_iff.mp (List.mem_toFinset.mpr
    (hperm.mem_iff.mpr (List.mem_toFinset.mp hp)))
  refine ⟨_, hst.step (.lookUp []) ?_ hstep, p, e', he', hc', ?_, Function.update_self _ _ _⟩
  · intro q e₁ he₁ hc₁ hkey₁
    have hq := List.mem_toFinset.mp (hstored.mem_iff.mpr ⟨e₁, he₁, hc₁⟩)
    rw [honly q hq (by simp [Heap.keyOf, he₁, hkey₁])]
    exact hn
  · have := (hkeys p (List.mem_toFinset.mp hp)).1
    rw [hkeyp] at this
    simpa [Heap.keyOf, he'] using this

/-- After one `insert` and enough calls of `look_up`. -/
theorem exists_hasHandles (n : Nat) (hn : n < 2 ^ 32 - 2) :
    ∃ st, Reachable Run.Bounded (fun _ => 0) 1 st ∧ HasHandles st (n + 1) := by
  induction n with
  | zero =>
      refine ⟨_, .step (.insert .empty [] 7 1 0) (.new rfl) rfl rfl, 2, _, rfl, rfl, rfl, rfl⟩
  | succ n ih =>
      obtain ⟨st, hst, hhandles⟩ := ih (by omega)
      exact hhandles.lookUp hst hn

/-- An entry that has another reference is not moved. -/
theorem ref_of_ne_one {c : LruCache} {e : LruHandle} (he : c.heap.entries p = some e)
    (hone : e.refs.toNat ≠ 1) :
    c.ref p = .ok { c with heap := c.heap.set p (some { e with refs := e.refs + 1 }) } := by
  rw [LruCache.ref, Heap.read, he]
  simp only [ok_bind, refs_eq_one_iff, decide_eq_false hone, Bool.false_and]
  rw [Heap.moveIf, if_neg Bool.false_ne_true, ok_bind, Heap.modify_spec he]
  rfl

/-- **The last handle that `refs` cannot count** makes the state unsound. -/
theorem HasHandles.wrap (hst : Reachable Run.Bounded hash capacity st)
    (h : HasHandles st (2 ^ 32 - 2)) :
    ∃ st', st.step hash (.lookUp []) = .ok st' ∧ ¬ Sound st' := by
  obtain ⟨lru, inUse, hstored⟩ := hst.stored
  obtain ⟨p, e, he, hc, hkey, hheld⟩ := h
  have hp := hstored.mem_iff.mpr ⟨e, he, hc⟩
  have hkeyp : st.cache.heap.keyOf p = [] := by simp [Heap.keyOf, he, hkey]
  have hrefs := (hstored.core.entry p e he).refs
  rw [hheld, hc, if_pos rfl] at hrefs
  obtain ⟨r, hfound, heq⟩ := hstored.lookUp_eq []
  obtain rfl : r = some p :=
    (hfound p).mpr ⟨hp, by rw [hstored.core.hashOf (List.mem_toFinset.mp hp), hkeyp], hkeyp⟩
  have href := ref_of_ne_one he (by omega)
  set c' : LruCache := { st.cache with
    heap := st.cache.heap.set p (some { e with refs := e.refs + 1 }) } with hc'
  refine ⟨⟨c', Function.update st.held p (st.held p + 1)⟩, ?_, ?_⟩
  · rw [Run.step, heq]
    simp only [Option.elim_some, href]
    rfl
  · rintro ⟨lru', inUse', hsound⟩
    have hbad := hsound.refs p { e with refs := e.refs + 1 } (Function.update_self _ _ _)
    have hlt := (e.refs + 1).isLt
    simp only [Function.update_self, hheld, hc, if_true] at hbad
    omega

/-- One entry and 2^32 - 1 handles to it: `refs` wraps to zero. -/
theorem exists_reachable_not_sound :
    ∃ st, Reachable Run.Permitted (fun _ => 0) 1 st ∧ ¬ Sound st := by
  obtain ⟨st, hst, hhandles⟩ := exists_hasHandles (2 ^ 32 - 3) (by omega)
  obtain ⟨st', hstep, hunsound⟩ := hhandles.wrap hst
  exact ⟨st', hst.permitted.step (.lookUp []) trivial hstep, hunsound⟩

/-! ## One entry and any number of handles

The second way to lose count: the reference count of an entry with 2^32 + 1 handles is that of an
entry with one. -/

/-- The links of `lru_`, `in_use_` and the entry. -/
def pinnedLinks : Ptr → Option Ptr
  | 0 => some 0
  | 1 => some 2
  | 2 => some 1
  | _ => none

/-- A cache of capacity 1 with one entry, which is in use and has some number of references. -/
def pinned (refs : U32) : LruCache where
  capacity := 1
  usage := 1
  heap := {
    entries := Function.update (fun _ => none) 2 (some ⟨7, 0, 1, true, refs, 0, []⟩)
    links := ⟨pinnedLinks, pinnedLinks⟩
    nextPtr := 3 }
  table := ⟨4, 1, Function.update (fun _ => []) 0 [2]⟩
  deleted := []

/-- The same cache with links that are told otherwise. -/
theorem pinned_relink {refs : U32} {L : Ring.Links Ptr} (hnext : L.next = pinnedLinks)
    (hprev : L.prev = pinnedLinks) :
    { pinned refs with heap := (pinned refs).heap.relink L } = pinned refs := by
  obtain ⟨next, prev⟩ := L
  simp only at hnext hprev
  rw [hnext, hprev]
  rfl

theorem eq_pinnedLinks {f : Ptr → Option Ptr} (h0 : f 0 = some 0) (h1 : f 1 = some 2)
    (h2 : f 2 = some 1) (h3 : ∀ n, f (n + 3) = none) : f = pinnedLinks := by
  funext p
  match p with
  | 0 => exact h0
  | 1 => exact h1
  | 2 => exact h2
  | n + 3 => exact h3 n

theorem insert_pinned :
    ∃ c, LruCache.new 1 = .ok c ∧ c.insert .empty [] 0 7 1 0 = .ok (2, pinned 2) := by
  have hinsert : ∃ c, LruCache.new 1 = .ok c ∧ ∃ L, L.next = pinnedLinks ∧ L.prev = pinnedLinks
      ∧ c.insert .empty [] 0 7 1 0 = .ok (2, { pinned 2 with heap := (pinned 2).heap.relink L }) := by
    refine ⟨_, rfl, _, ?_, ?_, rfl⟩
    · exact eq_pinnedLinks rfl rfl rfl fun n => rfl
    · exact eq_pinnedLinks rfl rfl rfl fun n => rfl
  obtain ⟨c, hnew, L, hnext, hprev, hinsert⟩ := hinsert
  exact ⟨c, hnew, pinned_relink hnext hprev ▸ hinsert⟩

/-- The only entry of `in_use_` stays where it is when it is moved to its end. -/
theorem moveIf_pinned (r : U32) (b : Bool) :
    (pinned r).heap.moveIf b inUseHead 2 = .ok (pinned r).heap := by
  cases b with
  | false => rfl
  | true =>
      have hmove : ∃ L, L.next = pinnedLinks ∧ L.prev = pinnedLinks
          ∧ (pinned r).heap.moveIf true inUseHead 2 = .ok ((pinned r).heap.relink L) := by
        refine ⟨_, ?_, ?_, rfl⟩
        · exact eq_pinnedLinks rfl rfl rfl fun n => rfl
        · exact eq_pinnedLinks rfl rfl rfl fun n => rfl
      obtain ⟨L, hnext, hprev, hmove⟩ := hmove
      exact hmove.trans (congrArg (fun c : LruCache => Except.ok c.heap) (pinned_relink hnext hprev))

theorem ref_pinned (r : U32) : (pinned r).ref 2 = .ok (pinned (r + 1)) := by
  have hread : (pinned r).heap.entries 2 = some ⟨7, 0, 1, true, r, 0, []⟩ := rfl
  rw [LruCache.ref, Heap.read, hread]
  simp only [ok_bind, moveIf_pinned, Heap.modify_spec hread]
  show Except.ok { pinned r with heap := (pinned r).heap.set 2 (some ⟨7, 0, 1, true, r + 1, 0, []⟩) } = _
  simp only [pinned, Heap.set, Function.update_idem]

theorem lookUp_pinned (r : U32) : (pinned r).lookUp [] 0 = .ok (some 2, pinned (r + 1)) := by
  have hfind : (pinned r).table.lookUp (pinned r).heap [] 0 = .ok (some 2) := by
    simp [HandleTable.lookUp, HandleTable.findPointer, HandleTable.findIn, HandleTable.isMatch,
      HandleTable.indexOf, Heap.read, Heap.key, require, pinned, pinnedLinks]
    rfl
  rw [LruCache.lookUp, hfind, ok_bind]
  simp only [ref_pinned]
  rfl


/-- A handle is given back, and another key is inserted. -/
theorem evict_pinned :
    ∃ c₁ c₂, (pinned 2).release 2 = .ok c₁ ∧ c₁.insert .empty [1] 0 8 1 0 = .ok (3, c₂)
      ∧ c₂.lookUp [] 0 = .ok (none, c₂) ∧ c₂.heap.entries 2 = none :=
  ⟨_, _, rfl, rfl, rfl, rfl⟩

/-- The state after one `insert` and `n` calls of `look_up`. -/
def pinnedRun (n : Nat) : Run :=
  ⟨pinned (BitVec.ofNat 32 (n + 2)), Function.update (fun _ => 0) 2 (n + 1)⟩

theorem step_pinnedRun (n : Nat) :
    (pinnedRun n).step (fun _ => 0) (.lookUp []) = .ok (pinnedRun (n + 1)) := by
  have hrefs : BitVec.ofNat 32 (n + 2) + 1 = BitVec.ofNat 32 (n + 1 + 2) := by
    show BitVec.ofNat 32 (n + 2) + BitVec.ofNat 32 1 = _
    rw [← BitVec.ofNat_add]
  rw [Run.step, pinnedRun, lookUp_pinned, hrefs, ok_bind]
  show Except.ok (⟨_, Function.update (Function.update (fun _ => 0) 2 (n + 1)) 2
    (Function.update (fun _ => 0) 2 (n + 1) 2 + 1)⟩ : Run) = _
  rw [Function.update_idem, Function.update_self]
  rfl

/-- The references of 2^32 more handles are not seen. -/
theorem pinnedRun_wrap : (pinnedRun (2 ^ 32)).cache = pinned 2 := rfl

end SimpleLeveldb.Cache
