import SimpleLeveldb.Cache.Ledger
import SimpleLeveldb.Lib.LruMap

set_option autoImplicit false

/-! # The cache as a map with eviction

The history of a cache, the calls with the handles that they returned, tells a `LruMap`, where the
queue of the items that nobody holds is what the list `lru_` should be. A cache whose entries have
no more handles than `refs` can count answers as this map does (`like_of_traced`); with 2^32 handles
to one entry it evicts the entry in spite of them (`exists_traced_not_like`).
-/

namespace SimpleLeveldb.Cache

/-! ## Histories -/

/-- What a call returns, before anything else happens. -/
def Run.answer (hash : Bytes → U32) (st : Run) : Call → Except Fault (Option Ptr)
  | .insert raw key value charge deleter => do
      return some (← st.cache.insert raw key (hash key) value charge deleter).1
  | .lookUp key => do return (← st.cache.lookUp key (hash key)).1
  | .release _ => .ok none
  | .erase _ => .ok none
  | .prune => .ok none

/-- A call on the map. The handle of an `insert` is new, and the map is told which one it is. -/
def mapStep (m : LruMap Bytes Ptr) : Call × Option Ptr → LruMap Bytes Ptr
  | (.insert _ key _ charge _, r) => r.elim m fun p => m.insert key p charge.toNat
  | (.lookUp key, _) => (m.lookUp key).elim m m.ref
  | (.release p, _) => m.release p
  | (.erase key, _) => m.erase key
  | (.prune, _) => m.prune

/-- The map that a history tells. -/
def mapOf (capacity : U64) (trace : List (Call × Option Ptr)) : LruMap Bytes Ptr :=
  trace.foldl mapStep (.new capacity.toNat)

/-- The sum of the charges in the cache is below 2^64. -/
def Fits (m : LruMap Bytes Ptr) : Call → Prop
  | .insert _ key _ charge _ => (m.erase key).usage + charge.toNat < 2 ^ 64
  | _ => True

/-- The histories of permitted calls, with the states that they lead to. -/
inductive Traced (permitted : Run → Call → Prop) (hash : Bytes → U32) (capacity : U64) :
    List (Call × Option Ptr) → Run → Prop
  | new {c : LruCache} : LruCache.new capacity = .ok c →
      Traced permitted hash capacity [] { cache := c }
  | step {trace : List (Call × Option Ptr)} {st st' : Run} {r : Option Ptr} (call : Call) :
      Traced permitted hash capacity trace st → permitted st call →
      Fits (mapOf capacity trace) call → st.answer hash call = .ok r →
      st.step hash call = .ok st' → Traced permitted hash capacity (trace ++ [(call, r)]) st'

/-- **The cache is like the map.** -/
structure Like (hash : Bytes → U32) (st : Run) (m : LruMap Bytes Ptr) : Prop where
  lookUp : ∀ key, st.Bounded (.lookUp key) → st.answer hash (.lookUp key) = .ok (m.lookUp key)
  cached : ∀ i, i ∈ m.items ↔ ∃ e, st.cache.heap.entries i.handle = some e ∧ e.inCache = true
    ∧ i.key = e.keyData ∧ i.charge = e.charge.toNat
  usage : st.cache.usage.toNat = m.usage
  queue : ∀ p, p ∈ m.unheld ↔ p ∈ m.handles ∧ m.held p = 0
  held : st.held = m.held

/-! ## Items -/

/-- The item of an entry. -/
def Heap.item (h : Heap) (p : Ptr) : LruMap.Item Bytes Ptr :=
  ⟨h.keyOf p, p, (h.chargeOf p).toNat⟩

theorem Heap.item_of_some {h : Heap} {p : Ptr} {e : LruHandle} (he : h.entries p = some e) :
    h.item p = ⟨e.keyData, p, e.charge.toNat⟩ := by
  simp [Heap.item, Heap.keyOf, Heap.chargeOf, he]

/-- Items do not change as long as the entries are alive. -/
theorem Evolves.item {c c' : LruCache} (h : Evolves c c') {p : Ptr} {e : LruHandle}
    (he : c'.heap.entries p = some e) : c'.heap.item p = c.heap.item p := by
  obtain ⟨e₀, he₀, horigin⟩ := Option.map_eq_some_iff.mp (h.origin (Heap.origin_of_some he))
  have hkey : e₀.keyData = e.keyData := congrArg Origin.key horigin
  have hcharge : e₀.charge = e.charge := congrArg Origin.charge horigin
  rw [Heap.item_of_some he, Heap.item_of_some he₀, hkey, hcharge]

/-! ## The invariant -/

/-- **The cache and the map**: `lru_` is the queue, and the entries of the lists are the items. -/
structure Matches (hash : Bytes → U32) (c : LruCache) (m : LruMap Bytes Ptr) (inUse : List Ptr) :
    Prop where
  stored : Stored hash c m.held m.unheld inUse
  capacity : c.capacity.toNat = m.capacity
  items : m.items.Perm ((m.unheld ++ inUse).map c.heap.item)
  fits : m.usage < 2 ^ 64

variable {hash : Bytes → U32} {c c' : LruCache} {m m' : LruMap Bytes Ptr} {inUse inUse' : List Ptr}
  {p : Ptr}

theorem Matches.handles (h : Matches hash c m inUse) : m.handles.Perm (m.unheld ++ inUse) := by
  have hperm := h.items.map LruMap.Item.handle
  rwa [List.map_map, show LruMap.Item.handle ∘ c.heap.item = id from rfl, List.map_id] at hperm

/-- `usage_` is the sum of the charges. -/
theorem Matches.usage (h : Matches hash c m inUse) : c.usage.toNat = m.usage := by
  have hsum : m.usage = ((m.unheld ++ inUse).map fun p => (c.heap.chargeOf p).toNat).sum := by
    rw [LruMap.usage, (h.items.map LruMap.Item.charge).sum_eq, List.map_map]
    rfl
  rw [h.stored.core.usage, toNat_total, ← hsum, Nat.mod_eq_of_lt h.fits]

/-- The table finds what the map finds. -/
theorem Matches.found (h : Matches hash c m inUse) (key : Bytes) :
    HandleTable.Found c.heap (m.unheld ++ inUse).toFinset key (hash key) (m.lookUp key) := by
  intro p
  have hmem : ∀ i ∈ m.items, ∃ q ∈ m.unheld ++ inUse, c.heap.item q = i := fun i hi =>
    List.mem_map.mp (h.items.mem_iff.mp hi)
  constructor
  · intro hp
    obtain ⟨i, hi, rfl⟩ := Option.map_eq_some_iff.mp hp
    obtain ⟨q, hq, rfl⟩ := hmem i (List.mem_of_find?_eq_some hi)
    have hfirst := List.find?_some hi
    have hkey : c.heap.keyOf q = key := of_decide_eq_true hfirst
    exact ⟨List.mem_toFinset.mpr hq, by rw [← hkey]; exact h.stored.core.hashOf hq, hkey⟩
  · rintro ⟨hp, -, hkey⟩
    have hitem : c.heap.item p ∈ m.items :=
      h.items.mem_iff.mpr (List.mem_map_of_mem (List.mem_toFinset.mp hp))
    unfold LruMap.lookUp
    cases hfind : m.items.find? fun i => decide (i.key = key) with
    | none =>
        have := List.find?_eq_none.mp hfind _ hitem
        rw [decide_eq_true_eq] at this
        exact absurd hkey this
    | some i =>
        -- a key has one entry
        obtain ⟨q, hq, rfl⟩ := hmem i (List.mem_of_find?_eq_some hfind)
        have hfirst := List.find?_some hfind
        have hkeyq : c.heap.keyOf q = key := of_decide_eq_true hfirst
        have hqp := h.stored.tabled.keys q (List.mem_toFinset.mpr hq) p hp (hkeyq.trans hkey.symm)
        rw [Option.map_some, hqp]
        rfl

/-- A cache that has evolved matches what is left of the map. -/
theorem Matches.evolve (h : Matches hash c m inUse) (hevolves : Evolves c c')
    (hstored : Stored hash c' m'.held m'.unheld inUse') (hcap : m'.capacity = m.capacity)
    (hitems : m'.items.Perm ((m'.unheld ++ inUse').map c.heap.item)) (husage : m'.usage ≤ m.usage) :
    Matches hash c' m' inUse' where
  stored := hstored
  capacity := by rw [hevolves.capacity, h.capacity, hcap]
  items := by
    have hsame : (m'.unheld ++ inUse').map c'.heap.item = (m'.unheld ++ inUse').map c.heap.item := by
      refine List.map_congr_left fun q hq => ?_
      obtain ⟨e, he⟩ := hstored.core.exists_entry hq
      exact hevolves.item he
    rw [hsame]
    exact hitems
  fits := husage.trans_lt h.fits

/-! ## Every call keeps the invariant -/

/-- **`look_up`** -/
theorem Matches.lookUp (h : Matches hash c m inUse) (key : Bytes)
    (hlt : ∀ p ∈ m.unheld ++ inUse, c.heap.keyOf p = key → m.held p + 2 < 2 ^ 32) :
    ∃ c' inUse', c.lookUp key (hash key) = .ok (m.lookUp key, c')
      ∧ Matches hash c' ((m.lookUp key).elim m m.ref) inUse' := by
  obtain ⟨r, c', inUse', hlook, hfound, hstored, hperm, -⟩ := h.stored.lookUp key hlt
  obtain rfl := hfound.unique (h.found key)
  refine ⟨c', inUse', hlook, ?_⟩
  have hevolves := evolves_lookUp hlook
  cases hr : m.lookUp key with
  | none =>
      rw [hr] at hstored hperm
      exact h.evolve hevolves hstored rfl (h.items.trans (hperm.symm.map _)) le_rfl
  | some p =>
      rw [hr] at hstored hperm
      have href : Matches hash c' (m.ref p) inUse' :=
        h.evolve hevolves hstored rfl (h.items.trans (hperm.symm.map _)) le_rfl
      exact href

/-- **`release`** -/
theorem Matches.release (h : Matches hash c m inUse) (hp : 0 < m.held p) :
    ∃ c' inUse', c.release p = .ok c' ∧ Matches hash c' (m.release p) inUse' := by
  obtain ⟨c', lru', inUse', hrelease, hstored, hlru, hperm⟩ := h.stored.release hp
  have hunheld : lru' = (m.release p).unheld := by
    simp only [hlru, LruMap.release, h.handles.mem_iff]
  subst hunheld
  refine ⟨c', inUse', hrelease, ?_⟩
  exact h.evolve (evolves_unRef hrelease) hstored rfl (h.items.trans (hperm.symm.map _)) le_rfl

/-- The items that are left when one entry is gone. -/
theorem Matches.items_drop (h : Matches hash c m inUse) (hp : p ∈ m.unheld ++ inUse) :
    (m.drop p).items.Perm ((m.unheld.erase p ++ inUse.erase p).map c.heap.item) := by
  have hperm := h.stored.core.erase_perm hp
  have hnot := (List.nodup_cons.mp (hperm.nodup_iff.mp h.stored.core.nodup)).1
  exact m.items_drop (fun _ => rfl) h.items hperm hnot

theorem Matches.items_erase (h : Matches hash c m inUse) (key : Bytes) :
    (m.erase key).items.Perm (((m.lookUp key).elim m.unheld m.unheld.erase
      ++ (m.lookUp key).elim inUse inUse.erase).map c.heap.item) := by
  unfold LruMap.erase
  cases hr : m.lookUp key with
  | none => exact h.items
  | some p => exact h.items_drop (List.mem_toFinset.mp ((h.found key p).mp hr).1)

/-- **`erase`** -/
theorem Matches.erase (h : Matches hash c m inUse) (key : Bytes) :
    ∃ c' inUse', c.erase key (hash key) = .ok c' ∧ Matches hash c' (m.erase key) inUse' := by
  obtain ⟨r, c', herase, hfound, hstored⟩ := h.stored.erase key (hash key)
  obtain rfl := hfound.unique (h.found key)
  have hitems := h.items_erase key
  have hheld : (m.erase key).held = m.held := LruMap.held_erase
  rw [← LruMap.unheld_erase] at hstored hitems
  rw [← hheld] at hstored
  exact ⟨c', _, herase, h.evolve (evolves_erase herase) hstored LruMap.capacity_erase hitems
    LruMap.usage_erase_le⟩

/-- One turn of the loops of `insert` and `prune`. -/
theorem Matches.eraseOldest {lru : List Ptr} (h : Matches hash c m inUse) (hunheld : m.unheld = p :: lru)
    (hstored : Stored hash c' m.held lru inUse) (hok : c.eraseOldest p = .ok c') :
    Matches hash c' (m.drop p) inUse := by
  have hp : p ∈ m.unheld := hunheld ▸ List.mem_cons_self
  have hnot : p ∉ inUse := fun hu =>
    (List.nodup_append'.mp h.stored.core.nodup).2.2 hp hu
  have hitems := h.items_drop (List.mem_append_left _ hp)
  rw [List.erase_of_not_mem hnot] at hitems
  rw [← LruMap.unheld_drop hunheld] at hstored
  exact h.evolve (evolves_eraseOldest hok) hstored rfl hitems (m.usage_drop_le p)

/-- **`prune`** -/
theorem Matches.prune (h : Matches hash c m inUse) :
    ∃ c', c.prune = .ok c' ∧ Matches hash c' m.prune inUse := by
  obtain ⟨c', lru', hok, -, ⟨m', hm', hunheld, hprune, -⟩, hend⟩ :=
    h.stored.eraseWhile (fun _ => true)
      (fun c lru => ∃ m', Matches hash c m' inUse ∧ m'.unheld = lru ∧ m'.prune = m.prune
        ∧ m'.held = m.held) ⟨m, h, rfl, rfl, rfl⟩
      (by
        rintro c c' p lru - hstored hok - ⟨m', hm', hunheld, hprune, hheld⟩
        rw [← hheld] at hstored
        refine ⟨m'.drop p, hm'.eraseOldest hunheld hstored hok, LruMap.unheld_drop hunheld, ?_, hheld⟩
        rw [← hprune, LruMap.prune_cons hunheld])
  obtain rfl := hend rfl
  rw [LruMap.prune_nil hunheld] at hprune
  exact ⟨c', hok, hprune ▸ hm'⟩

/-- The condition of the loop of `insert`. -/
theorem Matches.more_iff (h : Matches hash c m inUse) :
    decide (c.capacity < c.usage) = true ↔ m.capacity < m.usage := by
  rw [decide_eq_true_eq, BitVec.lt_def, h.capacity, h.usage]

/-- The loop of **`insert`** -/
theorem Matches.evict (h : Matches hash c m inUse) :
    ∃ c', LruCache.eraseWhile (fun c => decide (c.capacity < c.usage)) c = .ok c'
      ∧ Matches hash c' m.evict inUse := by
  obtain ⟨c', lru', hok, -, ⟨m', hm', hunheld, hevict, -⟩, hend⟩ :=
    h.stored.eraseWhile (fun c => decide (c.capacity < c.usage))
      (fun c lru => ∃ m', Matches hash c m' inUse ∧ m'.unheld = lru ∧ m'.evict = m.evict
        ∧ m'.held = m.held) ⟨m, h, rfl, rfl, rfl⟩
      (by
        rintro c c' p lru - hstored hok hmore ⟨m', hm', hunheld, hevict, hheld⟩
        rw [← hheld] at hstored
        refine ⟨m'.drop p, hm'.eraseOldest hunheld hstored hok, LruMap.unheld_drop hunheld, ?_, hheld⟩
        rw [← hevict, LruMap.evict_cons hunheld (hm'.more_iff.mp hmore)])
  have hstop : m'.evict = m' := by
    by_cases hlt : m'.capacity < m'.usage
    · exact LruMap.evict_nil (hunheld.trans (hend (hm'.more_iff.mpr hlt)))
    · exact LruMap.evict_of_le (not_lt.mp hlt)
  refine ⟨c', hok, ?_⟩
  rw [← hevict, hstop]
  exact hm'

/-- The entry that **`insert`** makes -/
theorem Matches.insertEntry (h : Matches hash c m inUse) (key : Bytes) (value : Value)
    (charge : U64) (deleter : Deleter) (hcap : 0 < c.capacity)
    (hfits : (m.erase key).usage + charge.toNat < 2 ^ 64) :
    (∃ c' inUse', c.insertEntry key (hash key) value charge deleter = .ok (c.heap.nextPtr, c')
        ∧ Matches hash c' ((m.erase key).add key c.heap.nextPtr charge.toNat) inUse')
      ∨ c.table.elems.toNat = 2 ^ 31
        ∧ c.insertEntry key (hash key) value charge deleter = .error .endless := by
  refine (h.stored.insertNew key value charge deleter hcap).imp_left ?_
  rintro ⟨r, c', hok, hfound, hstored⟩
  obtain rfl := hfound.unique (h.found key)
  set p := c.heap.nextPtr with hp
  obtain ⟨-, e, horigin, hevolves⟩ := evolves_insertEntry hok
  -- the items of the new entry and of the others
  have hnew : (c.withEntry e).heap.item p = ⟨key, p, charge.toNat⟩ := by
    have hkey : e.keyData = key := congrArg Origin.key horigin
    have hcharge : e.charge = charge := congrArg Origin.charge horigin
    have he : (c.withEntry e).heap.entries p = some e := Function.update_self _ _ _
    rw [Heap.item_of_some he, hkey, hcharge]
  have hold : ∀ q, q ≠ p → (c.withEntry e).heap.item q = c.heap.item q := by
    intro q hq
    have he : (c.withEntry e).heap.entries q = c.heap.entries q := Function.update_of_ne hq _ _
    simp only [Heap.item, Heap.keyOf, Heap.chargeOf, he]
  have hgone := h.stored.core.gone p h.stored.core.nextPtr_not_mem
  have hheld : Function.update m.held p 1 = ((m.erase key).add key p charge.toNat).held := by
    show _ = Function.update (m.erase key).held p ((m.erase key).held p + 1)
    rw [LruMap.held_erase, hgone.1]
  have hitems := h.items_erase key
  set lru' := (m.lookUp key).elim m.unheld m.unheld.erase with hlru'
  set inUse' := (m.lookUp key).elim inUse inUse.erase with hinUse'
  have hpnot : p ∉ lru' ++ inUse' := by
    have hnodup := hstored.core.nodup
    rw [← List.append_assoc] at hnodup
    exact fun hm => (List.nodup_append'.mp hnodup).2.2 hm (List.mem_singleton_self p)
  refine ⟨c', inUse' ++ [p], hok, ?_, ?_, ?_, ?_⟩
  · rw [← hheld]
    have hunheld : ((m.erase key).add key p charge.toNat).unheld = lru' := LruMap.unheld_erase
    rw [hunheld]
    exact hstored
  · rw [hevolves.capacity]
    exact h.capacity.trans LruMap.capacity_erase.symm
  · have hitem : ∀ q ∈ lru' ++ (inUse' ++ [p]), c'.heap.item q = (c.withEntry e).heap.item q := by
      intro q hq
      obtain ⟨e', he'⟩ := hstored.core.exists_entry hq
      exact hevolves.item he'
    have hsame : (lru' ++ inUse').map c'.heap.item = (lru' ++ inUse').map c.heap.item := by
      refine List.map_congr_left fun q hq => ?_
      have hqp : q ≠ p := fun he => hpnot (he ▸ hq)
      rw [hitem q (by rw [← List.append_assoc]; exact List.mem_append_left _ hq), hold q hqp]
    show (_ :: (m.erase key).items).Perm (((m.erase key).unheld ++ (inUse' ++ [p])).map c'.heap.item)
    rw [LruMap.unheld_erase, ← List.append_assoc, List.map_append, ← hlru', hsame, List.map_cons,
      List.map_nil, hitem p (by simp), hnew]
    exact (hitems.cons _).trans (List.perm_append_singleton _ _).symm
  · show charge.toNat + (m.erase key).usage < 2 ^ 64
    omega

/-- **`insert`** -/
theorem Matches.insert (h : Matches hash c m inUse) (key : Bytes) (value : Value) (charge : U64)
    (deleter : Deleter) (hcap : 0 < c.capacity)
    (hfits : (m.erase key).usage + charge.toNat < 2 ^ 64) :
    (∃ c' inUse', c.insert .empty key (hash key) value charge deleter = .ok (c.heap.nextPtr, c')
        ∧ Matches hash c' (m.insert key c.heap.nextPtr charge.toNat) inUse')
      ∨ c.table.elems.toNat = 2 ^ 31
        ∧ c.insert .empty key (hash key) value charge deleter = .error .endless := by
  rw [LruCache.insert, RawFunction.assign, ok_bind]
  rcases h.insertEntry key value charge deleter hcap hfits with ⟨c₁, inUse', hok, h₁⟩ | ⟨hmax, herror⟩
  · obtain ⟨c', hloop, hmatches⟩ := h₁.evict
    left
    refine ⟨c', inUse', ?_, hmatches⟩
    rw [hok, ok_bind]
    simp only [hloop]
    rfl
  · right
    exact ⟨hmax, by rw [herror]; rfl⟩

/-! ## Histories -/

variable {capacity : U64} {st st' : Run} {trace : List (Call × Option Ptr)}

theorem Matches.lookUp_bounded {key : Bytes} (h : Matches hash st.cache m inUse)
    (hheld : st.held = m.held) (hcall : st.Bounded (.lookUp key)) :
    ∃ c' inUse', st.cache.lookUp key (hash key) = .ok (m.lookUp key, c')
      ∧ Matches hash c' ((m.lookUp key).elim m m.ref) inUse' := by
  have hstored := h.stored
  rw [← hheld] at hstored
  refine h.lookUp key ?_
  rw [← hheld]
  exact hstored.lt_of_bounded hcall

/-- **A step** of the cache is the step of the map. -/
theorem Matches.step (h : Matches hash st.cache m inUse) (hheld : st.held = m.held)
    (hcap : 0 < st.cache.capacity) (call : Call) (hcall : st.Bounded call) (hfits : Fits m call) :
    (∃ r st' inUse', st.answer hash call = .ok r ∧ st.step hash call = .ok st'
        ∧ Matches hash st'.cache (mapStep m (call, r)) inUse'
        ∧ st'.held = (mapStep m (call, r)).held)
      ∨ (∃ raw key value charge deleter, call = .insert raw key value charge deleter)
        ∧ st.cache.table.elems.toNat = 2 ^ 31 ∧ st.step hash call = .error .endless := by
  cases call with
  | insert raw key value charge deleter =>
      obtain rfl : raw = .empty := hcall
      rcases h.insert key value charge deleter hcap hfits with
        ⟨c', inUse', hok, hmatches⟩ | ⟨hmax, herror⟩
      · left
        set p := st.cache.heap.nextPtr with hp
        refine ⟨some p, ⟨c', Function.update st.held p (st.held p + 1)⟩, inUse', ?_, ?_, hmatches, ?_⟩
        · rw [Run.answer, hok]
          rfl
        · rw [Run.step, hok]
          rfl
        · show Function.update st.held p _ = (m.insert key p charge.toNat).held
          rw [LruMap.held_insert, hheld]
      · right
        exact ⟨⟨.empty, key, value, charge, deleter, rfl⟩, hmax, by rw [Run.step, herror]; rfl⟩
  | lookUp key =>
      obtain ⟨c', inUse', hok, hmatches⟩ := h.lookUp_bounded hheld hcall
      left
      refine ⟨m.lookUp key, ⟨c', (m.lookUp key).elim st.held fun p =>
        Function.update st.held p (st.held p + 1)⟩, inUse', ?_, ?_, hmatches, ?_⟩
      · rw [Run.answer, hok]
        rfl
      · rw [Run.step, hok]
        rfl
      · show (m.lookUp key).elim st.held _ = ((m.lookUp key).elim m m.ref).held
        rw [hheld]
        cases m.lookUp key <;> rfl
  | release p =>
      have hp : 0 < m.held p := hheld ▸ hcall
      obtain ⟨c', inUse', hok, hmatches⟩ := h.release hp
      left
      refine ⟨none, ⟨c', Function.update st.held p (st.held p - 1)⟩, inUse', rfl, ?_, hmatches, ?_⟩
      · rw [Run.step, hok]
        rfl
      · show Function.update st.held p _ = Function.update m.held p _
        rw [hheld]
  | erase key =>
      obtain ⟨c', inUse', hok, hmatches⟩ := h.erase key
      left
      refine ⟨none, ⟨c', st.held⟩, inUse', rfl, ?_, hmatches, ?_⟩
      · rw [Run.step, hok]
        rfl
      · exact hheld.trans LruMap.held_erase.symm
  | prune =>
      obtain ⟨c', hok, hmatches⟩ := h.prune
      left
      refine ⟨none, ⟨c', st.held⟩, inUse, rfl, ?_, hmatches, ?_⟩
      · rw [Run.step, hok]
        rfl
      · exact hheld.trans LruMap.held_prune.symm

/-- The capacity is set once. -/
theorem mapStep_capacity (m : LruMap Bytes Ptr) (x : Call × Option Ptr) :
    (mapStep m x).capacity = m.capacity := by
  obtain ⟨call, r⟩ := x
  cases call with
  | insert raw key value charge deleter =>
      cases r with
      | none => rfl
      | some p => exact LruMap.capacity_insert key charge.toNat
  | lookUp key =>
      show ((m.lookUp key).elim m m.ref).capacity = m.capacity
      cases m.lookUp key <;> rfl
  | release p => rfl
  | erase key => exact LruMap.capacity_erase
  | prune => exact LruMap.capacity_foldl_drop m.unheld

theorem mapOf_concat (capacity : U64) (trace : List (Call × Option Ptr)) (x : Call × Option Ptr) :
    mapOf capacity (trace ++ [x]) = mapStep (mapOf capacity trace) x := by
  rw [mapOf, mapOf, List.foldl_append, List.foldl_cons, List.foldl_nil]

theorem new_matches (hash : Bytes → U32) (capacity : U64) {c : LruCache}
    (hnew : LruCache.new capacity = .ok c) : Matches hash c (.new capacity.toNat) [] := by
  obtain ⟨c', hc', hstored⟩ := new_stored hash capacity
  obtain rfl := Except.ok.inj (hnew.symm.trans hc')
  obtain ⟨table, -, hok⟩ := bind_eq_ok.mp hnew
  cases hok
  exact ⟨hstored, rfl, List.Perm.refl _, Nat.two_pow_pos 64⟩

theorem Matches.capacity_pos (h : Matches hash c m inUse) (hcap : 0 < capacity)
    (hm : m.capacity = capacity.toNat) : 0 < c.capacity := by
  rw [BitVec.lt_def, h.capacity, hm]
  exact BitVec.lt_def.mp hcap

/-- **A history** of the cache is one of the map. -/
theorem Traced.matches (hcap : 0 < capacity) (h : Traced Run.Bounded hash capacity trace st) :
    ∃ inUse, Matches hash st.cache (mapOf capacity trace) inUse
      ∧ st.held = (mapOf capacity trace).held
      ∧ (mapOf capacity trace).capacity = capacity.toNat := by
  induction h with
  | new hnew => exact ⟨[], new_matches hash capacity hnew, rfl, rfl⟩
  | @step trace st st' r call _ hcall hfits hanswer hstep ih =>
      obtain ⟨inUse, hmatches, hheld, hm⟩ := ih
      rcases hmatches.step hheld (hmatches.capacity_pos hcap hm) call hcall hfits with
        ⟨r', st₁, inUse', hanswer', hstep', hmatches', hheld'⟩ | ⟨-, -, herror⟩
      · obtain rfl := Except.ok.inj (hanswer.symm.trans hanswer')
        obtain rfl := Except.ok.inj (hstep.symm.trans hstep')
        rw [mapOf_concat]
        exact ⟨inUse', hmatches', hheld', (mapStep_capacity _ _).trans hm⟩
      · rw [hstep] at herror
        cases herror

/-! ## What clients see -/

theorem Matches.mem_items (h : Matches hash c m inUse) (i : LruMap.Item Bytes Ptr) :
    i ∈ m.items ↔ ∃ e, c.heap.entries i.handle = some e ∧ e.inCache = true
      ∧ i.key = e.keyData ∧ i.charge = e.charge.toNat := by
  rw [h.items.mem_iff, List.mem_map]
  constructor
  · rintro ⟨p, hp, rfl⟩
    obtain ⟨e, he, hc⟩ := h.stored.mem_iff.mp (List.mem_toFinset.mpr hp)
    rw [Heap.item_of_some he]
    exact ⟨e, he, hc, rfl, rfl⟩
  · rintro ⟨e, he, hc, hkey, hcharge⟩
    have hp := List.mem_toFinset.mp (h.stored.mem_iff.mpr ⟨e, he, hc⟩)
    refine ⟨i.handle, hp, ?_⟩
    rw [Heap.item_of_some he, ← hkey, ← hcharge]

/-- The queue holds what nobody holds. -/
theorem Matches.mem_unheld (h : Matches hash c m inUse) :
    p ∈ m.unheld ↔ p ∈ m.handles ∧ m.held p = 0 := by
  rw [h.handles.mem_iff]
  constructor
  · intro hp
    obtain ⟨e, he⟩ := h.stored.core.exists_entry (List.mem_append_left inUse hp)
    have hok := h.stored.core.entry p e he
    obtain ⟨hc, hone⟩ := hok.lru.mp hp
    have hrefs := hok.refs
    rw [hc, if_pos rfl] at hrefs
    exact ⟨List.mem_append_left _ hp, by omega⟩
  · rintro ⟨hp, hzero⟩
    obtain ⟨e, he, hc⟩ := h.stored.mem_iff.mp (List.mem_toFinset.mpr hp)
    have hok := h.stored.core.entry p e he
    have hrefs := hok.refs
    rw [hc, if_pos rfl] at hrefs
    exact hok.lru.mpr ⟨hc, by omega⟩

theorem Matches.like (h : Matches hash st.cache m inUse) (hheld : st.held = m.held) :
    Like hash st m where
  lookUp := by
    intro key hcall
    obtain ⟨c', inUse', hok, -⟩ := h.lookUp_bounded hheld hcall
    rw [Run.answer, hok]
    rfl
  cached := h.mem_items
  usage := h.usage
  queue := fun _ => h.mem_unheld
  held := hheld

/-- **What an `insert` evicts**, from the map `m` that has the new item: the items that nobody holds,
in the order in which they became so, until the charges fit or nothing is left to evict. -/
def Evicts (capacity : U64) (m m' : LruMap Bytes Ptr) : Prop :=
  ∃ gone kept, m.unheld = gone ++ kept ∧ m' = gone.foldl LruMap.drop m ∧ m'.unheld = kept
    ∧ (∀ l, l <+: gone → l ≠ gone → capacity.toNat < (l.foldl LruMap.drop m).usage)
    ∧ (m'.usage ≤ capacity.toNat ∨ kept = [])

theorem evicts_of_insert (hm : m.capacity = capacity.toNat) (key : Bytes) (p : Ptr) (charge : Nat) :
    Evicts capacity ((m.erase key).add key p charge) (m.insert key p charge) := by
  have hcap : ((m.erase key).add key p charge).capacity = capacity.toNat :=
    LruMap.capacity_erase.trans hm
  have hevict := ((m.erase key).add key p charge).evict_eq
  rw [hcap] at hevict
  exact hevict

/-- **The cache is a map with eviction.** Calls return, but for an `insert` that would be the
2^31 + 1st element of the table, and after an `insert` the charges fit the capacity or every entry
of the cache is held. -/
theorem like_of_traced (hcap : 0 < capacity) (h : Traced Run.Bounded hash capacity trace st) :
    Like hash st (mapOf capacity trace)
    ∧ (∀ call, st.Bounded call → Fits (mapOf capacity trace) call →
      (∃ r st', st.answer hash call = .ok r ∧ st.step hash call = .ok st')
        ∨ (∃ raw key value charge deleter, call = .insert raw key value charge deleter)
          ∧ st.cache.table.elems.toNat = 2 ^ 31 ∧ st.step hash call = .error .endless)
    ∧ ∀ before raw key value charge deleter p,
      trace = before ++ [(.insert raw key value charge deleter, some p)] →
      Evicts capacity (((mapOf capacity before).erase key).add key p charge.toNat)
        (mapOf capacity trace)
      ∧ (st.cache.usage ≤ st.cache.capacity
        ∨ ∀ q e, st.cache.heap.entries q = some e → e.inCache = true → 0 < st.held q) := by
  obtain ⟨inUse, hmatches, hheld, hm⟩ := h.matches hcap
  have hlike := hmatches.like hheld
  refine ⟨hlike, fun call hcall hfits => ?_, ?_⟩
  · refine (hmatches.step hheld (hmatches.capacity_pos hcap hm) call hcall hfits).imp_left ?_
    exact fun ⟨r, st', _, hanswer, hstep, _⟩ => ⟨r, st', hanswer, hstep⟩
  · intro before raw key value charge deleter p htrace
    have hevicts : Evicts capacity (((mapOf capacity before).erase key).add key p charge.toNat)
        (mapOf capacity trace) := by
      rw [htrace, mapOf_concat]
      refine evicts_of_insert ?_ key p charge.toNat
      rw [htrace, mapOf_concat, mapStep_capacity] at hm
      exact hm
    refine ⟨hevicts, ?_⟩
    obtain ⟨-, kept, -, -, hkept, -, hend⟩ := hevicts
    refine hend.imp (fun hle => ?_) fun hnil q e he hc => ?_
    · rw [BitVec.le_def, hmatches.capacity, hlike.usage, hm]
      exact hle
    · have hitem : ⟨e.keyData, q, e.charge.toNat⟩ ∈ (mapOf capacity trace).items :=
        (hlike.cached _).mpr ⟨e, he, hc, rfl, rfl⟩
      have hq : q ∉ (mapOf capacity trace).unheld := by
        rw [hkept, hnil]
        exact List.not_mem_nil
      rw [hlike.queue, ← hlike.held] at hq
      exact Nat.pos_of_ne_zero fun hzero => hq ⟨List.mem_map_of_mem hitem, hzero⟩

/-- An entry is given back, and evicted for the next one. -/
theorem like_evict :
    ∃ trace st, Traced Run.Bounded (fun _ => 0) 1 trace st
      ∧ trace = [(.insert .empty [] 7 1 0, some 2), (.release 2, none),
        (.insert .empty [1] 8 1 0, some 3)]
      ∧ (mapOf 1 trace).items = [⟨[1], 3, 1⟩] ∧ Like (fun _ => 0) st (mapOf 1 trace) := by
  obtain ⟨c, hnew, hinsert⟩ := insert_pinned
  obtain ⟨c₁, c₂, hrelease, hinsert₂, -, -⟩ := evict_pinned
  have h₁ : Traced Run.Bounded (fun _ => 0) 1 [(.insert .empty [] 7 1 0, some 2)]
      ⟨pinned 2, Function.update (fun _ => 0) 2 1⟩ :=
    .step (.insert .empty [] 7 1 0) (.new hnew) rfl
      (show ((mapOf 1 []).erase []).usage + (1 : U64).toNat < 2 ^ 64 by decide)
      (by rw [Run.answer, hinsert]; rfl) (by rw [Run.step, hinsert]; rfl)
  have h₂ : Traced Run.Bounded (fun _ => 0) 1 [(.insert .empty [] 7 1 0, some 2), (.release 2, none)]
      ⟨c₁, Function.update (Function.update (fun _ => 0) 2 1) 2 0⟩ :=
    h₁.step (.release 2) Nat.zero_lt_one trivial rfl (by rw [Run.step, hrelease]; rfl)
  have h₃ : Traced Run.Bounded (fun _ => 0) 1
      [(.insert .empty [] 7 1 0, some 2), (.release 2, none), (.insert .empty [1] 8 1 0, some 3)]
      ⟨c₂, Function.update (Function.update (Function.update (fun _ => 0) 2 1) 2 0) 3 1⟩ :=
    h₂.step (.insert .empty [1] 8 1 0) rfl (show (2 : Nat) < 2 ^ 64 by decide)
      (by rw [Run.answer, hinsert₂]; rfl) (by rw [Run.step, hinsert₂]; rfl)
  exact ⟨_, _, h₃, rfl, rfl, (like_of_traced (by decide) h₃).1⟩

/-! ## Too many handles -/

/-- The map of `pinnedRun n`. -/
def pinnedMap (n : Nat) : LruMap Bytes Ptr :=
  ⟨1, [⟨[], 2, 1⟩], [], Function.update (fun _ => 0) 2 (n + 1)⟩

theorem mapStep_pinnedMap (n : Nat) (r : Option Ptr) :
    mapStep (pinnedMap n) (.lookUp [], r) = pinnedMap (n + 1) := by
  show (⟨1, [⟨[], 2, 1⟩], [], Function.update (Function.update (fun _ => 0) 2 (n + 1)) 2
    (Function.update (fun _ => 0) 2 (n + 1) 2 + 1)⟩ : LruMap Bytes Ptr) = _
  rw [Function.update_idem, Function.update_self]
  rfl

theorem traced_pinnedRun (n : Nat) :
    ∃ trace, Traced Run.Permitted (fun _ => 0) 1 trace (pinnedRun n) ∧ mapOf 1 trace = pinnedMap n := by
  induction n with
  | zero =>
      obtain ⟨c, hnew, hinsert⟩ := insert_pinned
      refine ⟨[(.insert .empty [] 7 1 0, some 2)], ?_, rfl⟩
      refine Traced.step (.insert .empty [] 7 1 0) (.new hnew) rfl ?_ ?_ ?_
      · show ((mapOf 1 []).erase []).usage + (1 : U64).toNat < 2 ^ 64
        decide
      · rw [Run.answer, hinsert]
        rfl
      · rw [Run.step, hinsert]
        rfl
  | succ n ih =>
      obtain ⟨trace, htraced, hmap⟩ := ih
      refine ⟨trace ++ [(.lookUp [], some 2)], ?_, ?_⟩
      · refine htraced.step (.lookUp []) trivial trivial ?_ (step_pinnedRun n)
        rw [Run.answer, pinnedRun, lookUp_pinned]
        rfl
      · rw [mapOf_concat, hmap, mapStep_pinnedMap]

/-- **One entry and 2^32 + 1 handles to it**: the first of them that is given back puts the entry into
`lru_`, and the next `insert` evicts it. -/
theorem exists_traced_not_like :
    ∃ trace st, Traced Run.Permitted (fun _ => 0) 1 trace st ∧ st.held 2 = 2 ^ 32
      ∧ (mapOf 1 trace).lookUp [] = some 2 ∧ st.answer (fun _ => 0) (.lookUp []) = .ok none
      ∧ ¬ Like (fun _ => 0) st (mapOf 1 trace) := by
  obtain ⟨n, hn, hpinned⟩ : ∃ n, n = 2 ^ 32 ∧ (pinnedRun n).cache = pinned 2 :=
    ⟨_, rfl, pinnedRun_wrap⟩
  obtain ⟨trace, htraced, hmap⟩ := traced_pinnedRun n
  obtain ⟨c₁, c₂, hrelease, hinsert, hlook, hgone⟩ := evict_pinned
  have hheld : (pinnedRun n).held = Function.update (fun _ => 0) 2 (n + 1) := rfl
  -- the handle that is given back
  have hstep₁ : (pinnedRun n).step (fun _ => 0) (.release 2)
      = .ok ⟨c₁, Function.update (fun _ => 0) 2 n⟩ := by
    rw [Run.step, hpinned, hrelease, hheld, Function.update_idem, Function.update_self]
    rfl
  have hpermitted : (pinnedRun n).Permitted (.release 2) := by
    show 0 < (pinnedRun n).held 2
    rw [hheld, Function.update_self]
    omega
  have htraced₁ := htraced.step (.release 2) hpermitted trivial rfl hstep₁
  have hmap₁ : mapOf 1 (trace ++ [(.release 2, none)])
      = ⟨1, [⟨[], 2, 1⟩], [], Function.update (fun _ => 0) 2 n⟩ := by
    have hone : ¬ ((2 : Ptr) ∈ (pinnedMap n).handles ∧ (pinnedMap n).held 2 = 1) := by
      have hcount : (pinnedMap n).held = Function.update (fun _ => 0) 2 (n + 1) := rfl
      rintro ⟨-, hlast⟩
      rw [hcount, Function.update_self] at hlast
      omega
    rw [mapOf_concat, hmap]
    show LruMap.release (pinnedMap n) 2 = _
    rw [LruMap.release, if_neg hone]
    simp only [pinnedMap, Function.update_idem, Function.update_self, Nat.add_sub_cancel]
  -- the other key
  have hstep₂ : Run.step (fun _ => 0) ⟨c₁, Function.update (fun _ => 0) 2 n⟩ (.insert .empty [1] 8 1 0)
      = .ok ⟨c₂, Function.update (Function.update (fun _ => 0) 2 n) 3 1⟩ := by
    rw [Run.step, hinsert]
    rfl
  have hfits : Fits (mapOf 1 (trace ++ [(.release 2, none)])) (.insert .empty [1] 8 1 0) := by
    rw [hmap₁]
    exact Nat.lt_of_le_of_lt (le_refl 2) (by omega)
  have htraced₂ := htraced₁.step (.insert .empty [1] 8 1 0) rfl hfits
    (by rw [Run.answer, hinsert]; rfl) hstep₂
  have hmap₂ : (mapOf 1 (trace ++ [(.release 2, none)] ++ [(.insert .empty [1] 8 1 0, some 3)])).items
      = [⟨[1], 3, 1⟩, ⟨[], 2, 1⟩] := by
    rw [mapOf_concat, hmap₁]
    rfl
  refine ⟨_, _, htraced₂, ?_, ?_, ?_, fun hlike => ?_⟩
  · rw [← hn]
    rfl
  · rw [LruMap.lookUp, hmap₂]
    rfl
  · rw [Run.answer, hlook]
    rfl
  · have hitem := (hlike.cached ⟨[], 2, 1⟩).mp (by rw [hmap₂]; simp)
    obtain ⟨e, he, -⟩ := hitem
    rw [hgone] at he
    cases he

end SimpleLeveldb.Cache
