import SimpleLeveldb.Cache.Table

set_option autoImplicit false

/-! # The operations of the cache

`Stored` joins the invariant of the lists with the one of the hash table: the table holds exactly
the entries of the two lists. Every operation keeps it. The loop of `insert` and `prune` is
reasoned about with the number of elements of the table as its variant.
-/

namespace SimpleLeveldb.Cache

variable {hash : Bytes → U32} {c : LruCache} {held : Ptr → Nat} {lru inUse : List Ptr} {p : Ptr}

/-- **The invariant of the cache** -/
structure Stored (hash : Bytes → U32) (c : LruCache) (held : Ptr → Nat) (lru inUse : List Ptr) :
    Prop where
  core : Core hash c held lru inUse
  tabled : c.table.Tabled c.heap (lru ++ inUse).toFinset

/-! ## Entries of the lists -/

theorem Core.readable (h : Core hash c held lru inUse) :
    ∀ p ∈ (lru ++ inUse).toFinset, HandleTable.Readable c.heap p := by
  intro p hp
  obtain ⟨e, he⟩ := h.exists_entry (List.mem_toFinset.mp hp)
  refine ⟨⟨e, he⟩, fun hnext => ?_⟩
  rw [h.next p hnext] at he
  cases he

/-- A key comes with one hash. -/
theorem Core.hashOf (h : Core hash c held lru inUse) (hp : p ∈ lru ++ inUse) :
    c.heap.hashOf p = hash (c.heap.keyOf p) := by
  obtain ⟨e, he⟩ := h.exists_entry hp
  have hok := h.entry p e he
  simp [Heap.hashOf, Heap.keyOf, he, hok.hash]

theorem Core.nodup (h : Core hash c held lru inUse) : (lru ++ inUse).Nodup := by
  refine List.nodup_append.mpr ⟨(List.nodup_cons.mp h.rings.left.nodup).2,
    (List.nodup_cons.mp h.rings.right.nodup).2, fun p hl q hu he => ?_⟩
  exact h.rings.disjoint (List.mem_cons_of_mem _ hl) (he ▸ List.mem_cons_of_mem _ hu)

theorem Core.toFinset_erase (h : Core hash c held lru inUse) (hp : p ∈ lru ++ inUse) :
    (lru ++ inUse).toFinset.erase p = (lru.erase p ++ inUse.erase p).toFinset := by
  have hperm := h.erase_perm hp
  have hnot : p ∉ (lru.erase p ++ inUse.erase p).toFinset := by
    rw [List.mem_toFinset]
    exact (List.nodup_cons.mp (hperm.nodup_iff.mp h.nodup)).1
  rw [List.toFinset_eq_of_perm _ _ hperm, List.toFinset_cons, Finset.erase_insert hnot]

/-- The table is not mentioned. -/
theorem Core.withTable (h : Core hash c held lru inUse) (table : HandleTable) :
    Core hash { c with table := table } held lru inUse :=
  ⟨h.rings, h.entry, h.gone, h.next, h.usage, h.fresh, h.heads⟩

/-- The elements of the table keep their places when the keys and hashes stay. -/
theorem Stored.of_sameKeys {c' : LruCache} {held' : Ptr → Nat} {lru' inUse' : List Ptr}
    {heap : Heap} {s : Finset Ptr} (hcore : Core hash c' held' lru' inUse')
    (htable : c'.table.Tabled heap s) (hs : s = (lru' ++ inUse').toFinset)
    (hkeys : heap.SameKeys c'.heap (lru' ++ inUse')) : Stored hash c' held' lru' inUse' := by
  refine ⟨hcore, ?_⟩
  rw [← hs]
  refine htable.congr fun p hp => hkeys p ?_
  rwa [hs, List.mem_toFinset] at hp

/-! ## `look_up` and `release` -/

theorem Stored.lookUp_eq (h : Stored hash c held lru inUse) (key : Bytes) :
    ∃ r, HandleTable.Found c.heap (lru ++ inUse).toFinset key (hash key) r
      ∧ c.lookUp key (hash key)
        = r.elim (.ok (none, c)) fun p => do return (some p, ← c.ref p) := by
  obtain ⟨r, hr, hfound⟩ := h.tabled.lookUp h.core.readable key (hash key)
  refine ⟨r, hfound, ?_⟩
  rw [LruCache.lookUp, hr, ok_bind]
  cases r <;> rfl

/-- **`look_up`** hands out one more reference to the entry that it finds. -/
theorem Stored.lookUp (h : Stored hash c held lru inUse) (key : Bytes)
    (hlt : ∀ p ∈ lru ++ inUse, c.heap.keyOf p = key → held p + 2 < 2 ^ 32) :
    ∃ r c' inUse', c.lookUp key (hash key) = .ok (r, c')
      ∧ HandleTable.Found c.heap (lru ++ inUse).toFinset key (hash key) r
      ∧ Stored hash c' (r.elim held fun p => Function.update held p (held p + 1))
        (r.elim lru lru.erase) inUse'
      ∧ (r.elim lru lru.erase ++ inUse').Perm (lru ++ inUse)
      ∧ c.heap.SameKeys c'.heap (lru ++ inUse) := by
  obtain ⟨r, hfound, heq⟩ := h.lookUp_eq key
  cases r with
  | none => exact ⟨none, c, inUse, heq, hfound, h, List.Perm.refl _, fun _ _ => ⟨rfl, rfl⟩⟩
  | some p =>
      obtain ⟨hp, -, hkey⟩ := (hfound p).mp rfl
      rw [List.mem_toFinset] at hp
      obtain ⟨c', inUse', href, hcore, hperm, htable, hkeys⟩ := h.core.ref hp (hlt p hp hkey)
      refine ⟨some p, c', inUse', ?_, hfound, ?_, hperm, hkeys⟩
      · rw [heq]
        show (do return (some p, ← c.ref p)) = Except.ok (some p, c')
        rw [href]
        rfl
      · exact Stored.of_sameKeys hcore (htable ▸ h.tabled)
          (List.toFinset_eq_of_perm _ _ hperm.symm) fun q hq => hkeys q (hperm.mem_iff.mp hq)

/-- **`release`** -/
theorem Stored.release (h : Stored hash c held lru inUse) (hp : 0 < held p) :
    ∃ c' lru' inUse', c.release p = .ok c'
      ∧ Stored hash c' (Function.update held p (held p - 1)) lru' inUse'
      ∧ lru' = (if p ∈ lru ++ inUse ∧ held p = 1 then lru ++ [p] else lru)
      ∧ (lru' ++ inUse').Perm (lru ++ inUse) := by
  obtain ⟨c', lru', inUse', hrel, hcore, hlru, hperm, htable, hkeys⟩ := h.core.release hp
  refine ⟨c', lru', inUse', hrel, ?_, hlru, hperm⟩
  exact Stored.of_sameKeys hcore (htable ▸ h.tabled)
    (List.toFinset_eq_of_perm _ _ hperm.symm) fun q hq => hkeys q (hperm.mem_iff.mp hq)

/-! ## `erase` -/

/-- **`finish_erase( table_.remove( key, hash ) )`** -/
theorem Stored.removeEntry (h : Stored hash c held lru inUse) (key : Bytes) (hk : U32) :
    ∃ r table c', c.table.remove c.heap key hk = .ok (r, table)
      ∧ HandleTable.Found c.heap (lru ++ inUse).toFinset key hk r
      ∧ LruCache.finishErase { c with table := table } r = .ok (r.isSome, c')
      ∧ Stored hash c' held (r.elim lru lru.erase) (r.elim inUse inUse.erase) := by
  obtain ⟨r, table, hremove, hfound, hnone, hsome⟩ := h.tabled.remove h.core.readable key hk
  refine ⟨r, table, ?_⟩
  cases r with
  | none =>
      have htable := hnone rfl
      exact ⟨{ c with table := table }, hremove, hfound, rfl, h.core.withTable table, htable ▸ h.tabled⟩
  | some p =>
      have hp := List.mem_toFinset.mp ((hfound p).mp rfl).1
      obtain ⟨c', herase, hcore, htable, hkeys⟩ := (h.core.withTable table).finishErase hp
      refine ⟨c', hremove, hfound, herase, ?_⟩
      exact Stored.of_sameKeys hcore (htable ▸ hsome p rfl) (h.core.toFinset_erase hp) hkeys

/-- **`erase`** -/
theorem Stored.erase (h : Stored hash c held lru inUse) (key : Bytes) (hk : U32) :
    ∃ r c', c.erase key hk = .ok c'
      ∧ HandleTable.Found c.heap (lru ++ inUse).toFinset key hk r
      ∧ Stored hash c' held (r.elim lru lru.erase) (r.elim inUse inUse.erase) := by
  obtain ⟨r, table, c', hremove, hfound, herase, hstored⟩ := h.removeEntry key hk
  refine ⟨r, c', ?_, hfound, hstored⟩
  rw [LruCache.erase, hremove, ok_bind]
  simp only [herase]
  rfl

/-- **One turn of the loops of `insert` and `prune`** takes the oldest entry out of `lru_`. -/
theorem Stored.eraseOldest (h : Stored hash c held (p :: lru) inUse) :
    ∃ c', c.eraseOldest p = .ok c' ∧ Stored hash c' held lru inUse := by
  have hp : p ∈ (p :: lru) ++ inUse := by simp
  obtain ⟨e, he⟩ := h.core.exists_entry hp
  have hok := h.core.entry p e he
  have hone : e.refs = 1 := by
    rw [← BitVec.toNat_inj]
    exact (hok.lru.mp List.mem_cons_self).2
  have hnext : c.heap.links.next p ≠ some p := (h.core.readable p (List.mem_toFinset.mpr hp)).2
  have hkey : c.heap.keyOf p = e.keyData := by simp [Heap.keyOf, he]
  have hhash : c.heap.hashOf p = e.hash := by simp [Heap.hashOf, he]
  obtain ⟨r, table, c', hremove, hfound, herase, hstored⟩ := h.removeEntry e.keyData e.hash
  obtain rfl : r = some p := (hfound p).mpr ⟨List.mem_toFinset.mpr hp, hhash, hkey⟩
  have hnotuse : p ∉ inUse := fun hu => by
    have := (hok.inUse.mp hu).2
    rw [hone] at this
    exact absurd this (by decide)
  refine ⟨c', ?_, by simpa [List.erase_of_not_mem hnotuse] using hstored⟩
  rw [LruCache.eraseOldest, Heap.read, he, ok_bind, require_of hone, ok_bind,
    Heap.key_spec he hnext, ok_bind, hremove, ok_bind]
  simp only [herase]
  rfl

/-! ## The loop of `insert` and `prune` -/

/-- The elements of the table are entries, at different addresses. -/
theorem Stored.elems_lt (h : Stored hash c held lru inUse) :
    c.table.elems.toNat < c.heap.nextPtr + 1 := by
  have hsub : (lru ++ inUse).toFinset ⊆ Finset.range c.heap.nextPtr := by
    intro p hp
    obtain ⟨e, he⟩ := h.core.exists_entry (List.mem_toFinset.mp hp)
    exact Finset.mem_range.mpr (h.core.fresh p e he).2
  have hcard := Finset.card_le_card hsub
  rw [Finset.card_range, ← h.tabled.elems] at hcard
  omega

/-- The loop stops when the condition does not hold, -/
theorem eraseTurn_of_not {more : LruCache → Bool} (hmore : more c = false) :
    LruCache.eraseTurn more c = .ok (.inr c) := by
  rw [LruCache.eraseTurn, hmore]
  rfl

/-- and when `lru_` is empty. -/
theorem Stored.eraseTurn_nil {more : LruCache → Bool} (h : Stored hash c held [] inUse)
    (hmore : more c = true) : LruCache.eraseTurn more c = .ok (.inr c) := by
  have hnext : c.heap.links.next lruHead = some lruHead := h.core.rings.left.eq_nil_iff.mp rfl
  rw [LruCache.eraseTurn, hmore, hnext]
  rfl

/-- Else the oldest entry is erased. -/
theorem Stored.eraseTurn_cons {more : LruCache → Bool} (h : Stored hash c held (p :: lru) inUse)
    (hmore : more c = true) :
    ∃ c', LruCache.eraseTurn more c = .ok (.inl c') ∧ c.eraseOldest p = .ok c'
      ∧ Stored hash c' held lru inUse := by
  have hnext : c.heap.links.next lruHead = some p := h.core.rings.left.next_head_cons
  have hne : p ≠ lruHead := fun he =>
    (List.nodup_cons.mp h.core.rings.left.nodup).1 (he ▸ List.mem_cons_self)
  obtain ⟨c', herase, hstored⟩ := h.eraseOldest
  refine ⟨c', ?_, herase, hstored⟩
  simp [LruCache.eraseTurn, hmore, hnext, deref, hne, herase]

/-- **The loop** ends, keeps the invariant, and whatever else holds of the cache and of `lru_` and
is kept by the turns. -/
theorem Stored.eraseWhile (h : Stored hash c held lru inUse) (more : LruCache → Bool)
    (P : LruCache → List Ptr → Prop) (hstart : P c lru)
    (hturn : ∀ c c' p lru, Stored hash c held (p :: lru) inUse → Stored hash c' held lru inUse →
      c.eraseOldest p = .ok c' → more c = true → P c (p :: lru) → P c' lru) :
    ∃ c' lru', LruCache.eraseWhile more c = .ok c' ∧ Stored hash c' held lru' inUse ∧ P c' lru'
      ∧ (more c' = true → lru' = []) := by
  have hbody : ∀ c : LruCache, (∃ lru, Stored hash c held lru inUse ∧ P c lru) →
      (∃ c', LruCache.eraseTurn more c = .ok (.inl c')
        ∧ (∃ lru, Stored hash c' held lru inUse ∧ P c' lru)
        ∧ c'.table.elems.toNat < c.table.elems.toNat)
      ∨ ∃ c', LruCache.eraseTurn more c = .ok (.inr c')
        ∧ ∃ lru, Stored hash c' held lru inUse ∧ P c' lru ∧ (more c' = true → lru = []) := by
    rintro c ⟨lru, hc, hP⟩
    by_cases hmore : more c = true
    · cases lru with
      | nil => exact .inr ⟨c, hc.eraseTurn_nil hmore, [], hc, hP, fun _ => rfl⟩
      | cons p lru =>
          obtain ⟨c', hok, herase, hstored⟩ := hc.eraseTurn_cons hmore
          left
          refine ⟨c', hok, ⟨lru, hstored, hturn c c' p lru hc hstored herase hmore hP⟩, ?_⟩
          rw [hstored.tabled.elems, hc.tabled.elems, List.toFinset_card_of_nodup hstored.core.nodup,
            List.toFinset_card_of_nodup hc.core.nodup]
          exact Nat.lt_succ_self _
    · have hnot : more c = false := by simpa using hmore
      exact .inr ⟨c, eraseTurn_of_not hnot, lru, hc, hP, fun hm => absurd hm hmore⟩
  obtain ⟨c', hrun, lru', hstored, hP, hend⟩ := Loop.run_of_variant Fault.endless _
    (fun c => c.table.elems.toNat) _ hbody _ c ⟨lru, h, hstart⟩ h.elems_lt
  exact ⟨c', lru', hrun, hstored, hP, hend⟩

/-- **`prune`** empties `lru_`. -/
theorem Stored.prune (h : Stored hash c held lru inUse) :
    ∃ c', c.prune = .ok c' ∧ Stored hash c' held [] inUse := by
  obtain ⟨c', lru', hprune, hstored, -, hend⟩ :=
    h.eraseWhile (fun _ => true) (fun _ _ => True) trivial fun _ _ _ _ _ _ _ _ _ => trivial
  obtain rfl := hend rfl
  exact ⟨c', hprune, hstored⟩

/-! ## `insert` -/

/-- The new entry is handed to the table, which may give back an old one. -/
theorem Stored.insertNew (h : Stored hash c held lru inUse) (key : Bytes) (value : Value)
    (charge : U64) (deleter : Deleter) (hcap : 0 < c.capacity) :
    (∃ r c', c.insertEntry key (hash key) value charge deleter = .ok (c.heap.nextPtr, c')
        ∧ HandleTable.Found c.heap (lru ++ inUse).toFinset key (hash key) r
        ∧ Stored hash c' (Function.update held c.heap.nextPtr 1) (r.elim lru lru.erase)
          (r.elim inUse inUse.erase ++ [c.heap.nextPtr]))
      ∨ c.table.elems.toNat = 2 ^ 31
        ∧ c.insertEntry key (hash key) value charge deleter = .error .endless := by
  set p := c.heap.nextPtr with hp
  set s := (lru ++ inUse).toFinset with hs
  obtain ⟨heap, happend, hentries, hcore⟩ := h.core.appendNew
    (e := ⟨value, deleter, charge, true, 2, hash key, key⟩) ⟨rfl, rfl, rfl⟩
  obtain ⟨hkeys, -⟩ := sameKeys_malloc h.core hentries
  set c₁ : LruCache := { c with heap := heap, usage := c.usage + charge } with hc₁
  have hcore₁ := hcore c₁ rfl rfl
  have hset : insert p s = (lru ++ (inUse ++ [p])).toFinset := by
    ext q
    simp [hs]
  have htabled : c.table.Tabled heap s := h.tabled.congr fun q hq => hkeys q (List.mem_toFinset.mp hq)
  have hpnot : p ∉ s := by
    rw [hs, List.mem_toFinset, List.mem_append, not_or]
    exact (h.core.gone p h.core.nextPtr_not_mem).2
  have hreadable : ∀ q ∈ insert p s, HandleTable.Readable heap q := hset ▸ hcore₁.readable
  have hhash : ∀ q ∈ insert p s, heap.hashOf q = hash (heap.keyOf q) := by
    intro q hq
    rw [hset, List.mem_toFinset] at hq
    exact hcore₁.hashOf hq
  obtain ⟨r, hfound, hinsert⟩ := htabled.insert hreadable hpnot fun q hq hkey => by
    rw [hhash q (Finset.mem_insert_of_mem hq), hhash p (Finset.mem_insert_self p s), hkey]
  have hfound' : HandleTable.Found c.heap s key (hash key) r := by
    have hkeyp : heap.keyOf p = key := by simp [Heap.keyOf, hentries, hp]
    have hhashp : heap.hashOf p = hash key := by simp [Heap.hashOf, hentries, hp]
    rw [hkeyp, hhashp] at hfound
    exact hfound.congr fun q hq => hkeys q (List.mem_toFinset.mp hq)
  rw [LruCache.insertEntry, if_pos hcap]
  simp only [Heap.malloc] at happend ⊢
  rw [← hp] at happend ⊢
  rw [happend, ok_bind]
  rcases hinsert with ⟨table, hinsert, htable⟩ | ⟨hmax, hinsert⟩
  · left
    rw [hinsert, ok_bind]
    cases r with
    | none =>
        exact ⟨none, { c₁ with table := table }, rfl, hfound', hcore₁.withTable table,
          hset ▸ htable⟩
    | some old =>
        obtain ⟨hold, -, -⟩ := (hfound old).mp rfl
        have holdp : p ≠ old := fun he => hpnot (he ▸ hold)
        have hmem : old ∈ lru ++ (inUse ++ [p]) := by
          rw [← List.mem_toFinset, ← hset]
          exact Finset.mem_insert_of_mem hold
        obtain ⟨c', herase, hcore', htable', hkeys'⟩ := (hcore₁.withTable table).finishErase hmem
        have hstored := Stored.of_sameKeys hcore' (s := insert p (s.erase old))
          (by rw [htable']; exact htable)
          (by rw [← hcore₁.toFinset_erase hmem, ← hset, Finset.erase_insert_of_ne holdp]) hkeys'
        have hlast : (inUse ++ [p]).erase old = inUse.erase old ++ [p] := by
          by_cases hu : old ∈ inUse
          · exact List.erase_append_left [p] hu
          · have hnot : old ∉ [p] := fun hm => holdp (List.mem_singleton.mp hm).symm
            rw [List.erase_of_not_mem hu, List.erase_append_right _ hu, List.erase_of_not_mem hnot]
        refine ⟨some old, c', ?_, hfound', hlast ▸ hstored⟩
        simp only [hc₁] at herase
        simp only [herase]
        rfl
  · right
    exact ⟨hmax, by rw [hinsert]; rfl⟩

/-- A cache without capacity keeps no entry. -/
theorem Stored.insertUncached (h : Stored hash c held lru inUse) (key : Bytes) (value : Value)
    (charge : U64) (deleter : Deleter) (hcap : ¬ 0 < c.capacity) :
    ∃ c', c.insertEntry key (hash key) value charge deleter = .ok (c.heap.nextPtr, c')
      ∧ Stored hash c' (Function.update held c.heap.nextPtr 1) lru inUse := by
  obtain ⟨heap, hset, hentries, hcore⟩ := h.core.mallocOnly
    (e := ⟨value, deleter, charge, false, 1, hash key, key⟩) ⟨rfl, rfl, rfl⟩
  obtain ⟨hkeys, -⟩ := sameKeys_malloc h.core hentries
  refine ⟨{ c with heap := heap }, ?_, Stored.of_sameKeys hcore h.tabled rfl hkeys⟩
  rw [LruCache.insertEntry, if_neg hcap]
  simp only [Heap.malloc] at hset ⊢
  rw [hset]
  rfl

/-- **`insert`** hands out the only client reference to a new entry, in a chunk that reads as an empty
function. It does not return when the table has 2^31 elements and none with the key. -/
theorem Stored.insert (h : Stored hash c held lru inUse) (key : Bytes) (value : Value)
    (charge : U64) (deleter : Deleter) :
    (∃ c' lru' inUse', c.insert .empty key (hash key) value charge deleter = .ok (c.heap.nextPtr, c')
        ∧ Stored hash c' (Function.update held c.heap.nextPtr 1) lru' inUse')
      ∨ c.table.elems.toNat = 2 ^ 31
        ∧ c.insert .empty key (hash key) value charge deleter = .error .endless := by
  have hstart : (∃ c' lru' inUse',
        c.insertEntry key (hash key) value charge deleter = .ok (c.heap.nextPtr, c')
        ∧ Stored hash c' (Function.update held c.heap.nextPtr 1) lru' inUse')
      ∨ c.table.elems.toNat = 2 ^ 31
        ∧ c.insertEntry key (hash key) value charge deleter = .error .endless := by
    by_cases hcap : 0 < c.capacity
    · refine (h.insertNew key value charge deleter hcap).imp_left ?_
      exact fun ⟨_, c', hinsert, _, hstored⟩ => ⟨c', _, _, hinsert, hstored⟩
    · obtain ⟨c', hinsert, hstored⟩ := h.insertUncached key value charge deleter hcap
      exact .inl ⟨c', lru, inUse, hinsert, hstored⟩
  rw [LruCache.insert, RawFunction.assign, ok_bind]
  rcases hstart with ⟨c₁, lru₁, inUse₁, hinsert, hstored⟩ | ⟨hmax, hinsert⟩
  · obtain ⟨c', lru', hloop, hstored', -, -⟩ :=
      hstored.eraseWhile (fun c => decide (c.capacity < c.usage)) (fun _ _ => True) trivial
        fun _ _ _ _ _ _ _ _ _ => trivial
    left
    refine ⟨c', lru', inUse₁, ?_, hstored'⟩
    rw [hinsert, ok_bind]
    simp only [hloop]
    rfl
  · right
    exact ⟨hmax, by rw [hinsert]; rfl⟩

/-! ## The constructor -/

theorem new_stored (hash : Bytes → U32) (capacity : U64) :
    ∃ c, LruCache.new capacity = .ok c ∧ Stored hash c (fun _ => 0) [] [] := by
  obtain ⟨table, hnew, htable⟩ := HandleTable.new_spec {
    entries := fun _ => none
    links := ⟨fun p => if p < 2 then some p else none, fun p => if p < 2 then some p else none⟩
    nextPtr := 2 }
  refine ⟨_, by rw [LruCache.new, hnew]; rfl, ?_, htable⟩
  refine ⟨⟨Ring.isRing_nil ⟨rfl, rfl⟩, Ring.isRing_nil ⟨rfl, rfl⟩, by simp [lruHead, inUseHead]⟩, nofun, ?_, ?_, rfl,
    nofun, le_rfl⟩
  · exact fun p _ => ⟨rfl, List.not_mem_nil, List.not_mem_nil⟩
  · exact fun p _ => rfl

end SimpleLeveldb.Cache
