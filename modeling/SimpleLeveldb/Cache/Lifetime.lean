import SimpleLeveldb.Cache.Sharded

set_option autoImplicit false

/-! # The lifetime of the entries

A run of the sharded cache keeps what was inserted. Each shard is a cache with a ledger of its own,
and an entry is in the shard of its hash. So the deleters are called for the entries that are gone,
which nobody holds and nobody can find; and the destructor of a cache without handles calls those
of the rest.
-/

namespace SimpleLeveldb.Cache

/-! ## The destructor -/

theorem evolves_destroyTurn {s : LruCache × Ptr} {r : (LruCache × Ptr) ⊕ LruCache}
    (hok : LruCache.destroyTurn s = .ok r) :
    Evolves s.1 (r.elim Prod.fst id) := by
  obtain ⟨c, e⟩ := s
  unfold LruCache.destroyTurn at hok
  simp only at hok
  split_ifs at hok
  · cases hok
    exact .refl c
  · obtain ⟨h, -, hok⟩ := bind_eq_ok.mp hok
    obtain ⟨next, -, hok⟩ := bind_eq_ok.mp hok
    obtain ⟨_, -, hok⟩ := bind_eq_ok.mp hok
    obtain ⟨heap, hmodify, hok⟩ := bind_eq_ok.mp hok
    obtain ⟨_, -, hok⟩ := bind_eq_ok.mp hok
    obtain ⟨c', hun, hok⟩ := bind_eq_ok.mp hok
    cases hok
    obtain ⟨e', he', rfl⟩ := Heap.modify_eq_ok hmodify
    have horigin := Heap.origin_update (h := c.heap) he'
      (c.heap.set_entries e (some { e' with inCache := false })) rfl
    refine .trans ?_ (evolves_unRef hun)
    exact .same horigin rfl rfl rfl

variable {hash : Bytes → U32} {c c' : LruCache} {held : Ptr → Nat} {lru inUse rest : List Ptr} {p : Ptr}

/-- The loop of the destructor has the entries `rest` of `lru_` ahead. -/
structure Destroying (c : LruCache) (lru rest : List Ptr) (s : LruCache × Ptr) : Prop where
  links : s.1.heap.links = c.heap.links
  suffix : rest <:+ lru
  at_head : s.2 = rest.headD lruHead
  alive : ∀ p ∈ rest, s.1.heap.entries p = c.heap.entries p
  gone : ∀ p ∉ rest, s.1.heap.entries p = none
  evolves : Evolves c s.1

variable {s : LruCache × Ptr}

/-- **One turn** frees the entry that it is at. -/
theorem Destroying.turn (hcore : Core hash c held lru inUse) (h : Destroying c lru (p :: rest) s) :
    ∃ s', LruCache.destroyTurn s = .ok (.inl s') ∧ Destroying c lru rest s' := by
  obtain ⟨c₁, q⟩ := s
  obtain ⟨done, hlru⟩ := h.suffix
  obtain rfl : q = p := h.at_head
  have hq : q ∈ lru := hlru ▸ List.mem_append_right _ List.mem_cons_self
  obtain ⟨e, he⟩ := hcore.exists_entry (List.mem_append_left inUse hq)
  have hok := hcore.entry q e he
  obtain ⟨hc, hone⟩ := hok.lru.mp hq
  have hrefs : e.refs = 1 := by
    rw [← BitVec.toNat_inj]
    exact hone
  have hhead : q ≠ lruHead := fun heq => absurd (hcore.fresh q e he).1 (heq ▸ by decide)
  have he₁ : c₁.heap.entries q = some e := (h.alive q List.mem_cons_self).trans he
  have hnext : c₁.heap.links.next q = some (rest.headD lruHead) := by
    have hpath := hcore.rings.left.path
    rw [← hlru] at hpath
    rw [h.links]
    exact (Ring.path_append.mp hpath).2.next_headD
  have hself : c₁.heap.links.next q ≠ some q := fun hn => by
    rw [h.links] at hn
    rw [hcore.next q hn] at he
    cases he
  have hnot : q ∉ rest := by
    have hnodup := (List.nodup_cons.mp hcore.rings.left.nodup).2
    rw [← hlru] at hnodup
    exact (List.nodup_cons.mp hnodup.of_append_right).1
  set c₂ : LruCache := { c₁ with heap := c₁.heap.set q (some { e with inCache := false }) } with hc₂
  have hun := unRef_of_one (c := c₂) (Function.update_self _ _ _) hone rfl hself
  set c₃ : LruCache := { c₂ with
    heap := c₂.heap.set q none
    deleted := c₂.deleted ++ [(e.deleter, e.keyData, e.value)] } with hc₃
  have hturn : LruCache.destroyTurn (c₁, q) = .ok (.inl (c₃, rest.headD lruHead)) := by
    simp only [LruCache.destroyTurn]
    rw [if_neg hhead, Heap.read, he₁, ok_bind, hnext]
    simp only [deref, ok_bind, require_of hc, require_of hrefs, Heap.modify_spec he₁]
    rw [hun]
    rfl
  have hentries : ∀ p, p ≠ q → c₃.heap.entries p = c₁.heap.entries p := by
    intro p hp
    show Function.update (Function.update c₁.heap.entries q _) q none p = _
    rw [Function.update_of_ne hp, Function.update_of_ne hp]
  refine ⟨_, hturn, h.links, (List.suffix_cons q rest).trans h.suffix, rfl, fun p hp => ?_, fun p hp => ?_,
    h.evolves.trans (evolves_destroyTurn hturn)⟩
  · rw [hentries p fun heq => hnot (heq ▸ hp)]
    exact h.alive p (List.mem_cons_of_mem q hp)
  · by_cases hpq : p = q
    · rw [hpq]
      exact Function.update_self _ _ _
    · rw [hentries p hpq]
      exact h.gone p fun hm => (List.mem_cons.mp hm).elim hpq hp

/-- **The destructor** of a cache whose entries are all in `lru_` frees them all. -/
theorem Stored.destroy (h : Stored hash c held lru [])
    (hall : ∀ p e, c.heap.entries p = some e → p ∈ lru) :
    ∃ c', c.destroy = .ok c' ∧ Evolves c c' ∧ ∀ p, c'.heap.entries p = none := by
  have hstart : Destroying c lru lru (c, lru.headD lruHead) := by
    refine ⟨rfl, List.suffix_refl lru, rfl, fun _ _ => rfl, fun p hp => ?_, .refl c⟩
    by_contra hne
    obtain ⟨e, he⟩ := Option.ne_none_iff_exists'.mp hne
    exact hp (hall p e he)
  have hbody : ∀ (m : Nat) (s : LruCache × Ptr),
      (∃ rest, Destroying c lru rest s ∧ m = rest.length) →
      (∃ s' m', LruCache.destroyTurn s = .ok (.inl s') ∧ m' < m
        ∧ ∃ rest, Destroying c lru rest s' ∧ m' = rest.length)
      ∨ ∃ c', LruCache.destroyTurn s = .ok (.inr c')
        ∧ Evolves c c' ∧ ∀ p, c'.heap.entries p = none := by
    rintro m s ⟨rest, hs, rfl⟩
    cases rest with
    | nil =>
        right
        refine ⟨s.1, ?_, hs.evolves, fun p => hs.gone p List.not_mem_nil⟩
        have hend : s.2 = lruHead := hs.at_head
        simp only [LruCache.destroyTurn, hend, if_true]
        rfl
    | cons p rest =>
        obtain ⟨s', hturn, hs'⟩ := hs.turn h.core
        exact .inl ⟨s', rest.length, hturn, Nat.lt_succ_self _, rest, hs', rfl⟩
  have hlen : lru.length < c.heap.nextPtr + 1 := by
    have hlt := h.elems_lt
    rwa [h.tabled.elems, List.toFinset_card_of_nodup h.core.nodup, List.append_nil] at hlt
  obtain ⟨c', hrun, hevolves, hgone⟩ := Loop.run_of_rank Fault.endless _ _ hbody
    (c.heap.nextPtr + 1) lru.length _ ⟨lru, hstart, rfl⟩ hlen
  refine ⟨c', ?_, hevolves, hgone⟩
  have hinUse : c.heap.links.next inUseHead = some inUseHead := h.core.rings.right.path.next_headD
  rw [LruCache.destroy, require_of hinUse, ok_bind, h.core.rings.left.path.next_headD]
  exact hrun

/-- No client holds a handle. -/
theorem Stored.unheld (h : Stored hash c held lru inUse) (hheld : ∀ p, held p = 0) :
    inUse = [] ∧ ∀ p e, c.heap.entries p = some e → p ∈ lru := by
  have hall : ∀ p e, c.heap.entries p = some e → e.inCache = true ∧ e.refs.toNat = 1 := by
    intro p e he
    have hok := h.core.entry p e he
    have hrefs := hok.refs
    have hpos := hok.pos
    rw [hheld p] at hrefs
    by_cases hc : e.inCache = true
    · rw [if_pos hc] at hrefs
      exact ⟨hc, hrefs⟩
    · rw [if_neg hc] at hrefs
      omega
  constructor
  · refine List.eq_nil_iff_forall_not_mem.mpr fun p hp => ?_
    obtain ⟨e, he⟩ := h.core.exists_entry (List.mem_append_right lru hp)
    have htwo := ((h.core.entry p e he).inUse.mp hp).2
    have hone := (hall p e he).2
    omega
  · exact fun p e he => (h.core.entry p e he).lru.mpr (hall p e he)

/-! ## Runs -/

inductive ShardedCall where
  | insert (raw : RawFunction) (key : Bytes) (value : Value) (charge : U64) (deleter : Deleter)
  | lookUp (key : Bytes)
  | release (handle : Handle)
  | erase (key : Bytes)
  | prune

/-- The sharded cache in a run, with the number of handles to each entry that clients hold, and
with everything that was inserted. -/
structure ShardedRun where
  cache : ShardedLruCache
  held : Handle → Nat := fun _ => 0
  inserted : List (Handle × Origin) := []

namespace ShardedRun

def step (st : ShardedRun) : ShardedCall → Except Fault ShardedRun
  | .insert raw key value charge deleter => do
      let (h, cache) ← st.cache.insert raw key value charge deleter
      return ⟨cache, Function.update st.held h (st.held h + 1),
        (h, ⟨key, value, charge, deleter⟩) :: st.inserted⟩
  | .lookUp key => do
      let (r, cache) ← st.cache.lookUp key
      return ⟨cache, r.elim st.held fun h => Function.update st.held h (st.held h + 1), st.inserted⟩
  | .release h => do
      return ⟨← st.cache.release h, Function.update st.held h (st.held h - 1), st.inserted⟩
  | .erase key => do
      return ⟨← st.cache.erase key, st.held, st.inserted⟩
  | .prune => do
      return ⟨← st.cache.prune, st.held, st.inserted⟩

/-- What one shard sees of a run. -/
def view (st : ShardedRun) (s : Shard) : Run := ⟨st.cache.shard s, fun p => st.held ⟨s, p⟩⟩

/-- The shard of a key. -/
abbrev home (key : Bytes) : Shard := shardOf (hashSlice key)

/-- A client releases each handle at most once, and the chunk of a new entry reads as an empty
function. -/
def Permitted (st : ShardedRun) : ShardedCall → Prop
  | .insert raw _ _ _ _ => raw = .empty
  | .release h => 0 < st.held h
  | _ => True

/-- Also, a handle is asked for only while its entry has fewer than 2^32 - 2. -/
def Bounded (st : ShardedRun) : ShardedCall → Prop
  | .insert raw _ _ _ _ => raw = .empty
  | .release h => 0 < st.held h
  | .lookUp key => (st.view (home key)).Bounded (.lookUp key)
  | _ => True

/-- An entry is alive as long as its deleter has not been called. -/
def Alive (st : ShardedRun) (h : Handle) : Prop :=
  ((st.cache.shard h.shard).heap.entries h.ptr).isSome = true

instance (st : ShardedRun) : DecidablePred st.Alive := fun _ => instDecidableEqBool _ _

end ShardedRun

/-- The states of the runs whose calls are all permitted. -/
inductive ShardedReachable (permitted : ShardedRun → ShardedCall → Prop) (capacity : U64) :
    ShardedRun → Prop
  | new {c : ShardedLruCache} : ShardedLruCache.new capacity = .ok c →
      ShardedReachable permitted capacity { cache := c }
  | step {st st' : ShardedRun} (call : ShardedCall) : ShardedReachable permitted capacity st →
      permitted st call → st.step call = .ok st' → ShardedReachable permitted capacity st'

/-! ## Shards keep their entries -/

/-- What was inserted into one shard. -/
def insertedIn (s : Shard) (inserted : List (Handle × Origin)) : List (Ptr × Origin) :=
  inserted.filterMap fun x => if x.1.shard = s then some (x.1.ptr, x.2) else none

theorem mem_insertedIn {s : Shard} {inserted : List (Handle × Origin)} {p : Ptr} {o : Origin} :
    (p, o) ∈ insertedIn s inserted ↔ (⟨s, p⟩, o) ∈ inserted := by
  rw [insertedIn, List.mem_filterMap]
  constructor
  · rintro ⟨⟨⟨t, q⟩, o'⟩, hmem, hx⟩
    split_ifs at hx with ht
    cases hx
    cases ht
    exact hmem
  · exact fun hmem => ⟨_, hmem, if_pos rfl⟩

/-- **The invariant of a shard**: it is a cache whose ledger says what was inserted, and the keys
are those of the shard. -/
structure Kept (st : ShardedRun) (s : Shard) : Prop where
  stored : ∃ lru inUse, Stored hashSlice (st.view s).cache (st.view s).held lru inUse
  ledger : Ledger (insertedIn s st.inserted) (st.cache.shard s)
  home : ∀ p o, (p, o) ∈ insertedIn s st.inserted → ShardedRun.home o.key = s

variable {st st' : ShardedRun} {t : Shard}

/-- A shard that is not asked. -/
theorem Kept.congr (h : Kept st t) (hshard : st'.cache.shard t = st.cache.shard t)
    (hheld : ∀ p, st'.held ⟨t, p⟩ = st.held ⟨t, p⟩)
    (hinserted : insertedIn t st'.inserted = insertedIn t st.inserted) : Kept st' t := by
  have hview : st'.view t = st.view t := by
    simp only [ShardedRun.view, hshard, hheld]
  exact ⟨hview ▸ h.stored, by rw [hshard, hinserted]; exact h.ledger, hinserted ▸ h.home⟩

theorem shard_set_self (c : ShardedLruCache) (s : Shard) (x : LruCache) :
    (c.set s x).shard s = x := Function.update_self _ _ _

theorem shard_set_of_ne (c : ShardedLruCache) {s : Shard} (x : LruCache) (ht : t ≠ s) :
    (c.set s x).shard t = c.shard t := Function.update_of_ne ht _ _

/-- The handles of one shard. -/
theorem update_handle (held : Handle → Nat) (s : Shard) (q : Ptr) (n : Nat) :
    (fun p => Function.update held ⟨s, q⟩ n ⟨s, p⟩)
      = Function.update (fun p => held ⟨s, p⟩) q n := by
  funext p
  by_cases hp : p = q
  · rw [hp, Function.update_self, Function.update_self]
  · have hne : (⟨s, p⟩ : Handle) ≠ ⟨s, q⟩ := fun he => hp (congrArg Handle.ptr he)
    rw [Function.update_of_ne hp, Function.update_of_ne hne]

theorem update_handle_of_ne (held : Handle → Nat) {s : Shard} (q : Ptr) (n : Nat) (ht : t ≠ s)
    (p : Ptr) : Function.update held ⟨s, q⟩ n ⟨t, p⟩ = held ⟨t, p⟩ :=
  Function.update_of_ne (fun he => ht (congrArg Handle.shard he)) _ _

/-- **One shard is asked**, and no entry is made. -/
theorem Kept.evolve (h : ∀ t, Kept st t) (s : Shard) {x : LruCache} {held' : Handle → Nat}
    (hevolves : Evolves (st.cache.shard s) x)
    (hstored : ∃ lru inUse, Stored hashSlice x (fun p => held' ⟨s, p⟩) lru inUse)
    (hheld : ∀ t, t ≠ s → ∀ p, held' ⟨t, p⟩ = st.held ⟨t, p⟩) :
    ∀ t, Kept ⟨st.cache.set s x, held', st.inserted⟩ t := by
  intro t
  by_cases ht : t = s
  · subst ht
    have hself : (st.cache.set t x).shard t = x := shard_set_self _ _ _
    refine ⟨?_, ?_, (h t).home⟩
    · simp only [ShardedRun.view, hself]
      exact hstored
    · simp only [hself]
      exact (h t).ledger.evolves hevolves
  · exact (h t).congr (shard_set_of_ne _ x ht) (hheld t ht) rfl

/-- **`look_up`** -/
theorem Kept.lookUp (h : ∀ t, Kept st t) {key : Bytes} (hcall : st.Bounded (.lookUp key)) :
    ∃ st', st.step (.lookUp key) = .ok st' ∧ ∀ t, Kept st' t := by
  set s := ShardedRun.home key with hs
  obtain ⟨lru, inUse, hstored⟩ := (h s).stored
  obtain ⟨r, x, inUse', hlook, -, hstored', -, -⟩ := hstored.lookUp key (hstored.lt_of_bounded hcall)
  have hlook' : st.cache.lookUp key = .ok (r.map (Handle.mk s), st.cache.set s x) := by
    have hshard : (st.cache.shard (shardOf (hashSlice key))).lookUp key (hashSlice key) = .ok (r, x) :=
      hlook
    rw [ShardedLruCache.lookUp]
    simp only [hshard]
    rfl
  refine ⟨_, by rw [ShardedRun.step, hlook']; rfl, ?_⟩
  cases r with
  | none => exact Kept.evolve h s (evolves_lookUp hlook) ⟨_, _, hstored'⟩ fun _ _ _ => rfl
  | some q =>
      refine Kept.evolve h s (evolves_lookUp hlook) ⟨lru.erase q, inUse', ?_⟩ fun t ht p => ?_
      · show Stored hashSlice x (fun p => Function.update st.held ⟨s, q⟩ _ ⟨s, p⟩) _ _
        rw [update_handle]
        exact hstored'
      · exact update_handle_of_ne st.held q _ ht p

/-- **`release`**: an entry is in the shard of its hash. -/
theorem Kept.release (h : ∀ t, Kept st t) {handle : Handle} (hcall : 0 < st.held handle) :
    ∃ st', st.step (.release handle) = .ok st' ∧ ∀ t, Kept st' t := by
  obtain ⟨s, q⟩ := handle
  obtain ⟨lru, inUse, hstored⟩ := (h s).stored
  obtain ⟨x, lru', inUse', hrelease, hstored', -, -⟩ := hstored.release (p := q) hcall
  obtain ⟨e, he⟩ : ∃ e, (st.cache.shard s).heap.entries q = some e := by
    rw [← Option.ne_none_iff_exists']
    intro hnone
    have hzero : st.held ⟨s, q⟩ = 0 := (hstored.core.gone q hnone).1
    omega
  have hhome : shardOf e.hash = s := by
    rw [(hstored.core.entry q e he).hash]
    exact (h s).home q e.origin ((h s).ledger.alive q _ (Heap.origin_of_some he))
  have hrelease' : st.cache.release ⟨s, q⟩ = .ok (st.cache.set s x) := by
    have hshard : (st.cache.shard s).release q = .ok x := hrelease
    rw [ShardedLruCache.release]
    simp only [Heap.read, he, ok_bind, hhome, if_true, hshard]
    rfl
  refine ⟨_, by rw [ShardedRun.step, hrelease']; rfl, ?_⟩
  refine Kept.evolve h s (evolves_unRef hrelease) ⟨lru', inUse', ?_⟩ fun t ht p => ?_
  · rw [update_handle]
    exact hstored'
  · exact update_handle_of_ne st.held q _ ht p

/-- **`erase`** -/
theorem Kept.erase (h : ∀ t, Kept st t) (key : Bytes) :
    ∃ st', st.step (.erase key) = .ok st' ∧ ∀ t, Kept st' t := by
  set s := ShardedRun.home key with hs
  obtain ⟨lru, inUse, hstored⟩ := (h s).stored
  obtain ⟨r, x, herase, -, hstored'⟩ := hstored.erase key (hashSlice key)
  have herase' : st.cache.erase key = .ok (st.cache.set s x) := by
    have hshard : (st.cache.shard (shardOf (hashSlice key))).erase key (hashSlice key) = .ok x := herase
    rw [ShardedLruCache.erase]
    simp only [hshard]
    rfl
  refine ⟨_, by rw [ShardedRun.step, herase']; rfl, ?_⟩
  exact Kept.evolve h s (evolves_erase herase) ⟨_, _, hstored'⟩ fun _ _ _ => rfl

/-- **`insert`** -/
theorem Kept.insert (h : ∀ t, Kept st t) (key : Bytes) (value : Value) (charge : U64)
    (deleter : Deleter) :
    (∃ st', st.step (.insert .empty key value charge deleter) = .ok st' ∧ ∀ t, Kept st' t)
      ∨ (st.cache.shard (ShardedRun.home key)).table.elems.toNat = 2 ^ 31
        ∧ st.step (.insert .empty key value charge deleter) = .error .endless := by
  set s := ShardedRun.home key with hs
  obtain ⟨lru, inUse, hstored⟩ := (h s).stored
  rcases hstored.insert key value charge deleter with
    ⟨x, lru', inUse', hinsert, hstored'⟩ | ⟨hmax, herror⟩
  · left
    set q := (st.cache.shard s).heap.nextPtr with hq
    set o : Origin := ⟨key, value, charge, deleter⟩ with ho
    have hinsert' : st.cache.insert .empty key value charge deleter
        = .ok (⟨s, q⟩, st.cache.set s x) := by
      have hshard : (st.cache.shard (shardOf (hashSlice key))).insert .empty key (hashSlice key) value
          charge deleter = .ok (q, x) := hinsert
      rw [ShardedLruCache.insert]
      simp only [hshard]
      rfl
    have hzero : st.held ⟨s, q⟩ = 0 := (hstored.core.gone q hstored.core.nextPtr_not_mem).1
    refine ⟨_, by rw [ShardedRun.step, hinsert']; rfl, fun t => ?_⟩
    by_cases ht : t = s
    · rw [ht]
      have hself : (st.cache.set s x).shard s = x := shard_set_self _ _ _
      have hcons : insertedIn s ((⟨s, q⟩, o) :: st.inserted) = (q, o) :: insertedIn s st.inserted :=
        List.filterMap_cons_some (if_pos rfl)
      have hheld : (fun p => Function.update st.held ⟨s, q⟩ (st.held ⟨s, q⟩ + 1) ⟨s, p⟩)
          = Function.update (st.view s).held q 1 := by
        rw [update_handle, hzero]
        rfl
      obtain ⟨-, e, he, hevolves⟩ := evolves_insert hinsert
      refine ⟨⟨lru', inUse', ?_⟩, ?_, ?_⟩
      · simp only [ShardedRun.view, hself, hheld]
        exact hstored'
      · show Ledger (insertedIn s ((⟨s, q⟩, o) :: st.inserted)) ((st.cache.set s x).shard s)
        rw [hcons, hself, ho, ← he]
        exact ((h s).ledger.withEntry e).evolves hevolves
      · show ∀ p o', (p, o') ∈ insertedIn s ((⟨s, q⟩, o) :: st.inserted) → _
        rw [hcons]
        intro p o' hmem
        rcases List.mem_cons.mp hmem with heq | hmem
        · cases heq
          rfl
        · exact (h s).home p o' hmem
    · refine (h t).congr (shard_set_of_ne _ x ht) (update_handle_of_ne st.held q _ ht) ?_
      exact List.filterMap_cons_none (if_neg fun he => ht he.symm)
  · right
    refine ⟨hmax, ?_⟩
    have hshard : (st.cache.shard (shardOf (hashSlice key))).insert .empty key (hashSlice key) value
        charge deleter = .error .endless := herror
    rw [ShardedRun.step, ShardedLruCache.insert]
    simp only [hshard]
    rfl

/-! ## All shards in turn -/

/-- An operation on the shards `l`, one after the other. -/
theorem foldlM_shards {op : LruCache → Except Fault LruCache} (l : List Shard) (hnodup : l.Nodup)
    (c : ShardedLruCache) (hop : ∀ s ∈ l, ∃ x, op (c.shard s) = .ok x) :
    ∃ c', l.foldlM (fun c s => do return c.set s (← op (c.shard s))) c = .ok c'
      ∧ (∀ s ∈ l, op (c.shard s) = .ok (c'.shard s)) ∧ ∀ s, s ∉ l → c'.shard s = c.shard s := by
  induction l generalizing c with
  | nil => exact ⟨c, rfl, nofun, fun _ _ => rfl⟩
  | cons s l ih =>
      obtain ⟨hs, hl⟩ := List.nodup_cons.mp hnodup
      obtain ⟨x, hx⟩ := hop s List.mem_cons_self
      have hother : ∀ t ∈ l, (c.set s x).shard t = c.shard t := fun t ht =>
        shard_set_of_ne c x fun he => hs (he ▸ ht)
      obtain ⟨c', hfold, hin, hout⟩ := ih hl (c.set s x) fun t ht => by
        rw [hother t ht]
        exact hop t (List.mem_cons_of_mem s ht)
      refine ⟨c', ?_, fun t ht => ?_, fun t ht => ?_⟩
      · rw [List.foldlM_cons, hx]
        exact hfold
      · rcases List.mem_cons.mp ht with rfl | ht
        · rw [hx, hout t hs, shard_set_self]
        · rw [← hother t ht]
          exact hin t ht
      · rw [hout t fun hm => ht (List.mem_cons_of_mem s hm)]
        exact shard_set_of_ne c x fun he => ht (he ▸ List.mem_cons_self)

/-- **`prune`** -/
theorem Kept.prune (h : ∀ t, Kept st t) : ∃ st', st.step .prune = .ok st' ∧ ∀ t, Kept st' t := by
  have hprune : ∀ t, ∃ x, (st.cache.shard t).prune = .ok x
      ∧ ∃ lru inUse, Stored hashSlice x (st.view t).held lru inUse := by
    intro t
    obtain ⟨lru, inUse, hstored⟩ := (h t).stored
    obtain ⟨x, hok, hstored'⟩ := hstored.prune
    exact ⟨x, hok, _, _, hstored'⟩
  obtain ⟨c', hfold, hin, -⟩ := foldlM_shards (List.finRange kNumShards)
    (List.nodup_finRange kNumShards) st.cache fun t _ => (hprune t).imp fun x hx => hx.1
  refine ⟨_, by rw [ShardedRun.step, ShardedLruCache.prune, hfold]; rfl, fun t => ?_⟩
  obtain ⟨x, hok, hstored⟩ := hprune t
  obtain rfl := Except.ok.inj (hok.symm.trans (hin t (List.mem_finRange t)))
  exact ⟨hstored, (h t).ledger.evolves (evolves_eraseWhile hok), (h t).home⟩

/-- **A step** -/
theorem Kept.step (h : ∀ t, Kept st t) (call : ShardedCall) (hcall : st.Bounded call) :
    (∃ st', st.step call = .ok st' ∧ ∀ t, Kept st' t)
      ∨ (∃ raw key value charge deleter, call = .insert raw key value charge deleter
          ∧ (st.cache.shard (ShardedRun.home key)).table.elems.toNat = 2 ^ 31)
        ∧ st.step call = .error .endless := by
  cases call with
  | insert raw key value charge deleter =>
      obtain rfl : raw = .empty := hcall
      exact (Kept.insert h key value charge deleter).imp_right fun ⟨hmax, herror⟩ =>
        ⟨⟨.empty, key, value, charge, deleter, rfl, hmax⟩, herror⟩
  | lookUp key => exact .inl (Kept.lookUp h hcall)
  | release handle => exact .inl (Kept.release h hcall)
  | erase key => exact .inl (Kept.erase h key)
  | prune => exact .inl (Kept.prune h)

variable {capacity : U64}

/-- **A run** -/
theorem ShardedReachable.kept (h : ShardedReachable ShardedRun.Bounded capacity st) :
    ∀ t, Kept st t := by
  induction h with
  | new hnew =>
      intro t
      obtain ⟨x, hx, hok⟩ := bind_eq_ok.mp hnew
      cases hok
      obtain ⟨x', hx', hstored⟩ := new_stored hashSlice
        ((capacity + (BitVec.ofNat 64 kNumShards - 1)) / BitVec.ofNat 64 kNumShards)
      obtain rfl := Except.ok.inj (hx.symm.trans hx')
      obtain ⟨table, -, hok⟩ := bind_eq_ok.mp hx
      cases hok
      exact ⟨⟨[], [], hstored⟩, ⟨List.nodup_nil, nofun, nofun, List.Perm.refl _⟩, nofun⟩
  | step call _ hcall hstep ih =>
      rcases Kept.step ih call hcall with ⟨st', hok, hkept⟩ | ⟨-, herror⟩
      · obtain rfl := Except.ok.inj (hstep.symm.trans hok)
        exact hkept
      · rw [hstep] at herror
        cases herror

/-! ## All shards together -/

/-- One of the lists that are joined has something more in front. -/
theorem flatMap_perm_of_ne {ι α : Type} {l : List ι} {F G : ι → List α} {a : List α} {i : ι}
    (hnodup : l.Nodup) (hi : i ∈ l) (hself : F i = a ++ G i) (hne : ∀ j, j ≠ i → F j = G j) :
    (l.flatMap F).Perm (a ++ l.flatMap G) := by
  obtain ⟨l₁, l₂, rfl⟩ := List.append_of_mem hi
  rw [List.nodup_middle, List.nodup_cons] at hnodup
  have hsame : ∀ l : List ι, (∀ j ∈ l, j ∈ l₁ ++ l₂) → l.flatMap F = l.flatMap G := by
    intro l hl
    refine List.flatMap_congr fun j hj => hne j ?_
    rintro rfl
    exact hnodup.1 (hl j hj)
  rw [List.flatMap_append, List.flatMap_append, List.flatMap_cons, List.flatMap_cons, hself,
    hsame l₁ fun j hj => List.mem_append_left _ hj, hsame l₂ fun j hj => List.mem_append_right _ hj,
    List.append_assoc, ← List.append_assoc, ← List.append_assoc a]
  exact List.perm_append_comm.append_right _

/-- The calls for some of the entries of each shard are the calls for some of all entries. -/
theorem deleted_perm {c : ShardedLruCache} {inserted : List (Handle × Origin)} (gone : Handle → Bool)
    (h : ∀ s, (c.shard s).deleted.Perm
      (((insertedIn s inserted).filter fun y => gone ⟨s, y.1⟩).map fun y => y.2.call)) :
    c.deleted.Perm ((inserted.filter fun x => gone x.1).map fun x => x.2.call) := by
  refine (List.Perm.flatMap_left _ fun s _ => h s).trans ?_
  clear h
  induction inserted with
  | nil => simp [insertedIn]
  | cons x l ih =>
      obtain ⟨⟨s, p⟩, o⟩ := x
      have hself : insertedIn s ((⟨s, p⟩, o) :: l) = (p, o) :: insertedIn s l :=
        List.filterMap_cons_some (if_pos rfl)
      have hne : ∀ t, t ≠ s → insertedIn t ((⟨s, p⟩, o) :: l) = insertedIn t l := fun t ht =>
        List.filterMap_cons_none (if_neg fun he => ht he.symm)
      refine (flatMap_perm_of_ne (a := if gone ⟨s, p⟩ then [o.call] else [])
        (List.nodup_finRange kNumShards) (List.mem_finRange s) ?_ fun t ht => ?_).trans
        ((ih.append_left _).trans ?_)
      · rw [hself, List.filter_cons]
        split_ifs <;> rfl
      · rw [hne t ht]
      · rw [List.filter_cons]
        split_ifs <;> exact List.Perm.refl _

/-- Handles are unique when they are in each shard. -/
theorem nodup_of_insertedIn {inserted : List (Handle × Origin)}
    (h : ∀ s, ((insertedIn s inserted).map Prod.fst).Nodup) : (inserted.map Prod.fst).Nodup := by
  induction inserted with
  | nil => exact List.nodup_nil
  | cons x l ih =>
      obtain ⟨⟨s, p⟩, o⟩ := x
      have hself : insertedIn s ((⟨s, p⟩, o) :: l) = (p, o) :: insertedIn s l :=
        List.filterMap_cons_some (if_pos rfl)
      rw [List.map_cons, List.nodup_cons]
      constructor
      · intro hmem
        obtain ⟨⟨h', o'⟩, hl, heq⟩ := List.mem_map.mp hmem
        obtain rfl : h' = ⟨s, p⟩ := heq
        have hs := h s
        rw [hself, List.map_cons, List.nodup_cons] at hs
        exact hs.1 (List.mem_map.mpr ⟨(p, o'), mem_insertedIn.mpr hl, rfl⟩)
      · refine ih fun t => ?_
        have hsub : List.Sublist (insertedIn t l) (insertedIn t ((⟨s, p⟩, o) :: l)) :=
          (List.sublist_cons_self _ l).filterMap _
        exact (h t).sublist (hsub.map Prod.fst)

/-! ## The deleters -/

/-- **The deleters that were called** are those of the inserted entries that are not alive, and
what clients hold or find is alive. -/
structure Lifetime (st : ShardedRun) : Prop where
  handles : (st.inserted.map Prod.fst).Nodup
  alive : ∀ h, st.Alive h → ∃ o, (h, o) ∈ st.inserted
  deleted : st.cache.deleted.Perm
    ((st.inserted.filter fun x => decide (¬ st.Alive x.1)).map fun x => x.2.call)
  held : ∀ h, 0 < st.held h → st.Alive h
  found : ∀ key h cache, st.cache.lookUp key = .ok (some h, cache) → st.Alive h

theorem Kept.alive_of_held (h : ∀ t, Kept st t) {handle : Handle} (hheld : 0 < st.held handle) :
    st.Alive handle := by
  obtain ⟨s, p⟩ := handle
  obtain ⟨lru, inUse, hstored⟩ := (h s).stored
  rw [ShardedRun.Alive, Option.isSome_iff_ne_none]
  intro hnone
  have hzero : st.held ⟨s, p⟩ = 0 := (hstored.core.gone p hnone).1
  omega

/-- `look_up` takes a reference to the entry that it returns. -/
theorem alive_of_lookUp {key : Bytes} {handle : Handle} {cache : ShardedLruCache}
    (hok : st.cache.lookUp key = .ok (some handle, cache)) : st.Alive handle := by
  obtain ⟨⟨r, x⟩, hlook, hok⟩ := bind_eq_ok.mp hok
  cases r with
  | none => cases hok
  | some p =>
      cases hok
      obtain ⟨_ | q, -, hlook⟩ := bind_eq_ok.mp hlook
      · cases hlook
      · obtain ⟨c', href, hlook⟩ := bind_eq_ok.mp hlook
        cases hlook
        obtain ⟨e, hread, -⟩ := bind_eq_ok.mp href
        show ((st.cache.shard _).heap.entries p).isSome = true
        rw [Heap.read_eq_ok hread]
        rfl

theorem Kept.lifetime (h : ∀ t, Kept st t) : Lifetime st where
  handles := nodup_of_insertedIn fun s => (h s).ledger.nodup
  alive := by
    rintro ⟨s, p⟩ halive
    obtain ⟨e, he⟩ := Option.isSome_iff_exists.mp halive
    exact ⟨e.origin, mem_insertedIn.mp ((h s).ledger.alive p _ (Heap.origin_of_some he))⟩
  deleted := by
    refine deleted_perm (fun handle => decide (¬ st.Alive handle)) fun s => ?_
    refine (h s).ledger.deleted.trans (List.Perm.of_eq (congrArg _ ?_))
    refine List.filter_congr fun y _ => ?_
    rw [Heap.origin, Option.isNone_map]
    cases he : (st.cache.shard s).heap.entries y.1 with
    | none => simp [ShardedRun.Alive, he]
    | some e => simp [ShardedRun.Alive, he]
  held := fun _ hheld => Kept.alive_of_held h hheld
  found := fun _ _ _ hok => alive_of_lookUp hok

/-- **Destruction** -/
theorem Kept.destroy (h : ∀ t, Kept st t) (hheld : ∀ handle, st.held handle = 0) :
    ∃ c', st.cache.destroy = .ok c'
      ∧ c'.deleted.Perm (st.inserted.map fun x => x.2.call) := by
  have hdestroy : ∀ t, ∃ x, (st.cache.shard t).destroy = .ok x ∧ Evolves (st.cache.shard t) x
      ∧ ∀ p, x.heap.entries p = none := by
    intro t
    obtain ⟨lru, inUse, hstored⟩ := (h t).stored
    obtain ⟨rfl, hall⟩ := hstored.unheld fun p => hheld ⟨t, p⟩
    exact hstored.destroy hall
  obtain ⟨c', hfold, hin, -⟩ := foldlM_shards (List.finRange kNumShards).reverse
    (List.nodup_reverse.mpr (List.nodup_finRange kNumShards)) st.cache
    fun t _ => (hdestroy t).imp fun x hx => hx.1
  refine ⟨c', hfold, ?_⟩
  have hcalls : c'.deleted.Perm
      ((st.inserted.filter fun _ => true).map fun x => x.2.call) := by
    refine deleted_perm (fun _ => true) fun s => ?_
    obtain ⟨x, hok, hevolves, hgone⟩ := hdestroy s
    obtain rfl := Except.ok.inj
      (hok.symm.trans (hin s (List.mem_reverse.mpr (List.mem_finRange s))))
    refine ((h s).ledger.evolves hevolves).deleted.trans (List.Perm.of_eq (congrArg _ ?_))
    refine List.filter_congr fun y _ => ?_
    rw [Heap.origin, hgone]
    rfl
  rwa [List.filter_true] at hcalls

/-- **The lifetime of the entries**, in every state of a run. Every call returns, but for an
`insert` that would be the 2^31 + 1st element of the table of a shard. When all handles are given
back, the cache can be destroyed, and every deleter has been called once. -/
theorem lifetime_of_reachable (h : ShardedReachable ShardedRun.Bounded capacity st) :
    Lifetime st
    ∧ (∀ call, st.Bounded call → (∃ st', st.step call = .ok st')
      ∨ (∃ raw key value charge deleter, call = .insert raw key value charge deleter
          ∧ (st.cache.shard (ShardedRun.home key)).table.elems.toNat = 2 ^ 31)
        ∧ st.step call = .error .endless)
    ∧ ((∀ handle, st.held handle = 0) → ∃ c', st.cache.destroy = .ok c'
      ∧ c'.deleted.Perm (st.inserted.map fun x => x.2.call)) := by
  have hkept := h.kept
  refine ⟨Kept.lifetime hkept, fun call hcall => ?_, Kept.destroy hkept⟩
  exact (Kept.step hkept call hcall).imp_left fun ⟨st', hok, _⟩ => ⟨st', hok⟩

/-! ## One entry in a sharded cache -/

/-- The empty key has hash zero. -/
theorem hashSlice_nil : hashSlice [] = 0 := rfl

/-- After one `insert` and `n` calls of `look_up`, where `c` is a shard without entries. -/
def pinnedShards (c : LruCache) (n : Nat) : ShardedRun where
  cache := ⟨Function.update (fun _ => c) (shardOf 0) (pinned (BitVec.ofNat 32 (n + 2)))⟩
  held := Function.update (fun _ => 0) ⟨shardOf 0, 2⟩ (n + 1)
  inserted := [(⟨shardOf 0, 2⟩, ⟨[], 7, 1, 0⟩)]

theorem shard_pinnedShards (c : LruCache) (n : Nat) :
    (pinnedShards c n).cache.shard (shardOf 0) = pinned (BitVec.ofNat 32 (n + 2)) := by
  show Function.update (fun _ => c) (shardOf 0) (pinned (BitVec.ofNat 32 (n + 2))) (shardOf 0) = _
  rw [Function.update_self]

theorem held_pinnedShards (c : LruCache) (n : Nat) :
    (pinnedShards c n).held ⟨shardOf 0, 2⟩ = n + 1 := by
  show Function.update (fun _ => 0) (⟨shardOf 0, 2⟩ : Handle) (n + 1) ⟨shardOf 0, 2⟩ = n + 1
  rw [Function.update_self]

theorem insert_pinnedShards :
    ∃ c cache, ShardedLruCache.new 1 = .ok cache
      ∧ ShardedRun.step { cache := cache } (.insert .empty [] 7 1 0) = .ok (pinnedShards c 0) := by
  obtain ⟨c, hnew, hinsert⟩ := insert_pinned
  refine ⟨c, ⟨fun _ => c⟩, ?_, ?_⟩
  · have hperShard : (1 + (BitVec.ofNat 64 kNumShards - 1)) / BitVec.ofNat 64 kNumShards = 1 := by decide
    rw [ShardedLruCache.new]
    simp only [hperShard, hnew]
    rfl
  · rw [ShardedRun.step, ShardedLruCache.insert]
    simp only [hashSlice_nil, hinsert]
    rfl

theorem lookUp_pinnedShards (c : LruCache) (n : Nat) :
    (pinnedShards c n).step (.lookUp []) = .ok (pinnedShards c (n + 1)) := by
  have hrefs : BitVec.ofNat 32 (n + 2) + 1 = BitVec.ofNat 32 (n + 1 + 2) := by
    show BitVec.ofNat 32 (n + 2) + BitVec.ofNat 32 1 = _
    rw [← BitVec.ofNat_add]
  have hlook : (pinnedShards c n).cache.lookUp []
      = .ok (some ⟨shardOf 0, 2⟩, (pinnedShards c (n + 1)).cache) := by
    rw [ShardedLruCache.lookUp]
    simp only [hashSlice_nil, shard_pinnedShards, lookUp_pinned, hrefs]
    show Except.ok (some _, (⟨Function.update (Function.update _ _ _) _ _⟩ : ShardedLruCache)) = _
    rw [Function.update_idem]
    rfl
  have hheld : (pinnedShards c n).held = Function.update (fun _ => 0) ⟨shardOf 0, 2⟩ (n + 1) := rfl
  rw [ShardedRun.step, hlook, ok_bind]
  simp only [Option.elim_some, hheld, Function.update_idem, Function.update_self]
  rfl

theorem reachable_pinnedShards (n : Nat) :
    ∃ c, ShardedReachable ShardedRun.Permitted 1 (pinnedShards c n) := by
  obtain ⟨c, cache, hnew, hinsert⟩ := insert_pinnedShards
  refine ⟨c, ?_⟩
  induction n with
  | zero => exact .step (.insert .empty [] 7 1 0) (.new hnew) rfl hinsert
  | succ n ih => exact ih.step (.lookUp []) trivial (lookUp_pinnedShards c n)

/-- The only handle is given back, and the cache is destroyed. -/
theorem lifetime_insert_release :
    ∃ st c', ShardedReachable ShardedRun.Bounded 1 st ∧ Lifetime st
      ∧ st.cache.destroy = .ok c' ∧ c'.deleted.Perm [(0, [], 7)] := by
  obtain ⟨c, cache, hnew, hinsert⟩ := insert_pinnedShards
  obtain ⟨x, -, hrelease, -, -, -⟩ := evict_pinned
  have hread : (pinned 2).heap.read 2 = .ok ⟨7, 0, 1, true, 2, 0, []⟩ := rfl
  have hrefs : BitVec.ofNat 32 (0 + 2) = 2 := rfl
  have hheld : Function.update (pinnedShards c 0).held ⟨shardOf 0, 2⟩
      ((pinnedShards c 0).held ⟨shardOf 0, 2⟩ - 1) = fun _ => 0 := by
    rw [held_pinnedShards]
    show Function.update (Function.update (fun _ => 0) _ _) _ 0 = _
    rw [Function.update_idem, Function.update_eq_self_iff]
  have hstep : (pinnedShards c 0).step (.release ⟨shardOf 0, 2⟩)
      = .ok ⟨(pinnedShards c 0).cache.set (shardOf 0) x, fun _ => 0, (pinnedShards c 0).inserted⟩ := by
    rw [ShardedRun.step, hheld, ShardedLruCache.release]
    simp only [shard_pinnedShards, hrefs, hread, ok_bind, if_true, hrelease]
    rfl
  have hpermitted : (pinnedShards c 0).Bounded (.release ⟨shardOf 0, 2⟩) := by
    show 0 < (pinnedShards c 0).held ⟨shardOf 0, 2⟩
    rw [held_pinnedShards]
    exact Nat.zero_lt_one
  have hreach : ShardedReachable ShardedRun.Bounded 1 _ :=
    .step (.release ⟨shardOf 0, 2⟩) (.step (.insert .empty [] 7 1 0) (.new hnew) rfl hinsert) hpermitted
      hstep
  obtain ⟨hlifetime, -, hend⟩ := lifetime_of_reachable hreach
  obtain ⟨c', hdestroy, hcalls⟩ := hend fun _ => rfl
  exact ⟨_, c', hreach, hlifetime, hdestroy, hcalls⟩

/-- **One entry and 2^32 handles to it**: `refs` says that the only reference is the one of the
cache, and `erase` calls the deleter. -/
theorem exists_reachable_not_lifetime :
    ∃ st, ShardedReachable ShardedRun.Permitted 1 st ∧ st.held ⟨shardOf 0, 2⟩ = 2 ^ 32
      ∧ (0, [], 7) ∈ st.cache.deleted ∧ ¬ Lifetime st := by
  obtain ⟨n, hn, hpinned⟩ : ∃ n, n + 1 = 2 ^ 32 ∧ pinned (BitVec.ofNat 32 (n + 2)) = pinned 1 :=
    ⟨2 ^ 32 - 1, rfl, rfl⟩
  obtain ⟨c, hreach⟩ := reachable_pinnedShards n
  obtain ⟨x, herase, hgone, hdeleted⟩ : ∃ x, (pinned 1).erase [] 0 = .ok x
      ∧ x.heap.entries 2 = none ∧ x.deleted = [(0, [], 7)] := ⟨_, rfl, rfl, rfl⟩
  have hshard : (pinnedShards c n).cache.shard (shardOf 0) = pinned 1 := by
    rw [shard_pinnedShards, hpinned]
  have hstep : (pinnedShards c n).step (.erase [])
      = .ok ⟨(pinnedShards c n).cache.set (shardOf 0) x, (pinnedShards c n).held,
        (pinnedShards c n).inserted⟩ := by
    rw [ShardedRun.step, ShardedLruCache.erase]
    simp only [hashSlice_nil, hshard, herase]
    rfl
  have hheld : (pinnedShards c n).held ⟨shardOf 0, 2⟩ = 2 ^ 32 := by
    rw [held_pinnedShards, hn]
  refine ⟨_, hreach.step (.erase []) trivial hstep, hheld, ?_, fun hlifetime => ?_⟩
  · refine List.mem_flatMap.mpr ⟨shardOf 0, List.mem_finRange _, ?_⟩
    rw [shard_set_self, hdeleted]
    exact List.mem_singleton_self _
  · have halive := hlifetime.held ⟨shardOf 0, 2⟩ (by rw [hheld]; exact Nat.two_pow_pos 32)
    rw [ShardedRun.Alive] at halive
    rw [shard_set_self, hgone] at halive
    cases halive

end SimpleLeveldb.Cache
