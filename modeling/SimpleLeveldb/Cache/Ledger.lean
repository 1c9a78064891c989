import SimpleLeveldb.Cache.Runs

set_option autoImplicit false

/-! # What becomes of the entries

An entry keeps the arguments of `insert` that it was made from until it is freed, and it is freed
where its deleter is called, and nowhere else. This is read off the code, without the invariant of
the cache: `Evolves` says it of two states, and every operation makes the cache evolve. `Ledger`
compares the calls of the deleters with the entries that were inserted.
-/

namespace SimpleLeveldb.Cache

/-! ## Origins -/

/-- The arguments of `insert` that an entry was made from. -/
structure Origin where
  key : Bytes
  value : Value
  charge : U64
  deleter : Deleter

def LruHandle.origin (e : LruHandle) : Origin := ⟨e.keyData, e.value, e.charge, e.deleter⟩

/-- The call of the deleter. -/
def Origin.call (o : Origin) : Deleter × Bytes × Value := (o.deleter, o.key, o.value)

/-- The origin of an entry that is alive. -/
def Heap.origin (h : Heap) (p : Ptr) : Option Origin := (h.entries p).map LruHandle.origin

theorem Heap.origin_of_some {h : Heap} {p : Ptr} {e : LruHandle} (he : h.entries p = some e) :
    h.origin p = some e.origin := by
  rw [Heap.origin, he, Option.map_some]

/-- Another reference count, or another mark, does not change where an entry comes from. -/
theorem Heap.origin_update {h h' : Heap} {p : Ptr} {e e' : LruHandle} (he : h.entries p = some e)
    (hentries : h'.entries = Function.update h.entries p (some e')) (horigin : e'.origin = e.origin) :
    h'.origin = h.origin := by
  funext q
  unfold Heap.origin
  rw [hentries]
  by_cases hq : q = p
  · rw [hq, Function.update_self, he, Option.map_some, Option.map_some, horigin]
  · rw [Function.update_of_ne hq]

/-! ## Links -/

namespace Heap

variable {h h' : Heap} {p : Ptr} {x : Option Ptr}

/-- The links are all that differs. -/
def SameEntries (h h' : Heap) : Prop := h'.entries = h.entries ∧ h'.nextPtr = h.nextPtr

theorem SameEntries.trans {h'' : Heap} (h₁ : h.SameEntries h') (h₂ : h'.SameEntries h'') :
    h.SameEntries h'' := ⟨h₂.1.trans h₁.1, h₂.2.trans h₁.2⟩

theorem sameEntries_setNext (hok : h.setNext p x = .ok h') : h.SameEntries h' := by
  unfold setNext at hok
  split_ifs at hok
  cases hok
  exact ⟨rfl, rfl⟩

theorem sameEntries_setPrev (hok : h.setPrev p x = .ok h') : h.SameEntries h' := by
  unfold setPrev at hok
  split_ifs at hok
  cases hok
  exact ⟨rfl, rfl⟩

theorem sameEntries_lruRemove (hok : h.lruRemove p = .ok h') : h.SameEntries h' := by
  obtain ⟨_, -, hok⟩ := bind_eq_ok.mp hok
  obtain ⟨_, hprev, hok⟩ := bind_eq_ok.mp hok
  obtain ⟨_, -, hok⟩ := bind_eq_ok.mp hok
  exact (sameEntries_setPrev hprev).trans (sameEntries_setNext hok)

theorem sameEntries_lruAppend {list : Ptr} (hok : h.lruAppend list p = .ok h') :
    h.SameEntries h' := by
  obtain ⟨_, h₁, hok⟩ := bind_eq_ok.mp hok
  obtain ⟨_, h₂, hok⟩ := bind_eq_ok.mp hok
  obtain ⟨_, -, hok⟩ := bind_eq_ok.mp hok
  obtain ⟨_, h₃, hok⟩ := bind_eq_ok.mp hok
  obtain ⟨_, -, hok⟩ := bind_eq_ok.mp hok
  exact (sameEntries_setNext h₁).trans <| (sameEntries_setPrev h₂).trans <|
    (sameEntries_setNext h₃).trans (sameEntries_setPrev hok)

theorem sameEntries_moveIf {b : Bool} {list : Ptr} (hok : h.moveIf b list p = .ok h') :
    h.SameEntries h' := by
  unfold moveIf at hok
  split_ifs at hok
  · obtain ⟨_, hremove, hok⟩ := bind_eq_ok.mp hok
    exact (sameEntries_lruRemove hremove).trans (sameEntries_lruAppend hok)
  · cases hok
    exact ⟨rfl, rfl⟩

theorem read_eq_ok {e : LruHandle} (hok : h.read p = .ok e) : h.entries p = some e := by
  unfold read at hok
  cases he : h.entries p with
  | none => rw [he] at hok; cases hok
  | some e' => rw [he] at hok; cases hok; rfl

theorem modify_eq_ok {f : LruHandle → LruHandle} (hok : h.modify p f = .ok h') :
    ∃ e, h.entries p = some e ∧ h' = h.set p (some (f e)) := by
  obtain ⟨e, hread, hok⟩ := bind_eq_ok.mp hok
  cases hok
  exact ⟨e, read_eq_ok hread, rfl⟩

theorem key_eq_ok {e : LruHandle} {k : Bytes} (he : h.entries p = some e) (hok : h.key p = .ok k) :
    k = e.keyData := by
  obtain ⟨e', hread, hok⟩ := bind_eq_ok.mp hok
  obtain ⟨_, -, hok⟩ := bind_eq_ok.mp hok
  cases hok
  rw [read_eq_ok hread] at he
  cases he
  rfl

end Heap

/-! ## How a cache evolves -/

/-- No entry is made: entries are freed one after the other, each with a call of its deleter. -/
inductive Evolves : LruCache → LruCache → Prop
  | same {c c' : LruCache} : c'.heap.origin = c.heap.origin → c'.heap.nextPtr = c.heap.nextPtr →
      c'.capacity = c.capacity → c'.deleted = c.deleted → Evolves c c'
  | free {c c' : LruCache} (p : Ptr) (o : Origin) : c.heap.origin p = some o →
      c'.heap.origin = Function.update c.heap.origin p none → c'.heap.nextPtr = c.heap.nextPtr →
      c'.capacity = c.capacity → c'.deleted = c.deleted ++ [o.call] → Evolves c c'
  | trans {c c' c'' : LruCache} : Evolves c c' → Evolves c' c'' → Evolves c c''

theorem Evolves.refl (c : LruCache) : Evolves c c := .same rfl rfl rfl rfl

/-- An entry that is alive was alive before, and comes from the same call. -/
theorem Evolves.origin {c c' : LruCache} (h : Evolves c c') {p : Ptr} {o : Origin}
    (ho : c'.heap.origin p = some o) : c.heap.origin p = some o := by
  induction h with
  | same horigin => rwa [horigin] at ho
  | free q o' _ horigin =>
      rw [horigin] at ho
      by_cases hp : p = q
      · rw [hp, Function.update_self] at ho
        cases ho
      · rwa [Function.update_of_ne hp] at ho
  | trans _ _ ih ih' => exact ih (ih' ho)

theorem Evolves.capacity {c c' : LruCache} (h : Evolves c c') : c'.capacity = c.capacity := by
  induction h with
  | same _ _ hcap => exact hcap
  | free _ _ _ _ _ hcap => exact hcap
  | trans _ _ ih ih' => exact ih'.trans ih

theorem Evolves.nextPtr {c c' : LruCache} (h : Evolves c c') :
    c'.heap.nextPtr = c.heap.nextPtr := by
  induction h with
  | same _ hnext => exact hnext
  | free _ _ _ _ hnext => exact hnext
  | trans _ _ ih ih' => exact ih'.trans ih

theorem evolves_ref {c c' : LruCache} {p : Ptr} (hok : c.ref p = .ok c') : Evolves c c' := by
  obtain ⟨e, -, hok⟩ := bind_eq_ok.mp hok
  obtain ⟨heap, hmove, hok⟩ := bind_eq_ok.mp hok
  obtain ⟨heap', hmodify, hok⟩ := bind_eq_ok.mp hok
  cases hok
  obtain ⟨hentries, hnext⟩ := Heap.sameEntries_moveIf hmove
  obtain ⟨e', he', rfl⟩ := Heap.modify_eq_ok hmodify
  have horigin := Heap.origin_update (h := heap) he'
    (heap.set_entries p (some { e' with refs := e'.refs + 1 })) rfl
  refine .same (horigin.trans ?_) hnext rfl rfl
  unfold Heap.origin
  rw [hentries]

theorem evolves_unRef {c c' : LruCache} {p : Ptr} (hok : c.unRef p = .ok c') : Evolves c c' := by
  obtain ⟨e, hread, hok⟩ := bind_eq_ok.mp hok
  obtain ⟨_, -, hok⟩ := bind_eq_ok.mp hok
  obtain ⟨heap, hmodify, hok⟩ := bind_eq_ok.mp hok
  have he := Heap.read_eq_ok hread
  obtain ⟨e', he', rfl⟩ := Heap.modify_eq_ok hmodify
  rw [he] at he'
  cases he'
  have horigin := Heap.origin_update (h := c.heap) he
    (c.heap.set_entries p (some { e with refs := e.refs - 1 })) rfl
  split_ifs at hok with hzero
  · -- the last reference
    obtain ⟨_, -, hok⟩ := bind_eq_ok.mp hok
    obtain ⟨k, hkey, hok⟩ := bind_eq_ok.mp hok
    cases hok
    have hk := Heap.key_eq_ok (Function.update_self _ _ _) hkey
    refine .free p e.origin (Heap.origin_of_some he) ?_ rfl rfl (by rw [hk]; rfl)
    funext q
    by_cases hq : q = p
    · simp [Heap.origin, Heap.free, hq]
    · simp [Heap.origin, Heap.free, hq]
  · obtain ⟨heap', hmove, hok⟩ := bind_eq_ok.mp hok
    cases hok
    obtain ⟨hentries, hnext⟩ := Heap.sameEntries_moveIf hmove
    refine .same (Eq.trans ?_ horigin) hnext rfl rfl
    unfold Heap.origin
    rw [hentries]

theorem evolves_finishErase {c c' : LruCache} {r : Option Ptr} {b : Bool}
    (hok : c.finishErase r = .ok (b, c')) : Evolves c c' := by
  cases r with
  | none =>
      cases hok
      exact .refl c
  | some p =>
      obtain ⟨e, hread, hok⟩ := bind_eq_ok.mp hok
      obtain ⟨_, -, hok⟩ := bind_eq_ok.mp hok
      obtain ⟨heap, hremove, hok⟩ := bind_eq_ok.mp hok
      obtain ⟨heap', hmodify, hok⟩ := bind_eq_ok.mp hok
      obtain ⟨c₁, hun, hok⟩ := bind_eq_ok.mp hok
      cases hok
      obtain ⟨hentries, hnext⟩ := Heap.sameEntries_lruRemove hremove
      obtain ⟨e', he', rfl⟩ := Heap.modify_eq_ok hmodify
      have horigin := Heap.origin_update (h := heap) he'
        (heap.set_entries p (some { e' with inCache := false })) rfl
      refine .trans ?_ (evolves_unRef hun)
      refine .same (horigin.trans ?_) hnext rfl rfl
      unfold Heap.origin
      rw [hentries]

/-- The table has no part in it. -/
theorem evolves_table (c : LruCache) (table : HandleTable) :
    Evolves c { c with table := table } := .same rfl rfl rfl rfl

theorem evolves_lookUp {c c' : LruCache} {key : Bytes} {hk : U32} {r : Option Ptr}
    (hok : c.lookUp key hk = .ok (r, c')) : Evolves c c' := by
  obtain ⟨_ | p, -, hok⟩ := bind_eq_ok.mp hok
  · cases hok
    exact .refl c
  · obtain ⟨c₁, href, hok⟩ := bind_eq_ok.mp hok
    cases hok
    exact evolves_ref href

theorem evolves_erase {c c' : LruCache} {key : Bytes} {hk : U32} (hok : c.erase key hk = .ok c') :
    Evolves c c' := by
  obtain ⟨⟨r, table⟩, -, hok⟩ := bind_eq_ok.mp hok
  obtain ⟨⟨b, c₁⟩, herase, hok⟩ := bind_eq_ok.mp hok
  cases hok
  exact (evolves_table c table).trans (evolves_finishErase herase)

theorem evolves_eraseOldest {c c' : LruCache} {p : Ptr} (hok : c.eraseOldest p = .ok c') :
    Evolves c c' := by
  obtain ⟨_, -, hok⟩ := bind_eq_ok.mp hok
  obtain ⟨_, -, hok⟩ := bind_eq_ok.mp hok
  obtain ⟨_, -, hok⟩ := bind_eq_ok.mp hok
  obtain ⟨⟨r, table⟩, -, hok⟩ := bind_eq_ok.mp hok
  obtain ⟨⟨b, c₁⟩, herase, hok⟩ := bind_eq_ok.mp hok
  obtain ⟨_, -, hok⟩ := bind_eq_ok.mp hok
  cases hok
  exact (evolves_table c table).trans (evolves_finishErase herase)

theorem evolves_eraseTurn {more : LruCache → Bool} {c : LruCache} {r : LruCache ⊕ LruCache}
    (hok : LruCache.eraseTurn more c = .ok r) : ∃ c', (r = .inl c' ∨ r = .inr c') ∧ Evolves c c' := by
  unfold LruCache.eraseTurn at hok
  split_ifs at hok with hmore
  · cases hok
    exact ⟨c, .inr rfl, .refl c⟩
  · obtain ⟨old, -, hok⟩ := bind_eq_ok.mp hok
    split_ifs at hok with hold
    · cases hok
      exact ⟨c, .inr rfl, .refl c⟩
    · obtain ⟨c', herase, hok⟩ := bind_eq_ok.mp hok
      cases hok
      exact ⟨c', .inl rfl, evolves_eraseOldest herase⟩

theorem evolves_eraseWhile {more : LruCache → Bool} {c c' : LruCache}
    (hok : LruCache.eraseWhile more c = .ok c') : Evolves c c' := by
  refine Loop.run_of_invariant Fault.endless (fun c₁ => Evolves c c₁) (fun c₁ => Evolves c c₁)
    ?_ ?_ _ c c' (.refl c) hok
  · intro c₁ c₂ h hturn
    obtain ⟨c₃, hr | hr, hevolves⟩ := evolves_eraseTurn hturn
    · cases hr
      exact h.trans hevolves
    · cases hr
  · intro c₁ c₂ h hturn
    obtain ⟨c₃, hr | hr, hevolves⟩ := evolves_eraseTurn hturn
    · cases hr
    · cases hr
      exact h.trans hevolves

/-- The cache with a new entry, before anything else of `insert` happens. -/
def LruCache.withEntry (c : LruCache) (e : LruHandle) : LruCache := { c with heap := (c.heap.malloc e).2 }

theorem evolves_insertEntry {c c' : LruCache} {key : Bytes} {hk : U32} {value : Value}
    {charge : U64} {deleter : Deleter} {p : Ptr}
    (hok : c.insertEntry key hk value charge deleter = .ok (p, c')) :
    p = c.heap.nextPtr ∧ ∃ e, e.origin = ⟨key, value, charge, deleter⟩ ∧ Evolves (c.withEntry e) c' := by
  unfold LruCache.insertEntry at hok
  split_ifs at hok with hcap
  · obtain ⟨heap, happend, hok⟩ := bind_eq_ok.mp hok
    obtain ⟨⟨old, table⟩, -, hok⟩ := bind_eq_ok.mp hok
    obtain ⟨⟨b, c₂⟩, herase, hok⟩ := bind_eq_ok.mp hok
    cases hok
    obtain ⟨hentries, hnext⟩ := Heap.sameEntries_lruAppend happend
    refine ⟨rfl, ⟨value, deleter, charge, true, 2, hk, key⟩, rfl, ?_⟩
    refine .trans ?_ (evolves_finishErase herase)
    refine .same ?_ hnext rfl rfl
    unfold Heap.origin
    rw [hentries]
    rfl
  · obtain ⟨heap, hset, hok⟩ := bind_eq_ok.mp hok
    cases hok
    obtain ⟨hentries, hnext⟩ := Heap.sameEntries_setNext hset
    refine ⟨rfl, ⟨value, deleter, charge, false, 1, hk, key⟩, rfl, ?_⟩
    refine .same ?_ hnext rfl rfl
    unfold Heap.origin
    rw [hentries]
    rfl

/-- **`insert`** makes one entry. -/
theorem evolves_insert {c c' : LruCache} {raw : RawFunction} {key : Bytes} {hk : U32} {value : Value}
    {charge : U64} {deleter : Deleter} {p : Ptr}
    (hok : c.insert raw key hk value charge deleter = .ok (p, c')) :
    p = c.heap.nextPtr ∧ ∃ e, e.origin = ⟨key, value, charge, deleter⟩ ∧ Evolves (c.withEntry e) c' := by
  obtain ⟨d, hassign, hok⟩ := bind_eq_ok.mp hok
  obtain ⟨-, rfl⟩ := RawFunction.assign_eq_ok.mp hassign
  obtain ⟨⟨p', c₁⟩, hentry, hok⟩ := bind_eq_ok.mp hok
  obtain ⟨c₂, hloop, hok⟩ := bind_eq_ok.mp hok
  cases hok
  obtain ⟨hp, e, horigin, hevolves⟩ := evolves_insertEntry hentry
  exact ⟨hp, e, horigin, hevolves.trans (evolves_eraseWhile hloop)⟩

/-! ## The ledger -/

/-- **The calls of the deleters**: one for each of the entries inserted that are gone. -/
structure Ledger (inserted : List (Ptr × Origin)) (c : LruCache) : Prop where
  nodup : (inserted.map Prod.fst).Nodup
  fresh : ∀ x ∈ inserted, x.1 < c.heap.nextPtr
  alive : ∀ p o, c.heap.origin p = some o → (p, o) ∈ inserted
  deleted : c.deleted.Perm
    ((inserted.filter fun x => (c.heap.origin x.1).isNone).map fun x => x.2.call)

/-- One more entry is gone. -/
theorem filter_update {α β : Type} {inserted : List (Ptr × α)} {alive : Ptr → Option β} {p : Ptr} {a : α}
    {b : β} (hnodup : (inserted.map Prod.fst).Nodup) (hp : (p, a) ∈ inserted) (hb : alive p = some b) :
    (inserted.filter fun x => (Function.update alive p none x.1).isNone).Perm
      ((inserted.filter fun x => (alive x.1).isNone) ++ [(p, a)]) := by
  obtain ⟨l₁, l₂, rfl⟩ := List.append_of_mem hp
  rw [List.map_append, List.map_cons, List.nodup_middle, List.nodup_cons] at hnodup
  have hout : ∀ l : List (Ptr × α), (∀ x ∈ l, x.1 ∈ l₁.map Prod.fst ++ l₂.map Prod.fst) →
      (l.filter fun x : Ptr × α => (Function.update alive p none x.1).isNone)
        = l.filter fun x => (alive x.1).isNone := by
    intro l hl
    refine List.filter_congr fun x hx => ?_
    have hne : x.1 ≠ p := fun he => hnodup.1 (he ▸ hl x hx)
    rw [Function.update_of_ne hne]
  have h₁ := hout l₁ fun x hx => List.mem_append_left _ (List.mem_map_of_mem hx)
  have h₂ := hout l₂ fun x hx => List.mem_append_right _ (List.mem_map_of_mem hx)
  rw [List.filter_append, List.filter_append, List.filter_cons, List.filter_cons, h₁, h₂]
  simp only [Function.update_self, Option.isNone_none, if_true, hb, Option.isNone_some,
    Bool.false_eq_true, if_false]
  rw [List.append_assoc]
  exact (List.perm_append_singleton (p, a) _).symm.append_left _

theorem Ledger.evolves {inserted : List (Ptr × Origin)} {c c' : LruCache} (h : Ledger inserted c)
    (hevolves : Evolves c c') : Ledger inserted c' := by
  induction hevolves with
  | same horigin hnext hcap hdel =>
      refine ⟨h.nodup, ?_, ?_, ?_⟩
      · rw [hnext]
        exact h.fresh
      · rw [horigin]
        exact h.alive
      · rw [horigin, hdel]
        exact h.deleted
  | @free c c' p o ho horigin hnext hcap hdel =>
      refine ⟨h.nodup, ?_, ?_, ?_⟩
      · rw [hnext]
        exact h.fresh
      · intro q o' ho'
        rw [horigin] at ho'
        by_cases hq : q = p
        · rw [hq, Function.update_self] at ho'
          cases ho'
        · rw [Function.update_of_ne hq] at ho'
          exact h.alive q o' ho'
      · have hperm := filter_update h.nodup (h.alive p o ho) ho
        rw [horigin, hdel]
        refine .trans ?_ (hperm.map _).symm
        rw [List.map_append]
        exact h.deleted.append_right _
  | trans _ _ ih ih' => exact ih' (ih h)

/-- A new entry. -/
theorem Ledger.withEntry {inserted : List (Ptr × Origin)} {c : LruCache} (h : Ledger inserted c)
    (e : LruHandle) : Ledger ((c.heap.nextPtr, e.origin) :: inserted) (c.withEntry e) := by
  have hne : ∀ x ∈ inserted, x.1 ≠ c.heap.nextPtr := fun x hx => (h.fresh x hx).ne
  have horigin : (c.withEntry e).heap.origin
      = Function.update c.heap.origin c.heap.nextPtr (some e.origin) := by
    funext q
    by_cases hq : q = c.heap.nextPtr
    · simp [LruCache.withEntry, Heap.malloc, Heap.origin, hq]
    · simp [LruCache.withEntry, Heap.malloc, Heap.origin, hq]
  refine ⟨?_, ?_, ?_, ?_⟩
  · rw [List.map_cons, List.nodup_cons]
    refine ⟨fun hmem => ?_, h.nodup⟩
    obtain ⟨x, hx, he⟩ := List.mem_map.mp hmem
    exact hne x hx he
  · refine List.forall_mem_cons.mpr ⟨Nat.lt_succ_self _, fun x hx => ?_⟩
    exact (h.fresh x hx).trans (Nat.lt_succ_self _)
  · intro p o ho
    rw [horigin] at ho
    by_cases hp : p = c.heap.nextPtr
    · rw [hp, Function.update_self] at ho
      cases ho
      rw [hp]
      exact List.mem_cons_self
    · rw [Function.update_of_ne hp] at ho
      exact List.mem_cons_of_mem _ (h.alive p o ho)
  · have hself : ((c.withEntry e).heap.origin c.heap.nextPtr).isNone = false := by
      rw [horigin, Function.update_self]
      rfl
    have hold : (inserted.filter fun x => ((c.withEntry e).heap.origin x.1).isNone)
        = inserted.filter fun x => (c.heap.origin x.1).isNone := by
      refine List.filter_congr fun x hx => ?_
      rw [horigin, Function.update_of_ne (hne x hx)]
    rw [List.filter_cons, hself, if_neg Bool.false_ne_true, hold]
    exact h.deleted

end SimpleLeveldb.Cache
