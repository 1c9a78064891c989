import SimpleLeveldb.Cache.LruCache

set_option autoImplicit false

/-! # The lists of the cache

`Core` is the part of the invariant that is about the entries and the two lists: which list an
entry is in, what its reference count says, and the sum of the charges. `ref`, `un_ref` and
`finish_erase` keep it.
-/

namespace SimpleLeveldb.Cache

/-! ## Links -/

namespace Heap

variable {h : Heap} {p q : Ptr}

/-- `h` with other links. -/
def relink (h : Heap) (L : Ring.Links Ptr) : Heap := { h with links := L }

@[simp] theorem relink_links (h : Heap) (L : Ring.Links Ptr) : (h.relink L).links = L := rfl

@[simp] theorem relink_entries (h : Heap) (L : Ring.Links Ptr) :
    (h.relink L).entries = h.entries := rfl

@[simp] theorem relink_nextPtr (h : Heap) (L : Ring.Links Ptr) :
    (h.relink L).nextPtr = h.nextPtr := rfl

@[simp] theorem relink_relink (h : Heap) (L L' : Ring.Links Ptr) :
    (h.relink L).relink L' = h.relink L' := rfl

/-- `h` with another entry at `p`. -/
def set (h : Heap) (p : Ptr) (x : Option LruHandle) : Heap :=
  { h with entries := Function.update h.entries p x }

@[simp] theorem set_entries (h : Heap) (p : Ptr) (x : Option LruHandle) :
    (h.set p x).entries = Function.update h.entries p x := rfl

@[simp] theorem set_links (h : Heap) (p : Ptr) (x : Option LruHandle) :
    (h.set p x).links = h.links := rfl

@[simp] theorem set_nextPtr (h : Heap) (p : Ptr) (x : Option LruHandle) :
    (h.set p x).nextPtr = h.nextPtr := rfl

theorem modify_spec {e : LruHandle} (he : h.entries p = some e) (f : LruHandle → LruHandle) :
    h.modify p f = .ok (h.set p (some (f e))) := by
  rw [modify, read, he]
  rfl

theorem key_spec {e : LruHandle} (he : h.entries p = some e) (hnext : h.links.next p ≠ some p) :
    h.key p = .ok e.keyData := by
  rw [key, read, he, ok_bind, require_of hnext]
  rfl

/-- Liveness does not depend on the links. -/
theorem Alive.relink (hp : h.Alive p) (L : Ring.Links Ptr) : (h.relink L).Alive p := hp

theorem setNext_of_alive (hp : h.Alive p) (x : Option Ptr) :
    h.setNext p x = .ok (h.relink ⟨Function.update h.links.next p x, h.links.prev⟩) :=
  if_pos hp

theorem setPrev_of_alive (hp : h.Alive p) (x : Option Ptr) :
    h.setPrev p x = .ok (h.relink ⟨h.links.next, Function.update h.links.prev p x⟩) :=
  if_pos hp

theorem lruRemove_spec {e : Ptr} (hprev : h.links.prev e = some p) (hnext : h.links.next e = some q)
    (hp : h.Alive p) (hq : h.Alive q) (hne : q ≠ e) :
    h.lruRemove e = .ok (h.relink (h.links.unlink p q)) := by
  rw [lruRemove, hnext, hprev]
  simp only [deref, ok_bind]
  rw [setPrev_of_alive hq, ok_bind]
  simp only [relink_links, Function.update_of_ne hne.symm, hprev, hnext, ok_bind]
  rw [setNext_of_alive (hp.relink _)]
  rfl

theorem lruAppend_spec {list e : Ptr} (hprev : h.links.prev list = some q) (he : h.Alive e)
    (hlist : h.Alive list) (hq : h.Alive q) (hqe : q ≠ e) :
    h.lruAppend list e = .ok (h.relink (h.links.insertBefore list e q)) := by
  rw [lruAppend, setNext_of_alive he]
  simp only [ok_bind, relink_links]
  rw [setPrev_of_alive (he.relink _)]
  simp only [ok_bind, relink_links, relink_relink, Function.update_self, hprev, deref]
  rw [setNext_of_alive (hq.relink _)]
  simp only [ok_bind, relink_links, relink_relink, Function.update_of_ne hqe.symm,
    Function.update_self]
  rw [setPrev_of_alive (hlist.relink _)]
  rfl

/-- **Moving an entry** from one list to the end of the other. -/
theorem move_spec {a b : Ptr} {l m : List Ptr} (h : Heap) (hr : Ring.Pair h.links a b l m)
    (halive : ∀ u ∈ (a :: l) ++ (b :: m), h.Alive u) (hp : p ∈ l) :
    ∃ L, h.moveIf true b p = .ok (h.relink L)
      ∧ Ring.Pair L a b (l.erase p) (m ++ [p])
      ∧ ∀ u, u ∉ (a :: l) ++ (b :: m) → L.next u = h.links.next u := by
  obtain ⟨v, w, hv, hw, hvm, hwm, -, hwp⟩ := hr.left.neighbours hp
  obtain ⟨q, -, hq, -, hqm, -⟩ := hr.right.head_neighbours
  have hpa : p ∈ a :: l := List.mem_cons_of_mem a hp
  have hpb : p ∉ b :: m := hr.disjoint hpa
  have hqp : q ≠ p := fun he => hpb (he ▸ hqm)
  have hpnot : p ∉ a :: l.erase p := by
    have hnd := List.nodup_cons.mp hr.left.nodup
    rw [List.mem_cons, not_or]
    exact ⟨fun he => hnd.1 (he ▸ hp), fun hm => (hnd.2.mem_erase_iff.mp hm).1 rfl⟩
  have hpair := hr.unlink hp hv hw
  have hqw : b ≠ w := fun he => hr.disjoint hwm (he ▸ List.mem_cons_self)
  have hq' : (h.links.unlink v w).prev b = some q := by
    exact (Function.update_of_ne hqw _ _).trans hq
  have hremove := lruRemove_spec hv hw (halive v (List.mem_append_left _ hvm))
    (halive w (List.mem_append_left _ hwm)) hwp
  have happend := lruAppend_spec (h := h.relink (h.links.unlink v w)) hq'
    ((halive p (List.mem_append_left _ hpa)).relink _) ((halive b (by simp)).relink _)
    ((halive q (List.mem_append_right _ hqm)).relink _) hqp
  refine ⟨(h.links.unlink v w).insertBefore b p q, ?_, ?_, fun u hu => ?_⟩
  · rw [moveIf, if_pos rfl, hremove, ok_bind, happend]
    rfl
  · exact (hpair.symm.insertBefore hq' hpb hpnot).symm
  · have hup : u ≠ p := fun he => hu (he ▸ List.mem_append_left _ hpa)
    have huq : u ≠ q := fun he => hu (he ▸ List.mem_append_right _ hqm)
    have huv : u ≠ v := fun he => hu (he ▸ List.mem_append_left _ hvm)
    simp [Ring.Links.insertBefore, Ring.Links.unlink, hup, huq, huv]

end Heap

/-! ## Entries -/

namespace Heap

def keyOf (h : Heap) (p : Ptr) : Bytes := (h.entries p).elim [] fun e => e.keyData

def hashOf (h : Heap) (p : Ptr) : U32 := (h.entries p).elim 0 fun e => e.hash

def chargeOf (h : Heap) (p : Ptr) : U64 := (h.entries p).elim 0 fun e => e.charge

/-- The sum of the charges of some entries. -/
def total (h : Heap) (l : List Ptr) : U64 := (l.map h.chargeOf).sum

theorem total_congr {h h' : Heap} {l : List Ptr} (hl : ∀ p ∈ l, h'.chargeOf p = h.chargeOf p) :
    h'.total l = h.total l := by
  rw [total, total, List.map_congr_left hl]

theorem total_perm (h : Heap) {l l' : List Ptr} (hl : l.Perm l') : h.total l = h.total l' :=
  (hl.map _).sum_eq

theorem total_cons (h : Heap) (p : Ptr) (l : List Ptr) :
    h.total (p :: l) = h.chargeOf p + h.total l := by
  rw [total, List.map_cons, List.sum_cons]
  rfl

/-- Some entries have the keys and the hashes that they had. -/
def SameKeys (h h' : Heap) (l : List Ptr) : Prop :=
  ∀ p ∈ l, h'.keyOf p = h.keyOf p ∧ h'.hashOf p = h.hashOf p

end Heap

/-- What the fields of an entry say: clients hold `held` references to it. -/
structure EntryOk (hash : Bytes → U32) (held : Nat) (inLru inUse : Prop) (e : LruHandle) :
    Prop where
  hash : e.hash = hash e.keyData
  refs : e.refs.toNat = held + if e.inCache then 1 else 0
  pos : 0 < e.refs.toNat
  lru : inLru ↔ e.inCache = true ∧ e.refs.toNat = 1
  inUse : inUse ↔ e.inCache = true ∧ 2 ≤ e.refs.toNat

/-- **The lists and the entries.** -/
structure Core (hash : Bytes → U32) (c : LruCache) (held : Ptr → Nat) (lru inUse : List Ptr) :
    Prop where
  rings : Ring.Pair c.heap.links lruHead inUseHead lru inUse
  entry : ∀ p e, c.heap.entries p = some e → EntryOk hash (held p) (p ∈ lru) (p ∈ inUse) e
  gone : ∀ p, c.heap.entries p = none → held p = 0 ∧ p ∉ lru ∧ p ∉ inUse
  next : ∀ p, c.heap.links.next p = some p → c.heap.entries p = none
  usage : c.usage = c.heap.total (lru ++ inUse)
  fresh : ∀ p e, c.heap.entries p = some e → 2 ≤ p ∧ p < c.heap.nextPtr
  heads : 2 ≤ c.heap.nextPtr

section Core

variable {hash : Bytes → U32} {c c' : LruCache} {held : Ptr → Nat} {lru inUse : List Ptr} {p : Ptr}

theorem Core.exists_entry (h : Core hash c held lru inUse) (hp : p ∈ lru ++ inUse) :
    ∃ e, c.heap.entries p = some e := by
  cases he : c.heap.entries p with
  | none =>
      obtain ⟨-, h1, h2⟩ := h.gone p he
      exact ((List.mem_append.mp hp).elim h1 h2).elim
  | some e => exact ⟨e, rfl⟩

/-- Exactly the entries of the cache are in the lists. -/
theorem EntryOk.mem_iff {n : Nat} {inLru inInUse : Prop} {e : LruHandle}
    (h : EntryOk hash n inLru inInUse e) : inLru ∨ inInUse ↔ e.inCache = true := by
  have := h.pos
  rw [h.lru, h.inUse, ← and_or_left]
  exact ⟨fun hc => hc.1, fun hc => ⟨hc, by omega⟩⟩

theorem Core.alive (h : Core hash c held lru inUse) :
    ∀ u ∈ (lruHead :: lru) ++ (inUseHead :: inUse), c.heap.Alive u := by
  have hentry : ∀ u ∈ lru ++ inUse, c.heap.Alive u := by
    intro u hu
    obtain ⟨e, he⟩ := h.exists_entry hu
    exact .inr (.inr (by rw [he]; rfl))
  intro u hu
  rcases List.mem_append.mp hu with hu | hu <;> rcases List.mem_cons.mp hu with rfl | hu
  · exact .inl rfl
  · exact hentry u (List.mem_append_left _ hu)
  · exact .inr (.inl rfl)
  · exact hentry u (List.mem_append_right _ hu)

/-- **Changing one entry.** The other entries stay in their lists, and those in neither list
keep their links. -/
theorem Core.update {x : Option LruHandle} {L : Ring.Links Ptr} {lru' inUse' : List Ptr} {n : Nat}
    (h : Core hash c held lru inUse) (hp : 2 ≤ p ∧ p < c'.heap.nextPtr)
    (hheap : c'.heap.entries = Function.update c.heap.entries p x ∧ c'.heap.links = L)
    (hnextPtr : c.heap.nextPtr ≤ c'.heap.nextPtr)
    (hrings : Ring.Pair L lruHead inUseHead lru' inUse')
    (hothers : ∀ q, q ≠ p → (q ∈ lru' ↔ q ∈ lru) ∧ (q ∈ inUse' ↔ q ∈ inUse))
    (hself : ∀ e, x = some e → EntryOk hash n (p ∈ lru') (p ∈ inUse') e)
    (hgone : x = none → n = 0 ∧ p ∉ lru' ∧ p ∉ inUse') (hnextp : p ∉ lru' → p ∉ inUse' →
      L.next p ≠ some p)
    (hnext : ∀ q, q ≠ p → 2 ≤ q → q ∉ lru → q ∉ inUse → L.next q = c.heap.links.next q)
    (husage : c'.usage = c'.heap.total (lru' ++ inUse')) :
    Core hash c' (Function.update held p n) lru' inUse' := by
  obtain ⟨hentries, hlinks⟩ := hheap
  have hold : ∀ q, q ≠ p → c'.heap.entries q = c.heap.entries q := fun q hq => by
    rw [hentries, Function.update_of_ne hq]
  have hnew : c'.heap.entries p = x := by rw [hentries, Function.update_self]
  have hfresh : ∀ q e, c'.heap.entries q = some e → 2 ≤ q ∧ q < c'.heap.nextPtr := by
    intro q e he
    by_cases hq : q = p
    · exact hq ▸ hp
    · obtain ⟨h2, hlt⟩ := h.fresh q e (by rw [← hold q hq, he])
      exact ⟨h2, hlt.trans_le hnextPtr⟩
  refine ⟨hlinks ▸ hrings, ?_, ?_, ?_, husage, hfresh, h.heads.trans hnextPtr⟩
  · intro q e he
    by_cases hq : q = p
    · subst hq
      rw [Function.update_self]
      exact hself e (by rw [← hnew, he])
    · rw [Function.update_of_ne hq]
      obtain ⟨h1, h2, h3, h4, h5⟩ := h.entry q e (by rw [← hold q hq, he])
      exact ⟨h1, h2, h3, (hothers q hq).1.trans h4, (hothers q hq).2.trans h5⟩
  · intro q he
    by_cases hq : q = p
    · subst hq
      rw [Function.update_self]
      exact hgone (by rw [← hnew, he])
    · rw [Function.update_of_ne hq, (hothers q hq).1, (hothers q hq).2]
      exact h.gone q (by rw [← hold q hq, he])
  · intro q hself'
    rw [hlinks] at hself'
    by_contra hne
    obtain ⟨e, he⟩ := Option.ne_none_iff_exists'.mp hne
    have hnotlru : q ∉ lru' := fun hm => hrings.left.next_ne_self hm hself'
    have hnotuse : q ∉ inUse' := fun hm => hrings.right.next_ne_self hm hself'
    by_cases hq : q = p
    · subst hq
      exact hnextp hnotlru hnotuse hself'
    · rw [(hothers q hq).1] at hnotlru
      rw [(hothers q hq).2] at hnotuse
      rw [hnext q hq (hfresh q e he).1 hnotlru hnotuse] at hself'
      exact hne (by rw [hold q hq]; exact h.next q hself')

/-! ## `ref` -/

/-- The operands of the test in `ref` and `un_ref`. -/
theorem refs_eq_one_iff (r : U32) : (r == 1) = decide (r.toNat = 1) := by
  rw [beq_eq_decide, decide_eq_decide, ← BitVec.toNat_inj]
  rfl

/-- An entry that is not in use by clients is moved to `in_use_`. -/
theorem Core.moveToInUse (h : Core hash c held lru inUse) {e : LruHandle}
    (he : c.heap.entries p = some e) (hc : e.inCache = true) :
    ∃ L inUse', c.heap.moveIf (e.refs == 1 && e.inCache) inUseHead p = .ok (c.heap.relink L)
      ∧ Ring.Pair L lruHead inUseHead (lru.erase p) inUse'
      ∧ (lru.erase p ++ inUse').Perm (lru ++ inUse)
      ∧ (∀ q, q ≠ p → (q ∈ lru.erase p ↔ q ∈ lru) ∧ (q ∈ inUse' ↔ q ∈ inUse))
      ∧ p ∉ lru.erase p ∧ p ∈ inUse'
      ∧ ∀ q, 2 ≤ q → q ∉ lru → q ∉ inUse → L.next q = c.heap.links.next q := by
  have hok := h.entry p e he
  rw [refs_eq_one_iff, hc, Bool.and_true]
  by_cases hone : e.refs.toNat = 1
  · have hp : p ∈ lru := hok.lru.mpr ⟨hc, hone⟩
    have hnd := (List.nodup_cons.mp h.rings.left.nodup).2
    have hpuse : p ∉ inUse := fun hm => by have := (hok.inUse.mp hm).2; omega
    obtain ⟨L, hmove, hrings, hnext⟩ := c.heap.move_spec h.rings h.alive hp
    refine ⟨L, inUse ++ [p], by rw [decide_eq_true hone]; exact hmove, hrings, ?_, ?_,
      fun hm => (hnd.mem_erase_iff.mp hm).1 rfl, by simp, ?_⟩
    · rw [← List.append_assoc]
      refine (List.perm_append_singleton p _).trans ?_
      rw [← List.cons_append]
      exact (List.perm_cons_erase hp).symm.append_right inUse
    · intro q hq
      rw [hnd.mem_erase_iff, List.mem_append, List.mem_singleton]
      exact ⟨and_iff_right hq, or_iff_left hq⟩
    · intro q h2 hl hu
      refine hnext q ?_
      rw [List.mem_append, List.mem_cons, List.mem_cons]
      rintro ((rfl | hm) | (rfl | hm))
      · exact absurd h2 (by decide)
      · exact hl hm
      · exact absurd h2 (by decide)
      · exact hu hm
  · have hp : p ∈ inUse := hok.inUse.mpr ⟨hc, by have := hok.pos; omega⟩
    have hnotlru : p ∉ lru := fun hm => hone (hok.lru.mp hm).2
    rw [List.erase_of_not_mem hnotlru]
    exact ⟨c.heap.links, inUse, by rw [decide_eq_false hone]; rfl, h.rings, List.Perm.refl _,
      fun q _ => ⟨Iff.rfl, Iff.rfl⟩, hnotlru, hp, fun q _ _ _ => rfl⟩

/-- **`ref`** gives a client one more reference to an entry of the cache. -/
theorem Core.ref (h : Core hash c held lru inUse) (hp : p ∈ lru ++ inUse)
    (hlt : held p + 2 < 2 ^ 32) :
    ∃ c' inUse', c.ref p = .ok c'
      ∧ Core hash c' (Function.update held p (held p + 1)) (lru.erase p) inUse'
      ∧ (lru.erase p ++ inUse').Perm (lru ++ inUse) ∧ c'.table = c.table
      ∧ c.heap.SameKeys c'.heap (lru ++ inUse) := by
  obtain ⟨e, he⟩ := h.exists_entry hp
  have hok := h.entry p e he
  have hc : e.inCache = true := hok.mem_iff.mp (List.mem_append.mp hp)
  obtain ⟨L, inUse', hmove, hrings, hperm, hothers, hnotlru, huse, hnext⟩ := h.moveToInUse he hc
  have hrefs : (e.refs + 1).toNat = e.refs.toNat + 1 := by
    have := hok.refs
    rw [hc, if_pos rfl] at this
    rw [BitVec.toNat_add]
    simp
    omega
  set e' : LruHandle := { e with refs := e.refs + 1 } with he'
  set heap : Heap := (c.heap.relink L).set p (some e') with hheap
  have hcharge : ∀ q, heap.chargeOf q = c.heap.chargeOf q := by
    intro q
    by_cases hq : q = p
    · subst hq
      simp [Heap.chargeOf, hheap, he, he']
    · simp [Heap.chargeOf, hheap, hq]
  refine ⟨{ c with heap := heap }, inUse', ?_, ?_, hperm, rfl, ?_⟩
  · rw [LruCache.ref, Heap.read, he]
    simp only [ok_bind, hmove]
    rw [Heap.modify_spec (h := c.heap.relink L) he]
    rfl
  · obtain ⟨h2, hlt2⟩ := h.fresh p e he
    refine h.update ⟨h2, hlt2⟩ ⟨rfl, rfl⟩ le_rfl hrings hothers ?_ nofun
      (fun _ hn => absurd huse hn) (fun q _ h2 hl hu => hnext q h2 hl hu) ?_
    · intro e₁ he₁
      cases he₁
      have h1 := hok.refs
      have h3 := hok.pos
      refine ⟨hok.hash, ?_, ?_, ?_, ?_⟩
      · simp only [he', hrefs, hc, if_true] at h1 ⊢
        omega
      · simp only [he', hrefs]
        omega
      · simp only [he', hrefs]
        exact ⟨fun hm => absurd hm hnotlru, fun hm => by omega⟩
      · simp only [he', hrefs]
        exact ⟨fun _ => ⟨hc, by omega⟩, fun _ => huse⟩
    · show c.usage = heap.total (lru.erase p ++ inUse')
      rw [h.usage, heap.total_perm hperm]
      exact (Heap.total_congr fun q _ => hcharge q).symm
  · intro q _
    by_cases hq : q = p
    · subst hq
      simp [Heap.keyOf, Heap.hashOf, hheap, he, he']
    · simp [Heap.keyOf, Heap.hashOf, hheap, hq]

/-! ## `un_ref` -/

theorem toNat_refs_sub_one {r : U32} (h : 0 < r.toNat) : (r - 1).toNat = r.toNat - 1 := by
  rw [BitVec.toNat_sub_of_le]
  · rfl
  · rw [BitVec.le_def]
    exact h

/-- The last reference to an entry that is not in the cache. -/
theorem unRef_of_one {e : LruHandle} (he : c.heap.entries p = some e) (hone : e.refs.toNat = 1)
    (hc : e.inCache = false) (hnext : c.heap.links.next p ≠ some p) :
    c.unRef p = .ok { c with
      heap := c.heap.set p none
      deleted := c.deleted ++ [(e.deleter, e.keyData, e.value)] } := by
  have hpos : 0 < e.refs := by
    rw [BitVec.lt_def, hone]
    decide
  have hzero : e.refs - 1 = 0 := by
    rw [← BitVec.toNat_inj, toNat_refs_sub_one (by omega), hone]
    rfl
  rw [LruCache.unRef, Heap.read, he]
  simp only [ok_bind, require_of hpos, Heap.modify_spec he]
  have hkey : (c.heap.set p (some { e with refs := e.refs - 1 })).key p = .ok e.keyData :=
    Heap.key_spec (e := { e with refs := e.refs - 1 }) (Function.update_self _ _ _) hnext
  rw [if_pos hzero, require_of hc, ok_bind, hkey, ok_bind]
  simp only [Heap.free, Heap.set_entries, Function.update_idem]
  rfl

/-- A reference that is not the last. -/
theorem unRef_of_two_le {e : LruHandle} (he : c.heap.entries p = some e)
    (hrefs : 2 ≤ e.refs.toNat) :
    c.unRef p = (do
      let heap ← (c.heap.set p (some { e with refs := e.refs - 1 })).moveIf
        (e.inCache && e.refs - 1 == 1) lruHead p
      return { c with heap := heap }) := by
  have hpos : 0 < e.refs := by
    rw [BitVec.lt_def]
    exact lt_of_lt_of_le (by decide) hrefs
  have hzero : ¬ e.refs - 1 = 0 := by
    rw [← BitVec.toNat_inj, toNat_refs_sub_one (by omega)]
    simp
    omega
  rw [LruCache.unRef, Heap.read, he]
  simp only [ok_bind, require_of hpos, Heap.modify_spec he]
  rw [if_neg hzero]

/-- The keys and charges of entries do not change with the reference count. -/
theorem sameKeys_update {e e' : LruHandle} {h h' : Heap} (he : h.entries p = some e)
    (hentries : h'.entries = Function.update h.entries p (some e'))
    (hkey : e'.keyData = e.keyData ∧ e'.hash = e.hash ∧ e'.charge = e.charge) :
    (∀ l, h.SameKeys h' l) ∧ ∀ q, h'.chargeOf q = h.chargeOf q := by
  refine ⟨fun l q _ => ?_, fun q => ?_⟩
  · by_cases hq : q = p
    · subst hq
      simp [Heap.keyOf, Heap.hashOf, hentries, he, hkey.1, hkey.2.1]
    · simp [Heap.keyOf, Heap.hashOf, hentries, hq]
  · by_cases hq : q = p
    · subst hq
      simp [Heap.chargeOf, hentries, he, hkey.2.2]
    · simp [Heap.chargeOf, hentries, hq]

theorem sameKeys_free {h h' : Heap} (hentries : h'.entries = Function.update h.entries p none)
    {l : List Ptr} (hp : p ∉ l) :
    h.SameKeys h' l ∧ ∀ q ∈ l, h'.chargeOf q = h.chargeOf q := by
  have hne : ∀ q ∈ l, q ≠ p := fun q hq he => hp (he ▸ hq)
  refine ⟨fun q hq => ?_, fun q hq => ?_⟩
  · simp [Heap.keyOf, Heap.hashOf, hentries, hne q hq]
  · simp [Heap.chargeOf, hentries, hne q hq]

/-- An entry whose last client reference goes is moved to `lru_`. -/
theorem Core.moveToLru (h : Core hash c held lru inUse) {e : LruHandle} (e' : LruHandle)
    (he : c.heap.entries p = some e) (hc : e.inCache = true) (hrefs : 2 ≤ e.refs.toNat) :
    ∃ L inUse',
      (c.heap.set p (some e')).moveIf (e.inCache && e.refs - 1 == 1) lruHead p
        = .ok ((c.heap.set p (some e')).relink L)
      ∧ Ring.Pair L lruHead inUseHead (if e.refs.toNat = 2 then lru ++ [p] else lru) inUse'
      ∧ ((if e.refs.toNat = 2 then lru ++ [p] else lru) ++ inUse').Perm (lru ++ inUse)
      ∧ (∀ q, q ≠ p → (q ∈ (if e.refs.toNat = 2 then lru ++ [p] else lru) ↔ q ∈ lru)
        ∧ (q ∈ inUse' ↔ q ∈ inUse))
      ∧ (p ∈ (if e.refs.toNat = 2 then lru ++ [p] else lru) ↔ e.refs.toNat = 2)
      ∧ (p ∈ inUse' ↔ 3 ≤ e.refs.toNat)
      ∧ ∀ q, 2 ≤ q → q ∉ lru → q ∉ inUse → L.next q = c.heap.links.next q := by
  have hok := h.entry p e he
  have hnotlru : p ∉ lru := fun hm => by have := (hok.lru.mp hm).2; omega
  have huse : p ∈ inUse := hok.inUse.mpr ⟨hc, hrefs⟩
  rw [refs_eq_one_iff, toNat_refs_sub_one (by omega), hc, Bool.true_and]
  by_cases htwo : e.refs.toNat = 2
  · have hnd := (List.nodup_cons.mp h.rings.right.nodup).2
    have halive : ∀ u ∈ (inUseHead :: inUse) ++ (lruHead :: lru),
        (c.heap.set p (some e')).Alive u := by
      intro u hu
      by_cases hup : u = p
      · exact .inr (.inr (by rw [hup]; simp))
      · have := h.alive u (List.mem_append.mpr (List.mem_append.mp hu).symm)
        unfold Heap.Alive at this ⊢
        simpa [hup] using this
    obtain ⟨L, hmove, hrings, hnext⟩ :=
      (c.heap.set p (some e')).move_spec h.rings.symm halive huse
    rw [if_pos htwo]
    refine ⟨L, inUse.erase p, ?_, hrings.symm, ?_, ?_, ?_, ?_, ?_⟩
    · rw [decide_eq_true (by omega)]
      exact hmove
    · rw [List.append_assoc]
      refine List.Perm.append_left lru ?_
      exact (List.perm_cons_erase huse).symm
    · intro q hq
      rw [hnd.mem_erase_iff, List.mem_append, List.mem_singleton]
      exact ⟨or_iff_left hq, and_iff_right hq⟩
    · simp [htwo]
    · rw [hnd.mem_erase_iff]
      exact ⟨fun hm => absurd rfl hm.1, fun hm => by omega⟩
    · intro q h2 hl hu
      refine hnext q ?_
      rw [List.mem_append, List.mem_cons, List.mem_cons]
      rintro ((rfl | hm) | (rfl | hm))
      · exact absurd h2 (by decide)
      · exact hu hm
      · exact absurd h2 (by decide)
      · exact hl hm
  · rw [if_neg htwo]
    refine ⟨c.heap.links, inUse, ?_, h.rings, List.Perm.refl _,
      fun q _ => ⟨Iff.rfl, Iff.rfl⟩, ?_, ?_, fun q _ _ _ => rfl⟩
    · rw [decide_eq_false (by omega)]
      rfl
    · exact ⟨fun hm => absurd hm hnotlru, fun hm => absurd hm htwo⟩
    · exact ⟨fun _ => by omega, fun _ => huse⟩

/-- **`release`** gives one reference of a client back. With the last one, an entry of the cache
becomes the newest of `lru_`. -/
theorem Core.release (h : Core hash c held lru inUse) (hp : 0 < held p) :
    ∃ c' lru' inUse', c.release p = .ok c'
      ∧ Core hash c' (Function.update held p (held p - 1)) lru' inUse'
      ∧ lru' = (if p ∈ lru ++ inUse ∧ held p = 1 then lru ++ [p] else lru)
      ∧ (lru' ++ inUse').Perm (lru ++ inUse) ∧ c'.table = c.table
      ∧ c.heap.SameKeys c'.heap (lru ++ inUse) := by
  obtain ⟨e, he⟩ : ∃ e, c.heap.entries p = some e := by
    cases he : c.heap.entries p with
    | none => exact absurd (h.gone p he).1 (by omega)
    | some e => exact ⟨e, rfl⟩
  have hok := h.entry p e he
  have hfresh := h.fresh p e he
  have hnextp : c.heap.links.next p ≠ some p := fun hn => by
    rw [h.next p hn] at he
    cases he
  have hrefs := hok.refs
  rw [LruCache.release]
  by_cases hc : e.inCache = true
  · rw [hc, if_pos rfl] at hrefs
    have htwo : 2 ≤ e.refs.toNat := by omega
    have hmem : p ∈ lru ++ inUse := List.mem_append.mpr (hok.mem_iff.mpr hc)
    have hlast : (p ∈ lru ++ inUse ∧ held p = 1) ↔ e.refs.toNat = 2 := by
      rw [and_iff_right hmem]
      omega
    obtain ⟨L, inUse', hmove, hrings, hperm, hothers, hlru, huse, hnext⟩ :=
      h.moveToLru { e with refs := e.refs - 1 } he hc htwo
    set heap := (c.heap.set p (some { e with refs := e.refs - 1 })).relink L with hheap
    have hentries : heap.entries
        = Function.update c.heap.entries p (some { e with refs := e.refs - 1 }) := rfl
    obtain ⟨hkeys, hcharge⟩ := sameKeys_update he hentries ⟨rfl, rfl, rfl⟩
    have hsub := toNat_refs_sub_one (r := e.refs) (by omega)
    refine ⟨{ c with heap := heap }, _, inUse', by rw [unRef_of_two_le he htwo, hmove]; rfl,
      ?_, by simp only [hlast], hperm, rfl, hkeys _⟩
    refine h.update hfresh ⟨rfl, rfl⟩ le_rfl hrings hothers ?_ nofun ?_
      (fun q _ h2 hl hu => hnext q h2 hl hu) ?_
    · intro e₁ he₁
      cases he₁
      refine ⟨hok.hash, ?_, ?_, ?_, ?_⟩
      · simp only [hc, if_true, hsub]
        omega
      · simp only [hsub]
        omega
      · simp only [hsub, hlru, hc, true_and]
        omega
      · simp only [hsub, huse, hc, true_and]
        omega
    · intro h1 h2
      rw [hlru] at h1
      rw [huse] at h2
      omega
    · show c.usage = _
      rw [h.usage, ← Heap.total_perm _ hperm]
      exact (Heap.total_congr fun q _ => hcharge q).symm
  · have hc : e.inCache = false := by simpa using hc
    have hnotlru : p ∉ lru := fun hm => by simpa [hc] using (hok.lru.mp hm).1
    have hnotuse : p ∉ inUse := fun hm => by simpa [hc] using (hok.inUse.mp hm).1
    have hnot : p ∉ lru ++ inUse := fun hm => (List.mem_append.mp hm).elim hnotlru hnotuse
    have hkeep : lru = if p ∈ lru ++ inUse ∧ held p = 1 then lru ++ [p] else lru :=
      (if_neg fun hm => hnot hm.1).symm
    simp only [hc, Bool.false_eq_true, if_false, Nat.add_zero] at hrefs
    by_cases hone : e.refs.toNat = 1
    · obtain ⟨hkeys, hcharge⟩ := sameKeys_free (c.heap.set_entries p none) hnot
      refine ⟨_, lru, inUse, unRef_of_one he hone hc hnextp, ?_, hkeep, List.Perm.refl _, rfl, hkeys⟩
      refine h.update hfresh ⟨rfl, rfl⟩ le_rfl h.rings (fun q _ => ⟨Iff.rfl, Iff.rfl⟩) nofun
        (fun _ => ⟨by omega, hnotlru, hnotuse⟩) (fun _ _ => hnextp) (fun q _ _ _ _ => rfl) ?_
      show c.usage = _
      rw [h.usage]
      exact (Heap.total_congr hcharge).symm
    · have htwo : 2 ≤ e.refs.toNat := by have := hok.pos; omega
      have hsub := toNat_refs_sub_one (r := e.refs) (by omega)
      set heap := c.heap.set p (some { e with refs := e.refs - 1 }) with hheap
      obtain ⟨hkeys, hcharge⟩ := sameKeys_update he
        (c.heap.set_entries p (some { e with refs := e.refs - 1 })) ⟨rfl, rfl, rfl⟩
      have hstay : (e.inCache && e.refs - 1 == 1) = false := by rw [hc, Bool.false_and]
      refine ⟨{ c with heap := heap }, lru, inUse, by rw [unRef_of_two_le he htwo, hstay]; rfl, ?_,
        hkeep, List.Perm.refl _, rfl, hkeys _⟩
      refine h.update hfresh ⟨rfl, rfl⟩ le_rfl h.rings (fun q _ => ⟨Iff.rfl, Iff.rfl⟩) ?_ nofun
        (fun _ _ => hnextp) (fun q _ _ _ _ => rfl) ?_
      · intro e₁ he₁
        cases he₁
        refine ⟨hok.hash, ?_, ?_, ?_, ?_⟩
        · simp only [hc, hsub]
          simp
          omega
        · simp only [hsub]
          omega
        · simp [hc, hnotlru]
        · simp [hc, hnotuse]
      · show c.usage = _
        rw [h.usage]
        exact (Heap.total_congr fun q _ => hcharge q).symm

/-! ## `finish_erase` -/

/-- An entry of the cache is taken out of its list. -/
theorem Core.lruRemove (h : Core hash c held lru inUse) (hp : p ∈ lru ++ inUse) :
    ∃ L, c.heap.lruRemove p = .ok (c.heap.relink L)
      ∧ Ring.Pair L lruHead inUseHead (lru.erase p) (inUse.erase p)
      ∧ (∀ q, 2 ≤ q → q ∉ lru → q ∉ inUse → L.next q = c.heap.links.next q)
      ∧ L.next p ≠ some p := by
  have hdisj : lru.Disjoint inUse := fun q hl hu =>
    h.rings.disjoint (List.mem_cons_of_mem _ hl) (List.mem_cons_of_mem _ hu)
  have hheads : ∀ q, 2 ≤ q → q ∉ lru → q ∉ inUse →
      q ∉ (lruHead :: lru) ∧ q ∉ (inUseHead :: inUse) := by
    intro q h2 hl hu
    rw [List.mem_cons, List.mem_cons, not_or, not_or]
    exact ⟨⟨fun he => absurd h2 (he ▸ by decide), hl⟩, ⟨fun he => absurd h2 (he ▸ by decide), hu⟩⟩
  rcases List.mem_append.mp hp with hl | hu
  · obtain ⟨v, w, hv, hw, hvm, hwm, hvp, hwp⟩ := h.rings.left.neighbours hl
    refine ⟨c.heap.links.unlink v w, Heap.lruRemove_spec hv hw
      (h.alive v (List.mem_append_left _ hvm)) (h.alive w (List.mem_append_left _ hwm)) hwp,
      ?_, fun q h2 hql hqu => ?_, ?_⟩
    · rw [List.erase_of_not_mem (hdisj hl)]
      exact h.rings.unlink hl hv hw
    · have hqv : q ≠ v := fun he => (hheads q h2 hql hqu).1 (he ▸ hvm)
      exact Function.update_of_ne hqv _ _
    · have hkeep : (c.heap.links.unlink v w).next p = some w :=
        (Function.update_of_ne hvp.symm _ _).trans hw
      rw [hkeep]
      exact fun he => hwp (Option.some.inj he)
  · obtain ⟨v, w, hv, hw, hvm, hwm, hvp, hwp⟩ := h.rings.right.neighbours hu
    refine ⟨c.heap.links.unlink v w, Heap.lruRemove_spec hv hw
      (h.alive v (List.mem_append_right _ hvm)) (h.alive w (List.mem_append_right _ hwm)) hwp,
      ?_, fun q h2 hql hqu => ?_, ?_⟩
    · rw [List.erase_of_not_mem fun hl => hdisj hl hu]
      exact (h.rings.symm.unlink hu hv hw).symm
    · have hqv : q ≠ v := fun he => (hheads q h2 hql hqu).2 (he ▸ hvm)
      exact Function.update_of_ne hqv _ _
    · have hkeep : (c.heap.links.unlink v w).next p = some w :=
        (Function.update_of_ne hvp.symm _ _).trans hw
      rw [hkeep]
      exact fun he => hwp (Option.some.inj he)

theorem Core.erase_perm (h : Core hash c held lru inUse) (hp : p ∈ lru ++ inUse) :
    (lru ++ inUse).Perm (p :: (lru.erase p ++ inUse.erase p)) := by
  have hdisj : lru.Disjoint inUse := fun q hl hu =>
    h.rings.disjoint (List.mem_cons_of_mem _ hl) (List.mem_cons_of_mem _ hu)
  rcases List.mem_append.mp hp with hl | hu
  · rw [List.erase_of_not_mem (hdisj hl), ← List.cons_append]
    exact (List.perm_cons_erase hl).append_right inUse
  · rw [List.erase_of_not_mem fun hl => hdisj hl hu]
    refine ((List.perm_cons_erase hu).append_left lru).trans ?_
    exact List.perm_middle

/-- **`finish_erase`** takes an entry out of the lists; the references of clients stay. -/
theorem Core.finishErase (h : Core hash c held lru inUse) (hp : p ∈ lru ++ inUse) :
    ∃ c', c.finishErase (some p) = .ok (true, c')
      ∧ Core hash c' held (lru.erase p) (inUse.erase p) ∧ c'.table = c.table
      ∧ c.heap.SameKeys c'.heap (lru.erase p ++ inUse.erase p) := by
  obtain ⟨e, he⟩ := h.exists_entry hp
  have hok := h.entry p e he
  have hfresh := h.fresh p e he
  have hc : e.inCache = true := hok.mem_iff.mp (List.mem_append.mp hp)
  have hrefs := hok.refs
  rw [hc, if_pos rfl] at hrefs
  obtain ⟨L, hremove, hrings, hnext, hnextp⟩ := h.lruRemove hp
  have hperm := h.erase_perm hp
  have hndl := (List.nodup_cons.mp h.rings.left.nodup).2
  have hndu := (List.nodup_cons.mp h.rings.right.nodup).2
  have hnotlru : p ∉ lru.erase p := fun hm => (hndl.mem_erase_iff.mp hm).1 rfl
  have hnotuse : p ∉ inUse.erase p := fun hm => (hndu.mem_erase_iff.mp hm).1 rfl
  have hnot : p ∉ lru.erase p ++ inUse.erase p := fun hm =>
    (List.mem_append.mp hm).elim hnotlru hnotuse
  have hothers : ∀ q, q ≠ p → (q ∈ lru.erase p ↔ q ∈ lru) ∧ (q ∈ inUse.erase p ↔ q ∈ inUse) := by
    intro q hq
    rw [hndl.mem_erase_iff, hndu.mem_erase_iff]
    exact ⟨and_iff_right hq, and_iff_right hq⟩
  have hcharge : c.heap.chargeOf p = e.charge := by simp [Heap.chargeOf, he]
  have husage : c.usage - e.charge = c.heap.total (lru.erase p ++ inUse.erase p) := by
    rw [h.usage, c.heap.total_perm hperm, Heap.total_cons, hcharge]
    simp
  -- the entry without the mark of the cache
  set e₁ : LruHandle := { e with inCache := false } with he₁
  set heap₁ := (c.heap.relink L).set p (some e₁) with hheap₁
  set c₁ : LruCache := { c with heap := heap₁, usage := c.usage - e.charge } with hc₁
  have hread : c₁.heap.entries p = some e₁ := Function.update_self _ _ _
  have hstart : c.finishErase (some p) = (do return (true, ← c₁.unRef p)) := by
    rw [LruCache.finishErase, Heap.read, he]
    simp only [ok_bind, require_of hc, hremove]
    rw [Heap.modify_spec (h := c.heap.relink L) he]
    rfl
  by_cases hone : e.refs.toNat = 1
  · have hun := unRef_of_one (c := c₁) hread hone rfl hnextp
    set c' : LruCache := { c₁ with
      heap := c₁.heap.set p none
      deleted := c₁.deleted ++ [(e₁.deleter, e₁.keyData, e₁.value)] } with hc'
    have hentries : c'.heap.entries = Function.update c.heap.entries p none := by
      show Function.update (Function.update c.heap.entries p _) p none = _
      rw [Function.update_idem]
    obtain ⟨hkeys, hcharges⟩ := sameKeys_free hentries hnot
    refine ⟨c', by rw [hstart, hun]; rfl, ?_, rfl, hkeys⟩
    have hcore : Core hash c' (Function.update held p 0) (lru.erase p) (inUse.erase p) := by
      refine h.update hfresh ⟨hentries, rfl⟩ le_rfl hrings hothers nofun
        (fun _ => ⟨rfl, hnotlru, hnotuse⟩) (fun _ _ => hnextp)
        (fun q _ h2 hl hu => hnext q h2 hl hu) ?_
      show c.usage - e.charge = _
      rw [husage]
      exact (Heap.total_congr hcharges).symm
    rwa [show (0 : Nat) = held p by omega, Function.update_eq_self] at hcore
  · have htwo : 2 ≤ e.refs.toNat := by have := hok.pos; omega
    have hsub := toNat_refs_sub_one (r := e.refs) (by omega)
    have hun := unRef_of_two_le (c := c₁) hread htwo
    set e₂ : LruHandle := { e₁ with refs := e₁.refs - 1 } with he₂
    set c' : LruCache := { c₁ with heap := c₁.heap.set p (some e₂) } with hc'
    have hentries : c'.heap.entries = Function.update c.heap.entries p (some e₂) := by
      show Function.update (Function.update c.heap.entries p _) p _ = _
      rw [Function.update_idem]
    obtain ⟨hkeys, hcharges⟩ := sameKeys_update he hentries ⟨rfl, rfl, rfl⟩
    refine ⟨c', by rw [hstart, hun]; rfl, ?_, rfl, hkeys _⟩
    have hcore : Core hash c' (Function.update held p (held p)) (lru.erase p)
        (inUse.erase p) := by
      refine h.update hfresh ⟨hentries, rfl⟩ le_rfl hrings hothers ?_ nofun (fun _ _ => hnextp)
        (fun q _ h2 hl hu => hnext q h2 hl hu) ?_
      · intro e₃ he₃
        cases he₃
        refine ⟨hok.hash, ?_, ?_, ?_, ?_⟩
        · show (e.refs - 1).toNat = held p + 0
          rw [hsub]
          omega
        · show 0 < (e.refs - 1).toNat
          rw [hsub]
          omega
        · exact ⟨fun hm => absurd hm hnotlru, fun hm => Bool.noConfusion hm.1⟩
        · exact ⟨fun hm => absurd hm hnotuse, fun hm => Bool.noConfusion hm.1⟩
      · show c.usage - e.charge = _
        rw [husage]
        exact (Heap.total_congr fun q _ => hcharges q).symm
    rwa [Function.update_eq_self] at hcore

/-! ## New entries -/

theorem Core.nextPtr_not_mem (h : Core hash c held lru inUse) :
    c.heap.entries c.heap.nextPtr = none := by
  by_contra hne
  obtain ⟨e, he⟩ := Option.ne_none_iff_exists'.mp hne
  exact lt_irrefl _ (h.fresh _ e he).2

/-- The heap with a new entry. -/
theorem sameKeys_malloc (h : Core hash c held lru inUse) {e : LruHandle} {heap : Heap}
    (hentries : heap.entries = Function.update c.heap.entries c.heap.nextPtr (some e)) :
    c.heap.SameKeys heap (lru ++ inUse) ∧ ∀ q ∈ lru ++ inUse, heap.chargeOf q = c.heap.chargeOf q := by
  have hne : ∀ q ∈ lru ++ inUse, q ≠ c.heap.nextPtr := by
    rintro q hq rfl
    obtain ⟨-, h1, h2⟩ := h.gone _ h.nextPtr_not_mem
    exact (List.mem_append.mp hq).elim h1 h2
  refine ⟨fun q hq => ?_, fun q hq => ?_⟩
  · simp [Heap.keyOf, Heap.hashOf, hentries, hne q hq]
  · simp [Heap.chargeOf, hentries, hne q hq]

/-- **A new entry of the cache** is in use by the client that gets it. -/
theorem Core.appendNew (h : Core hash c held lru inUse) {e : LruHandle}
    (he : e.inCache = true ∧ e.refs = 2 ∧ e.hash = hash e.keyData) :
    ∃ heap, (c.heap.malloc e).2.lruAppend inUseHead c.heap.nextPtr = .ok heap
      ∧ heap.entries = Function.update c.heap.entries c.heap.nextPtr (some e)
      ∧ ∀ c' : LruCache, c'.heap = heap → c'.usage = c.usage + e.charge →
        Core hash c' (Function.update held c.heap.nextPtr 1) lru (inUse ++ [c.heap.nextPtr]) := by
  set p := c.heap.nextPtr with hp
  obtain ⟨-, hnotlru, hnotuse⟩ := h.gone p h.nextPtr_not_mem
  have h2p : 2 ≤ p := h.heads
  have hplru : p ∉ lruHead :: lru := by
    rw [List.mem_cons, not_or]
    exact ⟨fun heq => absurd h2p (heq ▸ by decide), hnotlru⟩
  have hpuse : p ∉ inUseHead :: inUse := by
    rw [List.mem_cons, not_or]
    exact ⟨fun heq => absurd h2p (heq ▸ by decide), hnotuse⟩
  obtain ⟨q, -, hq, -, hqm, -⟩ := h.rings.right.head_neighbours
  have hqp : q ≠ p := fun heq => hpuse (heq ▸ hqm)
  have halive : ∀ u ∈ inUseHead :: inUse, (c.heap.malloc e).2.Alive u := by
    intro u hu
    have hup : u ≠ p := fun heq => hpuse (heq ▸ hu)
    have := h.alive u (List.mem_append_right _ hu)
    unfold Heap.Alive at this ⊢
    have hkeep : (c.heap.malloc e).2.entries u = c.heap.entries u := Function.update_of_ne hup _ _
    rw [hkeep]
    exact this
  have happend := Heap.lruAppend_spec (h := (c.heap.malloc e).2) (e := p) hq
    (.inr (.inr (by simp [Heap.malloc, hp]))) (halive _ List.mem_cons_self) (halive q hqm) hqp
  have hrings := (h.rings.symm.insertBefore hq hpuse hplru).symm
  refine ⟨_, happend, rfl, fun c' hheap husage => ?_⟩
  obtain ⟨hkeys, hcharges⟩ := sameKeys_malloc h
    (show c'.heap.entries = Function.update c.heap.entries p (some e) by rw [hheap]; rfl)
  refine h.update (x := some e) ⟨h2p, ?_⟩ ⟨by rw [hheap]; rfl, by rw [hheap]; rfl⟩ ?_ hrings ?_ ?_
    nofun ?_ ?_ ?_
  · rw [hheap]
    exact Nat.lt_succ_self _
  · rw [hheap]
    exact Nat.le_succ _
  · intro u hu
    rw [List.mem_append, List.mem_singleton]
    exact ⟨Iff.rfl, or_iff_left hu⟩
  · intro e₁ he₁
    cases he₁
    obtain ⟨h1, h2, h3⟩ := he
    have hrefs : e.refs.toNat = 2 := by
      rw [h2]
      rfl
    refine ⟨h3, by rw [hrefs, h1]; rfl, by omega, ?_, ?_⟩
    · exact ⟨fun hm => absurd hm hnotlru, fun hm => by omega⟩
    · exact ⟨fun _ => ⟨h1, by omega⟩, fun _ => by simp⟩
  · intro _ hn
    exact absurd (List.mem_append_right _ (List.mem_singleton_self p)) hn
  · intro u hu h2 hl hm
    have huq : u ≠ q := by
      rintro rfl
      rcases List.mem_cons.mp hqm with rfl | hqm
      · exact absurd h2 (by decide)
      · exact hm hqm
    show Function.update (Function.update c.heap.links.next p _) q _ u = _
    rw [Function.update_of_ne huq, Function.update_of_ne hu]
  · have hself : c'.heap.chargeOf p = e.charge := by
      rw [hheap]
      simp [Heap.chargeOf, Heap.malloc, hp]
    rw [husage, h.usage, ← List.append_assoc,
      c'.heap.total_perm (List.perm_append_singleton p (lru ++ inUse)), Heap.total_cons, hself,
      Heap.total_congr hcharges]
    exact BitVec.add_comm _ _

/-- A new entry that is not cached. -/
theorem Core.mallocOnly (h : Core hash c held lru inUse) {e : LruHandle}
    (he : e.inCache = false ∧ e.refs = 1 ∧ e.hash = hash e.keyData) :
    ∃ heap, (c.heap.malloc e).2.setNext c.heap.nextPtr none = .ok heap
      ∧ heap.entries = Function.update c.heap.entries c.heap.nextPtr (some e)
      ∧ Core hash { c with heap := heap } (Function.update held c.heap.nextPtr 1) lru inUse := by
  set p := c.heap.nextPtr with hp
  obtain ⟨-, hnotlru, hnotuse⟩ := h.gone p h.nextPtr_not_mem
  have h2p : 2 ≤ p := h.heads
  have hset := Heap.setNext_of_alive (h := (c.heap.malloc e).2) (p := p)
    (.inr (.inr (by simp [Heap.malloc, hp]))) none
  have hne : ∀ u ∈ (lruHead :: lru) ++ (inUseHead :: inUse), u ≠ p := by
    rintro u hu rfl
    rcases List.mem_append.mp hu with hu | hu <;> rcases List.mem_cons.mp hu with heq | hu
    · exact absurd h2p (heq ▸ by decide)
    · exact hnotlru hu
    · exact absurd h2p (heq ▸ by decide)
    · exact hnotuse hu
  have hrings : Ring.Pair ⟨Function.update c.heap.links.next p none, c.heap.links.prev⟩ lruHead
      inUseHead lru inUse :=
    ⟨h.rings.left.congr
        (fun u hu => Function.update_of_ne (hne u (List.mem_append_left _ hu)) _ _) fun _ _ => rfl,
      h.rings.right.congr
        (fun u hu => Function.update_of_ne (hne u (List.mem_append_right _ hu)) _ _)
        fun _ _ => rfl, h.rings.disjoint⟩
  refine ⟨_, hset, rfl, ?_⟩
  obtain ⟨hkeys, hcharges⟩ := sameKeys_malloc h
    (show ((c.heap.malloc e).2.relink
        ⟨Function.update c.heap.links.next p none, c.heap.links.prev⟩).entries
      = Function.update c.heap.entries p (some e) from rfl)
  refine h.update (x := some e) ⟨h2p, Nat.lt_succ_self _⟩ ⟨rfl, rfl⟩ (Nat.le_succ _) hrings
    (fun _ _ => ⟨Iff.rfl, Iff.rfl⟩) ?_ nofun ?_ ?_ ?_
  · intro e₁ he₁
    cases he₁
    obtain ⟨h1, h2, h3⟩ := he
    have hrefs : e.refs.toNat = 1 := by
      rw [h2]
      rfl
    refine ⟨h3, by rw [hrefs, h1]; rfl, by omega, ?_, ?_⟩
    · exact ⟨fun hm => absurd hm hnotlru, fun hm => by simp [h1] at hm⟩
    · exact ⟨fun hm => absurd hm hnotuse, fun hm => by simp [h1] at hm⟩
  · intro _ _
    show Function.update c.heap.links.next p none p ≠ some p
    rw [Function.update_self]
    exact nofun
  · intro u hu _ _ _
    exact Function.update_of_ne hu _ _
  · show c.usage = _
    rw [h.usage]
    exact (Heap.total_congr hcharges).symm

end Core

end SimpleLeveldb.Cache
