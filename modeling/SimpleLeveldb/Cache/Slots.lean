import SimpleLeveldb.Lib.Slots
import SimpleLeveldb.Cache.Table

set_option autoImplicit false

/-! # The hash table, pointer by pointer

`HandleTable` has its chains as lists. In `SlotTable` they are the pointers `list_[ i ]` and the
`next_hash` of the handles, which are changed through the slot that `find_pointer` returns. Each
operation does to the pointers what the one of `HandleTable` does to the lists.
-/

namespace SimpleLeveldb.Cache

open Slots (Slot Mem Leads after)

/-- `handle_table`, with the `next_hash` of all handles. -/
structure SlotTable where
  length : U32
  elems : U32
  mem : Mem Nat Ptr

namespace SlotTable

/-! ## The functions -/

/-- `*ptr` -/
def load (t : SlotTable) (heap : Heap) : Slot Nat Ptr → Except Fault (Option Ptr)
  | .root i => if i < t.length.toNat then .ok (t.mem.root i) else .error .badAccess
  | .link p => do
      let _ ← heap.read p
      return t.mem.link p

/-- `*ptr = x` -/
def store (t : SlotTable) (heap : Heap) (s : Slot Nat Ptr) (x : Option Ptr) :
    Except Fault SlotTable := do
  let _ ← t.load heap s
  return { t with mem := t.mem.set s x }

/-- One turn of the loop of `find_pointer`. -/
def findTurn (t : SlotTable) (heap : Heap) (key : Bytes) (hash : U32) (ptr : Slot Nat Ptr) :
    Except Fault (Slot Nat Ptr ⊕ Slot Nat Ptr) := do
  match ← t.load heap ptr with
  | none => return .inr ptr
  | some p =>
      if ← HandleTable.isMatch heap key hash p then return .inr ptr else return .inl (.link p)

/-- `find_pointer`. A chain has at most `elems_` handles. -/
def findPointer (t : SlotTable) (heap : Heap) (key : Bytes) (hash : U32) :
    Except Fault (Slot Nat Ptr) :=
  Loop.run .endless (t.findTurn heap key hash) (t.elems.toNat + 1)
    (.root (HandleTable.indexOf t.length hash))

/-- `look_up` -/
def lookUp (t : SlotTable) (heap : Heap) (key : Bytes) (hash : U32) :
    Except Fault (Option Ptr) := do
  t.load heap (← t.findPointer heap key hash)

/-- One turn of the inner loop of `resize`, with `h`, the new list and `count`. The new list has the
links of the handles in common with the old one. -/
def rehashTurn (heap : Heap) (newLength : U32) (st : Option Ptr × Mem Nat Ptr × U32) :
    Except Fault ((Option Ptr × Mem Nat Ptr × U32) ⊕ (Mem Nat Ptr × U32)) :=
  match st with
  | (none, mem, count) => .ok (.inr (mem, count))
  | (some h, mem, count) => do
      let next := mem.link h
      let e ← heap.read h
      let i := HandleTable.indexOf newLength e.hash
      if newLength.toNat ≤ i then throw .badAccess
      return .inl (next, mem.push i h, count + 1)

/-- The inner loop, for one bucket. -/
def rehashBucket (t : SlotTable) (heap : Heap) (newLength : U32) (st : Mem Nat Ptr × U32) (i : Nat) :
    Except Fault (Mem Nat Ptr × U32) :=
  Loop.run .endless (rehashTurn heap newLength) (t.elems.toNat + 1) (t.mem.root i, st)

/-- `resize` -/
def resize (t : SlotTable) (heap : Heap) : Except Fault SlotTable := do
  let length ← HandleTable.newLength t.elems
  let newList : Mem Nat Ptr := ⟨fun _ => none, t.mem.link⟩
  let (mem, count) ← (List.range t.length.toNat).foldlM (t.rehashBucket heap length) (newList, 0)
  require (t.elems = count)
  return { t with length := length, mem := mem }

/-- The end of `insert` for a new element. -/
def grow (t : SlotTable) (heap : Heap) : Except Fault SlotTable :=
  if t.length < t.elems then t.resize heap else .ok t

/-- `old == nullptr ? nullptr : old->next_hash` -/
def nextHash (t : SlotTable) (heap : Heap) : Option Ptr → Except Fault (Option Ptr)
  | none => .ok none
  | some old => t.load heap (.link old)

/-- `insert`: the handle that `h` replaces, if any. -/
protected def insert (t : SlotTable) (heap : Heap) (h : Ptr) :
    Except Fault (Option Ptr × SlotTable) := do
  let e ← heap.read h
  let ptr ← t.findPointer heap (← heap.key h) e.hash
  let old ← t.load heap ptr
  let t ← t.store heap (.link h) (← t.nextHash heap old)
  let t ← t.store heap ptr (some h)
  if old.isNone then
    return (old, ← grow { t with elems := t.elems + 1 } heap)
  else return (old, t)

/-- `remove` -/
def remove (t : SlotTable) (heap : Heap) (key : Bytes) (hash : U32) :
    Except Fault (Option Ptr × SlotTable) := do
  let ptr ← t.findPointer heap key hash
  match ← t.load heap ptr with
  | none => return (none, t)
  | some result => do
      let t ← t.store heap ptr (← t.load heap (.link result))
      return (some result, { t with elems := t.elems - 1 })

/-- The constructor. `uninit` is what the links of handles happen to be before they are inserted. -/
def new (heap : Heap) (uninit : Ptr → Option Ptr) : Except Fault SlotTable :=
  resize ⟨0, 0, ⟨fun _ => none, uninit⟩⟩ heap

/-! ## The chains of the pointers -/

open HandleTable (Readable Tabled indexOf indexOf_lt findIn isMatch)

/-- The pointers of `t` lead through the lists of `u`. -/
structure Represents (t : SlotTable) (u : HandleTable) : Prop where
  length : t.length = u.length
  elems : t.elems = u.elems
  reads : ∀ i < u.length.toNat, t.mem.Reads i (u.list i)

variable {heap : Heap} {key : Bytes} {hash : U32} {t : SlotTable} {u u' : HandleTable}
  {s : Finset Ptr} {p : Ptr} {r : Option Ptr}

theorem load_root {i : Nat} (h : i < t.length.toNat) : t.load heap (.root i) = .ok (t.mem.root i) :=
  if_pos h

theorem load_link (h : Readable heap p) : t.load heap (.link p) = .ok (t.mem.link p) := by
  obtain ⟨⟨e, he⟩, -⟩ := h
  rw [load, Heap.read, he]
  rfl

theorem load_after {i : Nat} {l : List Ptr} (hi : i < t.length.toNat)
    (hl : ∀ p ∈ l, Readable heap p) :
    t.load heap (after (.root i) l) = .ok (t.mem.get (after (.root i) l)) := by
  cases l with
  | nil => exact load_root hi
  | cons p l =>
      obtain ⟨q, hq, he⟩ := Slots.after_cons p l (.root i : Slot Nat Ptr)
      rw [he]
      exact load_link (hl q hq)

theorem store_of_load {ptr : Slot Nat Ptr} {y : Option Ptr} (h : t.load heap ptr = .ok y)
    (x : Option Ptr) : t.store heap ptr x = .ok { t with mem := t.mem.set ptr x } := by
  rw [store, h]
  rfl

/-- The loop of `find_pointer` goes through the chain as `findIn` does. -/
theorem run_findTurn {ps l₁ l₂ passed : List Ptr} {ptr : Slot Nat Ptr} {n : Nat}
    (hps : ∀ p ∈ ps, Readable heap p) (hload : t.load heap ptr = .ok (t.mem.get ptr))
    (hlead : Leads t.mem.link (t.mem.get ptr) ps)
    (hfind : findIn heap key hash passed ps = .ok (passed ++ l₁, l₂)) (hn : l₁.length < n) :
    Loop.run .endless (t.findTurn heap key hash) n ptr = .ok (after ptr l₁) := by
  obtain ⟨n, rfl⟩ : ∃ k, n = k + 1 := Nat.exists_eq_add_one.mpr (by omega)
  induction ps generalizing ptr passed l₁ n with
  | nil =>
      obtain ⟨hl₁, -⟩ := Prod.mk.inj (Except.ok.inj hfind)
      obtain rfl : l₁ = [] := List.append_right_eq_self.mp hl₁.symm
      have hturn : t.findTurn heap key hash ptr = .ok (.inr ptr) := by
        rw [findTurn, hload, hlead]
        rfl
      exact Loop.run_inr _ hturn n
  | cons p ps ih =>
      have hp := hps p List.mem_cons_self
      rw [findIn, HandleTable.isMatch_spec hp, ok_bind] at hfind
      have hturn : t.findTurn heap key hash ptr
          = if decide (heap.hashOf p = hash ∧ heap.keyOf p = key) then .ok (.inr ptr)
            else .ok (.inl (.link p)) := by
        rw [findTurn, hload, hlead.1]
        simp only [ok_bind, HandleTable.isMatch_spec hp]
        rfl
      split_ifs at hfind with hm
      · obtain ⟨hl₁, -⟩ := Prod.mk.inj (Except.ok.inj hfind)
        obtain rfl : l₁ = [] := List.append_right_eq_self.mp hl₁.symm
        exact Loop.run_inr _ (hturn.trans (if_pos hm)) n
      · obtain ⟨l₃, l₄, hspec, -⟩ := HandleTable.findIn_spec key hash ps
          (fun q hq => hps q (List.mem_cons_of_mem p hq)) (passed ++ [p])
        obtain ⟨hl₁, rfl⟩ := Prod.mk.inj (Except.ok.inj (hfind.symm.trans hspec))
        rw [List.append_assoc] at hl₁
        obtain rfl : l₁ = p :: l₃ := List.append_cancel_left hl₁
        rw [List.length_cons] at hn
        obtain ⟨n, rfl⟩ : ∃ k, n = k + 1 := Nat.exists_eq_add_one.mpr (by omega)
        rw [Loop.run_inl _ (hturn.trans (if_neg hm))]
        exact ih (fun q hq => hps q (List.mem_cons_of_mem p hq)) (load_link hp) hlead.2 hspec n
          (by omega)

/-- A chain has at most as many handles as the table. -/
theorem length_chain_le
    (h : Buckets.Holds (fun p => indexOf u.length (heap.hashOf p)) u.length.toNat u.list s)
    (helems : u.elems.toNat = s.card) (i : Nat) : (u.list i).length ≤ u.elems.toNat := by
  rw [helems, ← List.toFinset_card_of_nodup (h.nodup i)]
  refine Finset.card_le_card fun p hp => ?_
  exact ((h.mem_iff i p).mp (List.mem_toFinset.mp hp)).1

/-- **`find_pointer`** returns the slot at which the list of the bucket is cut. -/
theorem Represents.findPointer (h : Represents t u) (hu : Tabled heap u s)
    (hs : ∀ p ∈ s, Readable heap p) {i : Nat} {l₁ l₂ : List Ptr}
    (hfind : u.findPointer heap key hash = .ok (i, l₁, l₂)) :
    i < u.length.toNat ∧ u.list i = l₁ ++ l₂
      ∧ t.findPointer heap key hash = .ok (after (.root i) l₁) := by
  have hi : indexOf u.length hash < u.length.toNat := indexOf_lt hu.length.pos hash
  have hreadable : ∀ p ∈ u.list (indexOf u.length hash), Readable heap p :=
    fun p hp => hs p ((hu.holds.mem_iff _ p).mp hp).1
  obtain ⟨l₃, l₄, hspec, hcut, -⟩ := HandleTable.findIn_spec key hash _ hreadable []
  rw [HandleTable.findPointer] at hfind
  simp only [if_neg (not_le.mpr hi), hspec] at hfind
  cases hfind
  refine ⟨hi, hcut, ?_⟩
  have hlength := length_chain_le hu.holds hu.elems (indexOf u.length hash)
  rw [hcut, List.length_append] at hlength
  rw [SlotTable.findPointer, h.length, h.elems]
  refine run_findTurn hreadable (load_root (h.length ▸ hi)) (h.reads _ hi) hspec ?_
  rw [List.nil_append]
  omega

/-- The slot that `find_pointer` returns can be loaded. -/
theorem Represents.load_after (h : Represents t u) (hu : Tabled heap u s)
    (hs : ∀ p ∈ s, Readable heap p) {i : Nat} (hi : i < u.length.toNat) {l₁ l₂ : List Ptr}
    (hcut : u.list i = l₁ ++ l₂) : t.load heap (after (.root i) l₁) = .ok l₂.head? := by
  have hreads := h.reads i hi
  rw [hcut] at hreads
  rw [SlotTable.load_after (h.length ▸ hi), hreads.rest.head]
  intro p hp
  refine hs p ((hu.holds.mem_iff i p).mp ?_).1
  rw [hcut]
  exact List.mem_append_left l₂ hp

/-- **`look_up`** -/
theorem Represents.lookUp (h : Represents t u) (hu : Tabled heap u s)
    (hs : ∀ p ∈ s, Readable heap p) (hr : u.lookUp heap key hash = .ok r) :
    t.lookUp heap key hash = .ok r := by
  rw [HandleTable.lookUp] at hr
  obtain ⟨⟨i, l₁, l₂⟩, hfind, hr⟩ := bind_eq_ok.mp hr
  cases hr
  obtain ⟨hi, hcut, hptr⟩ := h.findPointer hu hs hfind
  rw [SlotTable.lookUp, hptr, ok_bind, h.load_after hu hs hi hcut]

/-! ## Removing -/

/-- The handles of a chain are in no other one. -/
theorem disjoint_chains (h : Tabled heap u s) {i j : Nat} (hij : j ≠ i) {l₁ l₂ : List Ptr}
    (hcut : u.list i = l₁ ++ l₂) : ∀ p ∈ l₁, p ∉ u.list j := by
  intro p hp hpj
  have hpi : p ∈ u.list i := hcut ▸ List.mem_append_left l₂ hp
  exact hij (((h.holds.mem_iff j p).mp hpj).2.symm.trans ((h.holds.mem_iff i p).mp hpi).2)

/-- **`remove`** -/
theorem Represents.remove (h : Represents t u) (hu : Tabled heap u s)
    (hs : ∀ p ∈ s, Readable heap p) (hr : u.remove heap key hash = .ok (r, u')) :
    ∃ t', t.remove heap key hash = .ok (r, t') ∧ Represents t' u' := by
  rw [HandleTable.remove] at hr
  obtain ⟨⟨i, l₁, l₂⟩, hfind, hr⟩ := bind_eq_ok.mp hr
  obtain ⟨hi, hcut, hptr⟩ := h.findPointer hu hs hfind
  have hload := h.load_after hu hs hi hcut
  rw [SlotTable.remove, hptr]
  simp only [ok_bind, hload]
  cases l₂ with
  | nil =>
      cases hr
      exact ⟨t, rfl, h⟩
  | cons p l₂ =>
      cases hr
      have hnd := hu.holds.nodup i
      rw [hcut] at hnd
      obtain ⟨hnd₁, hnd₂, hdisjoint⟩ := List.nodup_append.mp hnd
      have hp : p ∈ s := by
        refine ((hu.holds.mem_iff i p).mp ?_).1
        rw [hcut]
        exact List.mem_append_right l₁ List.mem_cons_self
      have hreads := h.reads i hi
      rw [hcut] at hreads
      simp only [List.head?_cons, load_link (hs p hp), ok_bind, store_of_load hload]
      refine ⟨_, rfl, h.length, by rw [h.elems], fun j hj => ?_⟩
      by_cases hji : j = i
      · subst hji
        simp only [Function.update_self]
        refine hreads.set_after hnd₁ (hreads.behind.congr fun q hq => ?_)
        exact Mem.link_set_after t.mem j _ fun hql =>
          hdisjoint q hql q (List.mem_cons_of_mem p hq) rfl
      · simp only [Function.update_of_ne hji]
        exact (h.reads j hj).set_other hji (disjoint_chains hu hji hcut)

/-! ## Growing -/

/-- The chains of a new list, built from the handles `done`. -/
def Built (heap : Heap) (length : U32) (done : List Ptr) (mem : Mem Nat Ptr) : Prop :=
  ∀ j, mem.Reads j (Buckets.rebuild (fun p => indexOf length (heap.hashOf p)) done (fun _ => []) j)

/-- One more handle. -/
theorem Built.push {length : U32} {done : List Ptr} {mem : Mem Nat Ptr}
    (h : Built heap length done mem) (hp : p ∉ done) :
    Built heap length (done ++ [p]) (mem.push (indexOf length (heap.hashOf p)) p) := by
  intro j
  rw [Buckets.rebuild, List.foldl_append, List.foldl_cons, List.foldl_nil, ← Buckets.rebuild]
  by_cases hj : j = indexOf length (heap.hashOf p)
  · subst hj
    rw [Function.update_self]
    exact (h _).push fun hm => hp (Buckets.mem_of_mem_rebuild hm)
  · rw [Function.update_of_ne hj]
    exact (h j).push_other hj fun hm => hp (Buckets.mem_of_mem_rebuild hm)

/-- **The inner loop** moves the handles of its chain, and changes no link of another one. -/
theorem run_rehashTurn {length : U32} (hlength : 0 < length.toNat) {ps done : List Ptr} {x : Option Ptr}
    {mem : Mem Nat Ptr} (count : U32) {n : Nat} (hbuilt : Built heap length done mem)
    (hlead : Leads mem.link x ps) (hnd : (done ++ ps).Nodup) (hps : ∀ p ∈ ps, Readable heap p)
    (hn : ps.length < n) :
    ∃ mem', Loop.run .endless (rehashTurn heap length) n (x, mem, count)
        = .ok (mem', count + BitVec.ofNat 32 ps.length)
      ∧ Built heap length (done ++ ps) mem' ∧ ∀ q ∉ ps, mem'.link q = mem.link q := by
  induction ps generalizing done x mem count n with
  | nil =>
      obtain ⟨n, rfl⟩ : ∃ k, n = k + 1 := Nat.exists_eq_add_one.mpr (by omega)
      obtain rfl : x = none := hlead
      refine ⟨mem, ?_, by rwa [List.append_nil], fun _ _ => rfl⟩
      rw [Loop.run_inr _ rfl]
      simp
  | cons p ps ih =>
      obtain ⟨n, rfl⟩ : ∃ k, n = k + 1 := Nat.exists_eq_add_one.mpr (by omega)
      obtain ⟨rfl, hlead⟩ := hlead
      obtain ⟨-, hnd₂, hdisjoint⟩ := List.nodup_append.mp hnd
      obtain ⟨hp, -⟩ := List.nodup_cons.mp hnd₂
      have hpdone : p ∉ done := fun hm => hdisjoint p hm p List.mem_cons_self rfl
      obtain ⟨⟨e, he⟩, -⟩ := hps p List.mem_cons_self
      have hhash : heap.hashOf p = e.hash := by simp [Heap.hashOf, he]
      set mem₁ := mem.push (indexOf length (heap.hashOf p)) p with hmem₁
      have hturn : rehashTurn heap length (some p, mem, count)
          = .ok (.inl (mem.link p, mem₁, count + 1)) := by
        rw [rehashTurn, Heap.read, he, hmem₁, hhash]
        simp only [ok_bind, if_neg (not_le.mpr (indexOf_lt hlength e.hash))]
        rfl
      have hlink : ∀ q, q ≠ p → mem₁.link q = mem.link q := fun q hq => Function.update_of_ne hq _ _
      obtain ⟨mem', hrun, hbuilt', hlink'⟩ := ih (count + 1) (hbuilt.push hpdone)
        (hlead.congr fun q hq => hlink q (ne_of_mem_of_not_mem hq hp))
        (by rwa [List.append_assoc]) (fun q hq => hps q (List.mem_cons_of_mem p hq))
        (show ps.length < n by rw [List.length_cons] at hn; omega)
      refine ⟨mem', ?_, by rwa [List.append_assoc] at hbuilt', fun q hq => ?_⟩
      · have hcount : count + 1 + BitVec.ofNat 32 ps.length
            = count + BitVec.ofNat 32 (ps.length + 1) := by
          rw [BitVec.ofNat_add, BitVec.add_assoc, BitVec.add_comm (BitVec.ofNat 32 _)]
          rfl
        rw [Loop.run_inl _ hturn, hrun, List.length_cons, hcount]
      · rw [List.mem_cons, not_or] at hq
        rw [hlink' q hq.2, hlink q hq.1]

/-- The outer loop, by induction on the buckets that are left. -/
theorem foldlM_rehashBucket {length : U32} (hlength : 0 < length.toNat)
    {done : List Ptr} {is : List Nat} {mem : Mem Nat Ptr} (count : U32)
    (hbuilt : Built heap length done mem) (hnd : (done ++ is.flatMap u.list).Nodup)
    (hreads : ∀ i ∈ is, Leads mem.link (t.mem.root i) (u.list i))
    (hps : ∀ i ∈ is, ∀ p ∈ u.list i, Readable heap p)
    (hle : ∀ i ∈ is, (u.list i).length ≤ t.elems.toNat) :
    ∃ mem', is.foldlM (t.rehashBucket heap length) (mem, count)
        = .ok (mem', count + BitVec.ofNat 32 (is.flatMap u.list).length)
      ∧ Built heap length (done ++ is.flatMap u.list) mem' := by
  induction is generalizing done mem count with
  | nil =>
      refine ⟨mem, ?_, by rwa [List.flatMap_nil, List.append_nil]⟩
      rw [List.foldlM_nil, List.flatMap_nil]
      simp
      rfl
  | cons i is ih =>
      rw [List.flatMap_cons, ← List.append_assoc] at hnd
      obtain ⟨mem₁, hrun, hbuilt₁, hlink⟩ := run_rehashTurn hlength count hbuilt
        (hreads i List.mem_cons_self) (List.nodup_append.mp hnd).1 (hps i List.mem_cons_self)
        (Nat.lt_succ_of_le (hle i List.mem_cons_self))
      have hdisjoint : ∀ j ∈ is, ∀ q ∈ u.list j, q ∉ u.list i := fun j hj q hqj hqi =>
        (List.nodup_append.mp hnd).2.2 q (List.mem_append_right _ hqi) q
          (List.mem_flatMap.mpr ⟨j, hj, hqj⟩) rfl
      obtain ⟨mem', hfold, hbuilt'⟩ := ih _ hbuilt₁ hnd
        (fun j hj => (hreads j (List.mem_cons_of_mem i hj)).congr fun q hq =>
          hlink q (hdisjoint j hj q hq))
        (fun j hj => hps j (List.mem_cons_of_mem i hj))
        (fun j hj => hle j (List.mem_cons_of_mem i hj))
      refine ⟨mem', ?_, by rwa [List.flatMap_cons, ← List.append_assoc]⟩
      rw [List.foldlM_cons, rehashBucket, hrun, ok_bind, hfold, List.flatMap_cons,
        List.length_append, BitVec.ofNat_add, BitVec.add_assoc]

/-- **`resize`** -/
theorem Represents.resize (h : Represents t u)
    (hu : Buckets.Holds (fun p => indexOf u.length (heap.hashOf p)) u.length.toNat u.list s)
    (helems : u.elems.toNat = s.card) (hs : ∀ p ∈ s, Readable heap p)
    (hr : u.resize heap = .ok u') : ∃ t', t.resize heap = .ok t' ∧ Represents t' u' := by
  rw [HandleTable.resize] at hr
  obtain ⟨length, hnew, hr⟩ := bind_eq_ok.mp hr
  obtain ⟨list, hfold, hr⟩ := bind_eq_ok.mp hr
  obtain ⟨_, hcount, hr⟩ := bind_eq_ok.mp hr
  cases hr
  have hmem : ∀ i, ∀ p ∈ u.list i, p ∈ s := fun i p hp => ((hu.mem_iff i p).mp hp).1
  have hlength : 0 < length.toNat := by
    rcases le_or_gt u.elems.toNat (2 ^ 31) with hle | hlt
    · obtain ⟨n, hn, hpow, -⟩ := HandleTable.newLength_of_le hle
      rw [Except.ok.inj (hnew.symm.trans hn)]
      exact hpow.pos
    · rw [HandleTable.newLength_of_lt hlt] at hnew
      cases hnew
  rw [HandleTable.foldlM_rehash fun p hp => by
    obtain ⟨i, -, hpi⟩ := List.mem_flatMap.mp hp
    exact hs p (hmem i p hpi)] at hfold
  cases hfold
  obtain ⟨mem', hrun, hbuilt⟩ := @foldlM_rehashBucket heap t u length hlength []
    (List.range u.length.toNat) ⟨fun _ => none, t.mem.link⟩ 0 (fun _ => rfl) hu.nodup_contents
    (fun i hi => h.reads i (List.mem_range.mp hi)) (fun i _ p hp => hs p (hmem i p hp))
    (fun i _ => by
      rw [h.elems]
      exact length_chain_le hu helems i)
  have hcount' : u.elems = 0 + BitVec.ofNat 32 ((List.range u.length.toNat).flatMap u.list).length :=
    (of_require hcount).trans (BitVec.zero_add _).symm
  refine ⟨⟨length, t.elems, mem'⟩, ?_, rfl, h.elems, fun i _ => hbuilt i⟩
  rw [SlotTable.resize, h.elems, hnew, h.length]
  simp only [ok_bind, hrun, require_of hcount']
  rfl

theorem Represents.grow (h : Represents t u)
    (hu : Buckets.Holds (fun p => indexOf u.length (heap.hashOf p)) u.length.toNat u.list s)
    (helems : u.elems.toNat = s.card) (hs : ∀ p ∈ s, Readable heap p)
    (hr : u.grow heap = .ok u') : ∃ t', t.grow heap = .ok t' ∧ Represents t' u' := by
  rw [HandleTable.grow] at hr
  rw [SlotTable.grow, h.length, h.elems]
  split_ifs at hr ⊢ with hlt
  · exact h.resize hu helems hs hr
  · cases hr
    exact ⟨t, rfl, h⟩

/-! ## Inserting -/

/-- `insert` takes over the link of the handle whose place is taken, if there is one. -/
theorem nextHash_head {i : Nat} {l₁ l₂ : List Ptr} (hreads : t.mem.Reads i (l₁ ++ l₂))
    (hl₂ : ∀ q ∈ l₂, Readable heap q) : t.nextHash heap l₂.head? = .ok l₂.tail.head? := by
  cases l₂ with
  | nil => rfl
  | cons old l₂ =>
      rw [List.head?_cons, nextHash, List.tail_cons, ← hreads.behind.head]
      exact load_link (hl₂ old List.mem_cons_self)

/-- A link that is in use keeps its value: a handle that is in its own place already has it. -/
theorem link_set_self {i : Nat} {l₁ l₂ : List Ptr} (hreads : t.mem.Reads i (l₁ ++ l₂))
    (hself : p ∈ s → l₂.head? = some p) {q : Ptr} (hq : q ∈ s) :
    (t.mem.set (.link p) l₂.tail.head?).link q = t.mem.link q := by
  by_cases hqp : q = p
  · subst hqp
    obtain ⟨rest, rfl⟩ := List.head?_eq_some_iff.mp (hself hq)
    rw [List.tail_cons, ← hreads.behind.head]
    exact Function.update_self _ _ _
  · exact Function.update_of_ne hqp _ _

/-- The two stores of `insert`: the handle `p` comes into its chain behind `l₁`, in the place of the
first handle of `l₂`, which it may be itself. -/
theorem Represents.stores (h : Represents t u) (hu : Tabled heap u s)
    (hs : ∀ q ∈ insert p s, Readable heap q) {i : Nat} (hi : i < u.length.toNat)
    {l₁ l₂ : List Ptr} (hcut : u.list i = l₁ ++ l₂) (hself : p ∈ s → l₂.head? = some p) :
    ∃ t₁ t₂, (t.nextHash heap l₂.head? >>= t.store heap (.link p)) = .ok t₁
      ∧ t₁.store heap (after (.root i) l₁) (some p) = .ok t₂
      ∧ Represents t₂ { u with list := Function.update u.list i (l₁ ++ p :: l₂.tail) } := by
  have hmem : ∀ j, ∀ q ∈ u.list j, q ∈ s := fun j q hq => ((hu.holds.mem_iff j q).mp hq).1
  have hsub : ∀ q ∈ l₁ ++ l₂, q ∈ s := fun q hq => hmem i q (hcut ▸ hq)
  have hnd := hu.holds.nodup i
  rw [hcut] at hnd
  obtain ⟨hnd₁, hnd₂, hdisjoint⟩ := List.nodup_append.mp hnd
  have hreads := h.reads i hi
  rw [hcut] at hreads
  have hpl₁ : p ∉ l₁ := fun hp => hdisjoint p hp p
    (List.mem_of_head? (hself (hsub p (List.mem_append_left l₂ hp)))) rfl
  have htail : ∀ q ∈ l₂.tail, q ∈ l₂ := fun q hq => List.mem_of_mem_tail hq
  have hload : t.nextHash heap l₂.head? = .ok l₂.tail.head? :=
    nextHash_head hreads fun q hq => hs q (Finset.mem_insert_of_mem
      (hsub q (List.mem_append_right l₁ hq)))
  set mem₁ := t.mem.set (.link p) l₂.tail.head?
  have hlink₁ : ∀ q ∈ s, mem₁.link q = t.mem.link q := fun q hq => link_set_self hreads hself hq
  have hreads₁ : ∀ j < u.length.toNat, mem₁.Reads j (u.list j) := fun j hj =>
    Slots.Leads.congr (h.reads j hj) fun q hq => hlink₁ q (hmem j q hq)
  refine ⟨{ t with mem := mem₁ }, _, ?_, store_of_load (SlotTable.load_after (h.length ▸ hi) ?_) _,
    h.length, h.elems, fun j hj => ?_⟩
  · rw [hload, ok_bind]
    exact store_of_load (load_link (hs p (Finset.mem_insert_self p s))) _
  · exact fun q hq => hs q (Finset.mem_insert_of_mem (hsub q (List.mem_append_left l₂ hq)))
  · have hchain := hreads₁ j hj
    by_cases hji : j = i
    · subst hji
      rw [hcut] at hchain
      dsimp only
      rw [Function.update_self]
      refine hchain.set_after hnd₁ ⟨rfl, ?_⟩
      rw [Mem.link_set_after _ _ _ hpl₁]
      rw [show mem₁.link p = l₂.tail.head? from Function.update_self _ _ _]
      refine hreads.rest.tail.congr fun q hq => ?_
      rw [Mem.link_set_after _ _ _ fun hql => hdisjoint q hql q (htail q hq) rfl]
      exact hlink₁ q (hsub q (List.mem_append_right l₁ (htail q hq)))
    · dsimp only
      rw [Function.update_of_ne hji]
      exact hchain.set_other hji (disjoint_chains hu hji hcut)

/-- **`insert`** -/
theorem Represents.insert (h : Represents t u) (hu : Tabled heap u s)
    (hs : ∀ q ∈ insert p s, Readable heap q) (hr : u.insert heap p = .ok (r, u')) :
    ∃ t', t.insert heap p = .ok (r, t') ∧ Represents t' u' := by
  have hs' : ∀ q ∈ s, Readable heap q := fun q hq => hs q (Finset.mem_insert_of_mem hq)
  obtain ⟨⟨e, he⟩, hnext⟩ := hs p (Finset.mem_insert_self p s)
  have hkeyp : heap.keyOf p = e.keyData := by simp [Heap.keyOf, he]
  have hhashp : heap.hashOf p = e.hash := by simp [Heap.hashOf, he]
  obtain ⟨l₁, l₂, hfind, -, hnil, hhead⟩ := hu.findPointer hs' (heap.keyOf p) (heap.hashOf p)
  obtain ⟨hi, hcut, hptr⟩ := h.findPointer hu hs' hfind
  have hself : p ∈ s → l₂.head? = some p := fun hp =>
    (hu.found hnil hhead p).mpr ⟨hp, rfl, rfl⟩
  obtain ⟨t₁, t₂, hlink, hstore, hrep⟩ := h.stores hu hs hi hcut hself
  obtain ⟨x, hx, hlink⟩ := bind_eq_ok.mp hlink
  rw [HandleTable.insert, Heap.read, he, ok_bind, Heap.key_spec he hnext, ok_bind, ← hkeyp,
    ← hhashp, hfind, ok_bind] at hr
  rw [SlotTable.insert, Heap.read, he, ok_bind, Heap.key_spec he hnext, ok_bind, ← hkeyp,
    ← hhashp, hptr]
  simp only [ok_bind, h.load_after hu hs' hi hcut, hx, hlink, hstore]
  cases l₂ with
  | cons old l₂ =>
      cases hr
      exact ⟨t₂, rfl, hrep⟩
  | nil =>
      obtain ⟨u₂, hgrow, hr⟩ := bind_eq_ok.mp hr
      cases hr
      have hp : p ∉ s := fun hp => by cases hself hp
      rw [List.append_nil] at hcut
      subst hcut
      have hrep₁ : Represents { t₂ with elems := t₂.elems + 1 }
          { u with
            list := Function.update u.list (indexOf u.length (heap.hashOf p))
              (u.list (indexOf u.length (heap.hashOf p)) ++ [p])
            elems := u.elems + 1 } :=
        ⟨hrep.length, congrArg (· + 1) hrep.elems, hrep.reads⟩
      obtain ⟨t', ht', hrep'⟩ := hrep₁.grow (hu.holds.append hp (indexOf_lt hu.length.pos _))
        (by rw [hu.toNat_elems_succ, hu.elems, Finset.card_insert_of_notMem hp]) hs hgrow
      refine ⟨t', ?_, hrep'⟩
      rw [List.head?_nil, Option.isNone_none, if_pos rfl, ht']
      rfl

/-- **The constructor** -/
theorem new_represents (heap : Heap) (uninit : Ptr → Option Ptr) (hu : HandleTable.new heap = .ok u) :
    ∃ t, new heap uninit = .ok t ∧ Represents t u := by
  have hrep : Represents ⟨0, 0, ⟨fun _ => none, uninit⟩⟩ ⟨0, 0, fun _ => []⟩ :=
    ⟨rfl, rfl, fun _ _ => rfl⟩
  exact hrep.resize (Buckets.holds_empty _ _) rfl (by simp) hu

end SlotTable

end SimpleLeveldb.Cache
