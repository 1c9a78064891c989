import SimpleLeveldb.Cache.LruCache
import SimpleLeveldb.Cache.Lists

set_option autoImplicit false

/-! # The hash table of the cache

`Tabled heap t s` says that the table `t` holds the entries `s`, each once and in the chain of its
hash, with different keys. `look_up`, `insert` and `remove` are described on `s`.
-/

namespace SimpleLeveldb.Cache

namespace HandleTable

/-! ## Lengths -/

theorem indexOf_lt {length : U32} (h : 0 < length.toNat) (hash : U32) :
    indexOf length hash < length.toNat := by
  have hle : (hash &&& (length - 1)).toNat ≤ (length - 1).toNat := by
    rw [BitVec.toNat_and]
    exact Nat.and_le_right
  have hsub := toNat_refs_sub_one h
  rw [indexOf]
  omega

/-- A power of two that `uint32_t` can hold, from 4 on. -/
def IsLength (length : U32) : Prop := ∃ k, 2 ≤ k ∧ k ≤ 31 ∧ length.toNat = 2 ^ k

theorem IsLength.pos {length : U32} (h : IsLength length) : 0 < length.toNat := by
  obtain ⟨k, -, -, hk⟩ := h
  rw [hk]
  exact Nat.two_pow_pos k

theorem toNat_double {length : U32} {k : Nat} (hk : k < 31) (h : length.toNat = 2 ^ k) :
    (length * 2).toNat = 2 ^ (k + 1) := by
  have hlt : 2 ^ (k + 1) < 2 ^ 32 := Nat.pow_lt_pow_right (by omega) (by omega)
  rw [BitVec.toNat_mul, h]
  show 2 ^ k * 2 % 2 ^ 32 = 2 ^ (k + 1)
  rw [← Nat.pow_succ, Nat.mod_eq_of_lt hlt]

theorem growTurn_of_lt {elems n : U32} (h : n.toNat < elems.toNat) :
    growTurn elems n = .ok (.inl (n * 2)) := by
  rw [growTurn, if_pos (BitVec.lt_def.mpr h)]

theorem growTurn_of_le {elems n : U32} (h : elems.toNat ≤ n.toNat) :
    growTurn elems n = .ok (.inr n) := by
  rw [growTurn, if_neg fun hlt => absurd (BitVec.lt_def.mp hlt) (not_lt.mpr h)]

theorem isLength_four : IsLength 4 := ⟨2, le_rfl, by omega, rfl⟩

/-- The new length is the first one that is large enough. -/
theorem newLength_of_le {elems : U32} (h : elems.toNat ≤ 2 ^ 31) :
    ∃ length, newLength elems = .ok length ∧ IsLength length ∧ elems.toNat ≤ length.toNat := by
  have hbody : ∀ n, IsLength n →
      (∃ n', growTurn elems n = .ok (.inl n') ∧ IsLength n'
        ∧ 31 - n'.toNat.log2 < 31 - n.toNat.log2)
      ∨ ∃ a, growTurn elems n = .ok (.inr a) ∧ IsLength a ∧ elems.toNat ≤ a.toNat := by
    rintro n ⟨k, h2, h31, hk⟩
    by_cases hlt : n.toNat < elems.toNat
    · have hk31 : k < 31 := by
        by_contra hge
        have hpow : 2 ^ 31 ≤ 2 ^ k := Nat.pow_le_pow_right (by omega) (not_lt.mp hge)
        omega
      have hdouble := toNat_double hk31 hk
      left
      refine ⟨n * 2, growTurn_of_lt hlt, ⟨k + 1, by omega, hk31, hdouble⟩, ?_⟩
      rw [hdouble, hk, Nat.log2_two_pow, Nat.log2_two_pow]
      omega
    · exact .inr ⟨n, growTurn_of_le (not_lt.mp hlt), ⟨k, h2, h31, hk⟩, not_lt.mp hlt⟩
  have hfuel : 31 - (4 : U32).toNat.log2 < 31 := by decide
  rw [newLength]
  exact Loop.run_of_variant Fault.endless IsLength (fun n => 31 - n.toNat.log2) _ hbody 31 4
    isLength_four hfuel

/-- For more elements than 2^31 the length wraps to zero, and the loop goes on for ever. -/
theorem newLength_of_lt {elems : U32} (h : 2 ^ 31 < elems.toNat) :
    newLength elems = .error .endless := by
  have hbody : ∀ n : U32, (n.toNat = 0 ∨ ∃ k ≤ 31, n.toNat = 2 ^ k) →
      ∃ n', growTurn elems n = .ok (.inl n') ∧ (n'.toNat = 0 ∨ ∃ k ≤ 31, n'.toNat = 2 ^ k) := by
    intro n hn
    have hlt : n.toNat < elems.toNat := by
      refine lt_of_le_of_lt ?_ h
      rcases hn with hn | ⟨k, hk, hn⟩
      · omega
      · rw [hn]
        exact Nat.pow_le_pow_right (by omega) hk
    refine ⟨n * 2, growTurn_of_lt hlt, ?_⟩
    rcases hn with hn | ⟨k, hk, hn⟩
    · left
      rw [BitVec.toNat_mul, hn]
      rfl
    · by_cases hk31 : k = 31
      · left
        rw [BitVec.toNat_mul, hn, hk31]
        rfl
      · exact .inr ⟨k + 1, by omega, toNat_double (by omega) hn⟩
  rw [newLength]
  exact Loop.run_of_diverges Fault.endless _ hbody 31 4 (.inr ⟨2, by omega, rfl⟩)

/-! ## Searching a chain -/

/-- What `find_pointer` needs of an entry that it passes. -/
def Readable (heap : Heap) (p : Ptr) : Prop :=
  (∃ e, heap.entries p = some e) ∧ heap.links.next p ≠ some p

variable {heap heap' : Heap} {key : Bytes} {hash : U32} {t : HandleTable} {s : Finset Ptr} {p : Ptr}

theorem isMatch_spec (h : Readable heap p) :
    isMatch heap key hash p = .ok (decide (heap.hashOf p = hash ∧ heap.keyOf p = key)) := by
  obtain ⟨⟨e, he⟩, hnext⟩ := h
  have hhash : heap.hashOf p = e.hash := by simp [Heap.hashOf, he]
  have hkey : heap.keyOf p = e.keyData := by simp [Heap.keyOf, he]
  rw [isMatch, Heap.read, he, hhash, hkey]
  simp only [ok_bind, Heap.key_spec he hnext]
  by_cases h1 : e.hash = hash
  · rw [if_neg (not_not_intro h1)]
    simp [h1, eq_comm]
    rfl
  · rw [if_pos h1]
    simp [h1]
    rfl

/-- The loop of `find_pointer` cuts the chain in front of the first match. -/
theorem findIn_spec (key : Bytes) (hash : U32) (ps : List Ptr) (h : ∀ p ∈ ps, Readable heap p) (passed : List Ptr) :
    ∃ l₁ l₂, findIn heap key hash passed ps = .ok (passed ++ l₁, l₂) ∧ ps = l₁ ++ l₂
      ∧ (∀ p ∈ l₁, ¬ (heap.hashOf p = hash ∧ heap.keyOf p = key))
      ∧ ∀ p ∈ l₂.head?, heap.hashOf p = hash ∧ heap.keyOf p = key := by
  induction ps generalizing passed with
  | nil => exact ⟨[], [], by simp [findIn], rfl, nofun, nofun⟩
  | cons p ps ih =>
      rw [findIn, isMatch_spec (h p List.mem_cons_self), ok_bind]
      by_cases hm : heap.hashOf p = hash ∧ heap.keyOf p = key
      · refine ⟨[], p :: ps, ?_, rfl, nofun, fun q hq => ?_⟩
        · rw [if_pos (decide_eq_true hm), List.append_nil]
          rfl
        · rw [List.head?_cons, Option.mem_some_iff] at hq
          exact hq ▸ hm
      · obtain ⟨l₁, l₂, hfind, hps, hl₁, hl₂⟩ :=
          ih (fun q hq => h q (List.mem_cons_of_mem p hq)) (passed ++ [p])
        refine ⟨p :: l₁, l₂, ?_, by rw [hps, List.cons_append], ?_, hl₂⟩
        · rw [if_neg (by simpa using hm), hfind, List.append_assoc]
          rfl
        · intro q hq
          rcases List.mem_cons.mp hq with rfl | hq
          · exact hm
          · exact hl₁ q hq

/-! ## The contents of the table -/

/-- **The table** holds the entries `s`. -/
structure Tabled (heap : Heap) (t : HandleTable) (s : Finset Ptr) : Prop where
  holds : Buckets.Holds (fun p => indexOf t.length (heap.hashOf p)) t.length.toNat t.list s
  keys : ∀ p ∈ s, ∀ q ∈ s, heap.keyOf p = heap.keyOf q → p = q
  elems : t.elems.toNat = s.card
  length : IsLength t.length
  elems_le : t.elems.toNat ≤ t.length.toNat

theorem Tabled.congr (h : Tabled heap t s)
    (hs : ∀ p ∈ s, heap'.keyOf p = heap.keyOf p ∧ heap'.hashOf p = heap.hashOf p) :
    Tabled heap' t s where
  holds := h.holds.congr fun p hp => by simp only [(hs p hp).2]
  keys := by
    intro p hp q hq hkey
    rw [(hs p hp).1, (hs q hq).1] at hkey
    exact h.keys p hp q hq hkey
  elems := h.elems
  length := h.length
  elems_le := h.elems_le

/-- `find_pointer` cuts the chain of a hash at the entry with the key. -/
theorem Tabled.findPointer (h : Tabled heap t s) (hs : ∀ p ∈ s, Readable heap p) (key : Bytes)
    (hash : U32) :
    ∃ l₁ l₂, t.findPointer heap key hash = .ok (indexOf t.length hash, l₁, l₂)
      ∧ t.list (indexOf t.length hash) = l₁ ++ l₂
      ∧ (l₂ = [] → ∀ p ∈ s, ¬ (heap.hashOf p = hash ∧ heap.keyOf p = key))
      ∧ ∀ p ∈ l₂.head?, p ∈ s ∧ heap.hashOf p = hash ∧ heap.keyOf p = key := by
  set i := indexOf t.length hash with hi
  have hlt : ¬ t.length.toNat ≤ i := not_le.mpr (indexOf_lt h.length.pos hash)
  obtain ⟨l₁, l₂, hfind, hchain, hl₁, hl₂⟩ := findIn_spec key hash (t.list i)
    (fun p hp => hs p ((h.holds.mem_iff i p).mp hp).1) []
  refine ⟨l₁, l₂, ?_, hchain, ?_, ?_⟩
  · rw [HandleTable.findPointer]
    simp only [← hi, if_neg hlt, hfind]
    rfl
  · rintro rfl p hp hmatch
    have hmem : p ∈ t.list i := (h.holds.mem_iff i p).mpr ⟨hp, by simp only [hmatch.1, hi]⟩
    rw [hchain, List.append_nil] at hmem
    exact hl₁ p hmem hmatch
  · intro p hp
    have hmem : p ∈ t.list i := by
      rw [hchain]
      exact List.mem_append_right _ (List.mem_of_mem_head? hp)
    exact ⟨((h.holds.mem_iff i p).mp hmem).1, hl₂ p hp⟩

/-- `r` is the entry with the key and the hash, if there is one. -/
def Found (heap : Heap) (s : Finset Ptr) (key : Bytes) (hash : U32) (r : Option Ptr) : Prop :=
  ∀ p, r = some p ↔ p ∈ s ∧ heap.hashOf p = hash ∧ heap.keyOf p = key

theorem Found.congr {r : Option Ptr} (h : Found heap s key hash r)
    (hs : ∀ p ∈ s, heap.keyOf p = heap'.keyOf p ∧ heap.hashOf p = heap'.hashOf p) :
    Found heap' s key hash r := by
  intro p
  rw [h p]
  refine and_congr_right fun hp => ?_
  rw [(hs p hp).1, (hs p hp).2]

/-- Only one entry can be found. -/
theorem Found.unique {r r' : Option Ptr} (h : Found heap s key hash r)
    (h' : Found heap s key hash r') : r = r' :=
  Option.ext fun p => (h p).trans (h' p).symm

theorem Tabled.found (h : Tabled heap t s) {key : Bytes} {hash : U32} {l : List Ptr}
    (hnil : l = [] → ∀ p ∈ s, ¬ (heap.hashOf p = hash ∧ heap.keyOf p = key))
    (hhead : ∀ p ∈ l.head?, p ∈ s ∧ heap.hashOf p = hash ∧ heap.keyOf p = key) :
    Found heap s key hash l.head? := by
  intro p
  refine ⟨fun hp => hhead p hp, fun ⟨hp, hmatch⟩ => ?_⟩
  cases l with
  | nil => exact absurd hmatch (hnil rfl p hp)
  | cons q l =>
      obtain ⟨hq, -, hkey⟩ := hhead q rfl
      rw [List.head?_cons, h.keys q hq p hp (hkey.trans hmatch.2.symm)]

/-- **`look_up`** -/
theorem Tabled.lookUp (h : Tabled heap t s) (hs : ∀ p ∈ s, Readable heap p) (key : Bytes)
    (hash : U32) : ∃ r, t.lookUp heap key hash = .ok r ∧ Found heap s key hash r := by
  obtain ⟨l₁, l₂, hfind, -, hnil, hhead⟩ := h.findPointer hs key hash
  refine ⟨l₂.head?, ?_, h.found hnil hhead⟩
  rw [HandleTable.lookUp, hfind]
  rfl

theorem Tabled.subset (h : Tabled heap t s) {t' : HandleTable} {s' : Finset Ptr} (hs : s' ⊆ s)
    (hholds : Buckets.Holds (fun p => indexOf t.length (heap.hashOf p)) t.length.toNat t'.list s')
    (hlength : t'.length = t.length) (helems : t'.elems.toNat = s'.card) : Tabled heap t' s' where
  holds := hlength ▸ hholds
  keys := fun p hp q hq => h.keys p (hs hp) q (hs hq)
  elems := helems
  length := hlength ▸ h.length
  elems_le := by
    rw [helems, hlength]
    exact (Finset.card_le_card hs).trans (h.elems ▸ h.elems_le)

/-- **`remove`** -/
theorem Tabled.remove (h : Tabled heap t s) (hs : ∀ p ∈ s, Readable heap p) (key : Bytes)
    (hash : U32) :
    ∃ r t', t.remove heap key hash = .ok (r, t') ∧ Found heap s key hash r
      ∧ (r = none → t' = t) ∧ ∀ p, r = some p → Tabled heap t' (s.erase p) := by
  obtain ⟨l₁, l₂, hfind, hchain, hnil, hhead⟩ := h.findPointer hs key hash
  have hfound := h.found hnil hhead
  rw [HandleTable.remove, hfind, ok_bind]
  cases l₂ with
  | nil => exact ⟨none, t, rfl, hfound, fun _ => rfl, nofun⟩
  | cons p l₂ =>
      refine ⟨some p, _, rfl, hfound, nofun, ?_⟩
      rintro q ⟨⟩
      have hp : p ∈ s := (hhead p rfl).1
      have hpos : 0 < s.card := Finset.card_pos.mpr ⟨p, hp⟩
      refine h.subset (Finset.erase_subset p s) (h.holds.erase hchain) rfl ?_
      show (t.elems - 1).toNat = _
      rw [toNat_refs_sub_one (by rw [h.elems]; exact hpos), h.elems, Finset.card_erase_of_mem hp]

/-! ## Growing -/

theorem rehash_spec {length : U32} {e : LruHandle} (he : heap.entries p = some e)
    (B : Nat → List Ptr) :
    rehash heap length B p = .ok (Function.update B (indexOf length (heap.hashOf p))
      (p :: B (indexOf length (heap.hashOf p)))) := by
  have hhash : heap.hashOf p = e.hash := by simp [Heap.hashOf, he]
  rw [rehash, Heap.read, he, hhash]
  rfl

/-- The loops of `resize` build the new chains. -/
theorem foldlM_rehash {length : U32} {old : List Ptr} (hs : ∀ p ∈ old, Readable heap p) :
    old.foldlM (rehash heap length) (fun _ => [])
      = .ok (Buckets.rebuild (fun p => indexOf length (heap.hashOf p)) old (fun _ => [])) := by
  refine foldlM_eq_ok (fun B p hp => ?_) _
  obtain ⟨⟨e, he⟩, -⟩ := hs p hp
  exact rehash_spec he B

/-- **`resize`** keeps the entries, if the new length can be represented. -/
theorem resize_spec
    (hholds : Buckets.Holds (fun p => indexOf t.length (heap.hashOf p)) t.length.toNat t.list s)
    (hkeys : ∀ p ∈ s, ∀ q ∈ s, heap.keyOf p = heap.keyOf q → p = q)
    (helems : t.elems.toNat = s.card) (hs : ∀ p ∈ s, Readable heap p)
    (hle : t.elems.toNat ≤ 2 ^ 31) : ∃ t', t.resize heap = .ok t' ∧ Tabled heap t' s := by
  obtain ⟨length, hnew, hlength, hlarge⟩ := newLength_of_le hle
  set old := Buckets.contents t.length.toNat t.list with hold
  set B := Buckets.rebuild (fun p => indexOf length (heap.hashOf p)) old (fun _ => []) with hB
  have hmem : ∀ p ∈ old, p ∈ s := fun p hp => by
    rwa [← hholds.toFinset_contents, List.mem_toFinset]
  have hfold : old.foldlM (rehash heap length) (fun _ => []) = .ok B :=
    foldlM_rehash fun p hp => hs p (hmem p hp)
  have hcount : t.elems = BitVec.ofNat 32 old.length := by
    rw [hold, hholds.length_contents, ← helems, BitVec.ofNat_toNat, BitVec.setWidth_eq]
  have hrebuilt := (Buckets.holds_empty (fun p => indexOf length (heap.hashOf p))
    length.toNat).rebuild hholds.nodup_contents
    fun p _ => ⟨Finset.notMem_empty p, indexOf_lt hlength.pos _⟩
  rw [hholds.toFinset_contents, Finset.union_empty] at hrebuilt
  refine ⟨{ t with length := length, list := B }, ?_, hrebuilt, hkeys, helems, hlength, hlarge⟩
  rw [resize, hnew]
  simp only [ok_bind]
  rw [← hold, hfold, ok_bind, require_of hcount]
  rfl

theorem resize_of_lt (h : 2 ^ 31 < t.elems.toNat) : t.resize heap = .error .endless := by
  rw [resize, newLength_of_lt h]
  rfl

/-! ## Inserting -/

/-- The count of a table with one more element. -/
theorem Tabled.toNat_elems_succ (h : Tabled heap t s) : (t.elems + 1).toNat = t.elems.toNat + 1 := by
  have hle := h.elems_le
  obtain ⟨k, -, hk31, hk⟩ := h.length
  have hpow : 2 ^ k ≤ 2 ^ 31 := Nat.pow_le_pow_right (by omega) hk31
  rw [BitVec.toNat_add]
  simp
  omega

/-- **A new element** at the end of its chain, with another length of the table when the chains
become too long. -/
theorem Tabled.addNew (h : Tabled heap t s) (hs : ∀ q ∈ insert p s, Readable heap q) (hp : p ∉ s)
    (hnew : ∀ q ∈ s, heap.keyOf q ≠ heap.keyOf p) :
    (∃ t', grow { t with
        list := Function.update t.list (indexOf t.length (heap.hashOf p))
          (t.list (indexOf t.length (heap.hashOf p)) ++ [p])
        elems := t.elems + 1 } heap = .ok t' ∧ Tabled heap t' (insert p s))
      ∨ t.elems.toNat = 2 ^ 31 ∧ grow { t with
        list := Function.update t.list (indexOf t.length (heap.hashOf p))
          (t.list (indexOf t.length (heap.hashOf p)) ++ [p])
        elems := t.elems + 1 } heap = .error .endless := by
  have hle := h.elems_le
  obtain ⟨k, hk2, hk31, hk⟩ := h.length
  have hpow : 2 ^ k ≤ 2 ^ 31 := Nat.pow_le_pow_right (by omega) hk31
  have hsucc := h.toNat_elems_succ
  have hcard : (t.elems + 1).toNat = (insert p s).card := by
    rw [hsucc, h.elems, Finset.card_insert_of_notMem hp]
  have hholds := h.holds.append hp (indexOf_lt h.length.pos (heap.hashOf p))
  have hkeys : ∀ q ∈ insert p s, ∀ r ∈ insert p s, heap.keyOf q = heap.keyOf r → q = r := by
    intro q hq r hr hkey
    rcases Finset.mem_insert.mp hq with rfl | hq' <;> rcases Finset.mem_insert.mp hr with rfl | hr'
    · rfl
    · exact absurd hkey.symm (hnew r hr')
    · exact absurd hkey (hnew q hq')
    · exact h.keys q hq' r hr' hkey
  rw [grow]
  by_cases hlt : t.length < t.elems + 1
  · rw [if_pos hlt]
    rw [BitVec.lt_def, hsucc] at hlt
    by_cases hmax : t.elems.toNat = 2 ^ 31
    · exact .inr ⟨hmax, resize_of_lt (by show _ < (t.elems + 1).toNat; omega)⟩
    · exact .inl (resize_spec hholds hkeys hcard hs (by show (t.elems + 1).toNat ≤ _; omega))
  · rw [if_neg hlt]
    rw [BitVec.lt_def, hsucc] at hlt
    exact .inl ⟨_, rfl, hholds, hkeys, hcard, h.length, by show (t.elems + 1).toNat ≤ t.length.toNat; omega⟩

/-- **A new element in the place of an old one** with its key. -/
theorem Tabled.replace (h : Tabled heap t s) {old : Ptr} {l₁ l₂ : List Ptr}
    (hchain : t.list (indexOf t.length (heap.hashOf p)) = l₁ ++ old :: l₂) (hp : p ∉ s)
    (hold : old ∈ s ∧ heap.keyOf old = heap.keyOf p) :
    Tabled heap { t with
      list := Function.update t.list (indexOf t.length (heap.hashOf p)) (l₁ ++ p :: l₂) }
      (insert p (s.erase old)) where
  holds := h.holds.replace hchain hp rfl
  keys := by
    have hother : ∀ q ∈ s.erase old, heap.keyOf q ≠ heap.keyOf p := fun q hq hkey =>
      (Finset.mem_erase.mp hq).1 (h.keys q (Finset.mem_of_mem_erase hq) old hold.1
        (hkey.trans hold.2.symm))
    intro q hq r hr hkey
    rcases Finset.mem_insert.mp hq with rfl | hq' <;> rcases Finset.mem_insert.mp hr with rfl | hr'
    · rfl
    · exact absurd hkey.symm (hother r hr')
    · exact absurd hkey (hother q hq')
    · exact h.keys q (Finset.mem_of_mem_erase hq') r (Finset.mem_of_mem_erase hr') hkey
  elems := by
    have hpos : 0 < s.card := Finset.card_pos.mpr ⟨old, hold.1⟩
    rw [h.elems, Finset.card_insert_of_notMem fun hm => hp (Finset.mem_of_mem_erase hm),
      Finset.card_erase_of_mem hold.1, Nat.sub_add_cancel hpos]
  length := h.length
  elems_le := h.elems_le

/-- **`insert`** puts an entry into the table, in the place of the one with its key. The table
cannot have more than 2^31 entries: the one after that is inserted for ever. -/
theorem Tabled.insert (h : Tabled heap t s) (hs : ∀ q ∈ insert p s, Readable heap q) (hp : p ∉ s)
    (hhash : ∀ q ∈ s, heap.keyOf q = heap.keyOf p → heap.hashOf q = heap.hashOf p) :
    ∃ r, Found heap s (heap.keyOf p) (heap.hashOf p) r
      ∧ ((∃ t', t.insert heap p = .ok (r, t')
          ∧ Tabled heap t' (insert p (r.elim s fun old => s.erase old)))
        ∨ t.elems.toNat = 2 ^ 31 ∧ t.insert heap p = .error .endless) := by
  obtain ⟨⟨e, he⟩, hnext⟩ := hs p (Finset.mem_insert_self p s)
  have hkeyp : heap.keyOf p = e.keyData := by simp [Heap.keyOf, he]
  have hhashp : heap.hashOf p = e.hash := by simp [Heap.hashOf, he]
  obtain ⟨l₁, l₂, hfind, hchain, hnil, hhead⟩ :=
    h.findPointer (fun q hq => hs q (Finset.mem_insert_of_mem hq)) (heap.keyOf p) (heap.hashOf p)
  refine ⟨l₂.head?, h.found hnil hhead, ?_⟩
  rw [HandleTable.insert, Heap.read, he, ok_bind, Heap.key_spec he hnext, ok_bind, ← hkeyp,
    ← hhashp, hfind, ok_bind]
  cases l₂ with
  | cons old l₂ =>
      obtain ⟨hold, -, hkey⟩ := hhead old rfl
      exact .inl ⟨_, rfl, h.replace hchain hp ⟨hold, hkey⟩⟩
  | nil =>
      rw [List.append_nil] at hchain
      have hnew : ∀ q ∈ s, heap.keyOf q ≠ heap.keyOf p := fun q hq hkey =>
        hnil rfl q hq ⟨hhash q hq hkey, hkey⟩
      rcases h.addNew hs hp hnew with ⟨t', hgrow, ht'⟩ | ⟨hmax, hgrow⟩
      · left
        refine ⟨t', ?_, ht'⟩
        simp only [← hchain, hgrow]
        rfl
      · right
        refine ⟨hmax, ?_⟩
        simp only [← hchain, hgrow]
        rfl

/-- An entry that is in the table already takes its own place. -/
theorem Tabled.insert_self (h : Tabled heap t s) (hs : ∀ q ∈ s, Readable heap q) (hp : p ∈ s) :
    t.insert heap p = .ok (some p, t) := by
  obtain ⟨⟨e, he⟩, hnext⟩ := hs p hp
  have hkeyp : heap.keyOf p = e.keyData := by simp [Heap.keyOf, he]
  have hhashp : heap.hashOf p = e.hash := by simp [Heap.hashOf, he]
  obtain ⟨l₁, l₂, hfind, hchain, hnil, hhead⟩ := h.findPointer hs (heap.keyOf p) (heap.hashOf p)
  have hself : l₂.head? = some p := (h.found hnil hhead p).mpr ⟨hp, rfl, rfl⟩
  obtain ⟨l₂, rfl⟩ := List.head?_eq_some_iff.mp hself
  rw [HandleTable.insert, Heap.read, he, ok_bind, Heap.key_spec he hnext, ok_bind, ← hkeyp,
    ← hhashp, hfind, ok_bind]
  dsimp only
  rw [← hchain, Function.update_eq_self]
  rfl

/-- **The constructor** -/
theorem new_spec (heap : Heap) : ∃ t, new heap = .ok t ∧ Tabled heap t ∅ :=
  resize_spec (Buckets.holds_empty _ _) (by simp) rfl (by simp) (by decide)

end HandleTable

end SimpleLeveldb.Cache
