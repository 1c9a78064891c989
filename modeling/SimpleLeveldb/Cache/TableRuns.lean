import SimpleLeveldb.Cache.Slots
import Mathlib.Data.Set.Card

set_option autoImplicit false

/-! # The hash table is a map

Calls of `insert`, `remove` and `look_up` in any order do to the table what they do to a map from keys to
handles, whatever the hashes of the keys are.
-/

namespace SimpleLeveldb.Cache

open HandleTable (Tabled Readable Found indexOf)

/-! ## Runs of the table -/

/-- A call. `insert` is given a handle with its fields. -/
inductive TableCall where
  | insert (p : Ptr) (e : LruHandle)
  | remove (key : Bytes)
  | lookUp (key : Bytes)

/-- The handles in memory, and the table. -/
structure TableState where
  heap : Heap
  table : SlotTable

namespace TableState

/-- A new table. `uninit` is what the `next_hash` of handles happen to be. -/
def new (heap : Heap) (uninit : Ptr → Option Ptr) : Except Fault TableState := do
  return ⟨heap, ← SlotTable.new heap uninit⟩

/-- What a call returns, and the state behind it. -/
def call (hash : Bytes → U32) (st : TableState) : TableCall → Except Fault (Option Ptr × TableState)
  | .insert p e => do
      let heap := { st.heap with entries := Function.update st.heap.entries p (some e) }
      let (old, table) ← st.table.insert heap p
      return (old, ⟨heap, table⟩)
  | .remove key => do
      let (result, table) ← st.table.remove st.heap key (hash key)
      return (result, { st with table := table })
  | .lookUp key => do
      return (← st.table.lookUp st.heap key (hash key), st)

/-- What a run returns, and the state behind it. -/
def calls (hash : Bytes → U32) : List TableCall → TableState →
    Except Fault (List (Option Ptr) × TableState)
  | [], st => .ok ([], st)
  | c :: cs, st => do
      let (r, st) ← st.call hash c
      let (rs, st) ← calls hash cs st
      return (r :: rs, st)

end TableState

/-! ## The map -/

/-- The handle for each key. -/
abbrev KeyMap := Bytes → Option Ptr

namespace KeyMap

/-- The handle that a call returns: the one for its key. -/
def returned (m : KeyMap) : TableCall → Option Ptr
  | .insert _ e => m e.keyData
  | .remove key => m key
  | .lookUp key => m key

def call (m : KeyMap) : TableCall → KeyMap
  | .insert p e => Function.update m e.keyData (some p)
  | .remove key => Function.update m key none
  | .lookUp _ => m

/-- The handles that the calls of a run return, and the map behind it. -/
def calls : List TableCall → KeyMap → List (Option Ptr) × KeyMap
  | [], m => ([], m)
  | c :: cs, m => (m.returned c :: (calls cs (m.call c)).1, (calls cs (m.call c)).2)

/-- The keys that are present. -/
def keys (m : KeyMap) : Set Bytes := {key | m key ≠ none}

theorem keys_update (m : KeyMap) (key : Bytes) (p : Ptr) :
    keys (Function.update m key (some p)) = insert key m.keys := by
  ext key'
  by_cases hk : key' = key
  · subst hk
    simp [keys]
  · simp [keys, hk]

/-- A handle is inserted with the hash of its key, a handle in the table has not got another key, and
there are fewer than 2^31 elements. -/
def Allowed (hash : Bytes → U32) (m : KeyMap) : TableCall → Prop
  | .insert p e => e.hash = hash e.keyData ∧ (∀ key, m key = some p → key = e.keyData)
      ∧ (m.call (.insert p e)).keys.ncard < 2 ^ 31
  | _ => True

def AllAllowed (hash : Bytes → U32) : List TableCall → KeyMap → Prop
  | [], _ => True
  | c :: cs, m => m.Allowed hash c ∧ AllAllowed hash cs (m.call c)

end KeyMap

/-- **The table is the map**: the three functions agree on every key, the counts are right, and
every handle is in the bucket of its hash. -/
structure TableState.IsMap (hash : Bytes → U32) (st : TableState) (m : KeyMap) : Prop where
  lookUp : ∀ key, st.table.lookUp st.heap key (hash key) = .ok (m key)
  elems : st.table.elems.toNat = m.keys.ncard
  length : ∃ k, 2 ≤ k ∧ st.table.length.toNat = 2 ^ k
  elems_le : st.table.elems ≤ st.table.length
  buckets : ∃ chains : Nat → List Ptr, ∀ i < st.table.length.toNat,
    st.table.mem.Reads i (chains i) ∧ (chains i).Nodup ∧ ∀ p, p ∈ chains i ↔
      ∃ key, m key = some p ∧ (hash key &&& (st.table.length - 1)).toNat = i

/-! ## The handles of the map -/

/-- The handles `s` in memory are those of the map. -/
structure Keyed (hash : Bytes → U32) (heap : Heap) (s : Finset Ptr) (m : KeyMap) : Prop where
  next : ∀ p, heap.links.next p ≠ some p
  entry : ∀ p ∈ s, ∃ e, heap.entries p = some e
  hashOf : ∀ p ∈ s, heap.hashOf p = hash (heap.keyOf p)
  map : ∀ key p, m key = some p ↔ p ∈ s ∧ heap.keyOf p = key

namespace Keyed

variable {hash : Bytes → U32} {heap : Heap} {s : Finset Ptr} {m : KeyMap} {p : Ptr} {e : LruHandle}
  {key : Bytes} {r : Option Ptr}

theorem readable (h : Keyed hash heap s m) : ∀ p ∈ s, Readable heap p :=
  fun p hp => ⟨h.entry p hp, h.next p⟩

/-- The handle that is found is the one of the map. -/
theorem eq_of_found (h : Keyed hash heap s m) (hr : Found heap s key (hash key) r) : r = m key := by
  refine Option.ext fun p => (hr p).trans ?_
  rw [h.map]
  constructor
  · rintro ⟨hp, -, hkey⟩
    exact ⟨hp, hkey⟩
  · rintro ⟨hp, hkey⟩
    exact ⟨hp, by rw [h.hashOf p hp, hkey], hkey⟩

theorem keys_eq (h : Keyed hash heap s m) : m.keys = heap.keyOf '' (s : Set Ptr) := by
  ext key
  rw [Set.mem_image]
  constructor
  · intro hne
    obtain ⟨p, hp⟩ := Option.ne_none_iff_exists'.mp hne
    exact ⟨p, (h.map key p).mp hp⟩
  · rintro ⟨p, hp⟩ hnone
    rw [(h.map key p).mpr hp] at hnone
    cases hnone

/-- As many keys as handles. -/
theorem ncard_keys (h : Keyed hash heap s m)
    (hkeys : ∀ p ∈ s, ∀ q ∈ s, heap.keyOf p = heap.keyOf q → p = q) : m.keys.ncard = s.card := by
  rw [h.keys_eq, Set.InjOn.ncard_image fun p hp q hq => hkeys p hp q hq, Set.ncard_coe_finset]

/-- A handle is removed. -/
theorem erase (h : Keyed hash heap s m) (hp : m key = some p) :
    Keyed hash heap (s.erase p) (Function.update m key none) where
  next := h.next
  entry q hq := h.entry q (Finset.mem_of_mem_erase hq)
  hashOf q hq := h.hashOf q (Finset.mem_of_mem_erase hq)
  map key' q := by
    obtain ⟨-, hkey⟩ := (h.map key p).mp hp
    rw [Finset.mem_erase, and_assoc, ← h.map key' q]
    by_cases hk : key' = key
    · subst hk
      rw [Function.update_self]
      refine iff_of_false nofun ?_
      rintro ⟨hne, hq⟩
      exact hne (Option.some.inj (hq.symm.trans hp))
    · rw [Function.update_of_ne hk]
      refine (and_iff_right_of_imp fun hq hqp => hk ?_).symm
      rw [← ((h.map key' q).mp hq).2, hqp, hkey]

/-- The fields of a handle are written. -/
theorem keyOf_write (h : Keyed hash heap s m) (hhash : e.hash = hash e.keyData)
    (hsame : ∀ key, m key = some p → key = e.keyData) {q : Ptr} (hq : q ∈ s) :
    Heap.keyOf { heap with entries := Function.update heap.entries p (some e) } q = heap.keyOf q
      ∧ Heap.hashOf { heap with entries := Function.update heap.entries p (some e) } q
        = heap.hashOf q := by
  by_cases hqp : q = p
  · subst hqp
    have hkey := hsame _ ((h.map _ q).mpr ⟨hq, rfl⟩)
    rw [h.hashOf q hq, hkey, ← hhash]
    simp [Heap.keyOf, Heap.hashOf]
  · simp [Heap.keyOf, Heap.hashOf, Function.update_of_ne hqp]

/-- The handles that stay when one is replaced are those with another key. -/
theorem mem_others (h : Keyed hash heap s m) (key : Bytes) (q : Ptr) :
    q ∈ (m key).elim s (fun old => s.erase old) ↔ q ∈ s ∧ heap.keyOf q ≠ key := by
  cases hold : m key with
  | none =>
      refine (and_iff_left_of_imp fun hq hkey => ?_).symm
      rw [(h.map key q).mpr ⟨hq, hkey⟩] at hold
      cases hold
  | some old =>
      obtain ⟨-, hkey⟩ := (h.map _ _).mp hold
      rw [Option.elim_some, Finset.mem_erase, and_comm]
      refine and_congr_right fun hq => not_congr ⟨fun he => he ▸ hkey, fun hq' => ?_⟩
      exact Option.some.inj (((h.map _ q).mpr ⟨hq, hq'⟩).symm.trans hold)

/-- A handle is inserted, in the place of the one with its key. -/
theorem insert (h : Keyed hash heap s m) (hhash : e.hash = hash e.keyData)
    (hsame : ∀ key, m key = some p → key = e.keyData) :
    Keyed hash { heap with entries := Function.update heap.entries p (some e) }
      (insert p ((m e.keyData).elim s fun old => s.erase old))
      (Function.update m e.keyData (some p)) := by
  set heap' : Heap := { heap with entries := Function.update heap.entries p (some e) } with hheap'
  have hkeyp : heap'.keyOf p = e.keyData := by simp [hheap', Heap.keyOf]
  have hhashp : heap'.hashOf p = e.hash := by simp [hheap', Heap.hashOf]
  have hsub : ∀ q ∈ (m e.keyData).elim s (fun old => s.erase old), q ∈ s :=
    fun q hq => ((h.mem_others e.keyData q).mp hq).1
  have hkept := fun q hq => h.keyOf_write hhash hsame (hsub q hq)
  refine ⟨h.next, fun q hq => ?_, fun q hq => ?_, fun key q => ?_⟩
  · by_cases hqp : q = p
    · exact ⟨e, by rw [hqp, hheap']; exact Function.update_self _ _ _⟩
    · obtain ⟨e', he'⟩ := h.entry q (hsub q ((Finset.mem_insert.mp hq).resolve_left hqp))
      exact ⟨e', by rw [← he']; exact Function.update_of_ne hqp _ _⟩
  · rcases Finset.mem_insert.mp hq with rfl | hq
    · rw [hkeyp, hhashp, hhash]
    · rw [(hkept q hq).1, (hkept q hq).2, h.hashOf q (hsub q hq)]
  · by_cases hk : key = e.keyData
    · subst hk
      rw [Function.update_self, Option.some_inj]
      constructor
      · rintro rfl
        exact ⟨Finset.mem_insert_self _ _, hkeyp⟩
      · rintro ⟨hq, hkey⟩
        rcases Finset.mem_insert.mp hq with rfl | hq
        · rfl
        · exact absurd ((hkept q hq).1.symm.trans hkey) ((h.mem_others _ q).mp hq).2
    · rw [Function.update_of_ne hk, h.map]
      constructor
      · rintro ⟨hq, hkey⟩
        have hother := (h.mem_others e.keyData q).mpr ⟨hq, fun he => hk (hkey.symm.trans he)⟩
        exact ⟨Finset.mem_insert_of_mem hother, (hkept q hother).1.trans hkey⟩
      · rintro ⟨hq, hkey⟩
        rcases Finset.mem_insert.mp hq with rfl | hq
        · exact absurd (hkey.symm.trans hkeyp) hk
        · exact ⟨hsub q hq, (hkept q hq).1.symm.trans hkey⟩

end Keyed

/-- **The invariant**: the pointers of the table lead through lists that hold the handles of the map. -/
structure TableState.Inv (hash : Bytes → U32) (st : TableState) (m : KeyMap) (u : HandleTable)
    (s : Finset Ptr) : Prop where
  represents : st.table.Represents u
  tabled : Tabled st.heap u s
  keyed : Keyed hash st.heap s m

namespace TableState

variable {hash : Bytes → U32} {st : TableState} {m : KeyMap} {u : HandleTable} {s : Finset Ptr}

theorem Inv.isMap (h : st.Inv hash m u s) : st.IsMap hash m where
  lookUp key := by
    obtain ⟨r, hr, hfound⟩ := h.tabled.lookUp h.keyed.readable key (hash key)
    rw [← h.keyed.eq_of_found hfound]
    exact h.represents.lookUp h.tabled h.keyed.readable hr
  elems := by
    rw [h.represents.elems, h.tabled.elems, h.keyed.ncard_keys h.tabled.keys]
  length := by
    obtain ⟨k, hk, -, hlength⟩ := h.tabled.length
    exact ⟨k, hk, by rw [h.represents.length, hlength]⟩
  elems_le := by
    rw [h.represents.elems, h.represents.length, BitVec.le_def]
    exact h.tabled.elems_le
  buckets := by
    refine ⟨u.list, fun i hi => ⟨h.represents.reads i (h.represents.length ▸ hi),
      h.tabled.holds.nodup i, fun p => ?_⟩⟩
    rw [h.tabled.holds.mem_iff, h.represents.length]
    constructor
    · rintro ⟨hp, rfl⟩
      refine ⟨st.heap.keyOf p, (h.keyed.map _ p).mpr ⟨hp, rfl⟩, ?_⟩
      rw [← h.keyed.hashOf p hp]
      rfl
    · rintro ⟨key, hp, rfl⟩
      obtain ⟨hps, rfl⟩ := (h.keyed.map key p).mp hp
      refine ⟨hps, ?_⟩
      rw [h.keyed.hashOf p hps]
      rfl

/-- A new table holds nothing. -/
theorem exists_inv_new (hash : Bytes → U32) {heap : Heap} (hnext : ∀ p, heap.links.next p ≠ some p)
    (uninit : Ptr → Option Ptr) :
    ∃ st u, new heap uninit = .ok st ∧ st.Inv hash (fun _ => none) u ∅ := by
  obtain ⟨u, hu, htabled⟩ := HandleTable.new_spec heap
  obtain ⟨t, ht, hrep⟩ := SlotTable.new_represents heap uninit hu
  refine ⟨⟨heap, t⟩, u, by rw [new, ht]; rfl, hrep, htabled, hnext, ?_, ?_, ?_⟩ <;> simp

/-- The elements of a table that may take one more. -/
theorem Inv.card_lt (h : st.Inv hash m u s) {p : Ptr} {key : Bytes}
    (hcard : (KeyMap.keys (Function.update m key (some p))).ncard < 2 ^ 31) : s.card < 2 ^ 31 := by
  rw [← h.keyed.ncard_keys h.tabled.keys]
  rw [KeyMap.keys_update] at hcard
  have hfinite : m.keys.Finite := by
    rw [h.keyed.keys_eq]
    exact s.finite_toSet.image _
  exact lt_of_le_of_lt
    (Set.ncard_le_ncard (Set.subset_insert key m.keys) (hfinite.insert key)) hcard

/-- The lists take a handle that has just been written. -/
theorem Inv.insertHandle (h : st.Inv hash m u s) {p : Ptr} {e : LruHandle} {heap' : Heap}
    (hheap' : heap' = { st.heap with entries := Function.update st.heap.entries p (some e) })
    (hc : m.Allowed hash (.insert p e)) :
    ∃ u', u.insert heap' p = .ok (m e.keyData, u')
      ∧ Tabled heap' u (s : Finset Ptr) ∧ (∀ q ∈ insert p s, Readable heap' q)
      ∧ Tabled heap' u' (insert p ((m e.keyData).elim s fun old => s.erase old)) := by
  obtain ⟨hhash, hsame, hcard⟩ := hc
  have hkept : ∀ q ∈ s, heap'.keyOf q = st.heap.keyOf q ∧ heap'.hashOf q = st.heap.hashOf q := by
    intro q hq
    rw [hheap']
    exact h.keyed.keyOf_write hhash hsame hq
  have htabled : Tabled heap' u s := h.tabled.congr hkept
  have hkeyp : heap'.keyOf p = e.keyData := by simp [hheap', Heap.keyOf]
  have hhashp : heap'.hashOf p = hash e.keyData := by simp [hheap', Heap.hashOf, hhash]
  have hreadable : ∀ q ∈ insert p s, Readable heap' q := by
    intro q hq
    refine ⟨?_, by rw [hheap']; exact h.keyed.next q⟩
    by_cases hqp : q = p
    · exact ⟨e, by rw [hqp, hheap']; exact Function.update_self _ _ _⟩
    · obtain ⟨e', he'⟩ := h.keyed.entry q ((Finset.mem_insert.mp hq).resolve_left hqp)
      exact ⟨e', by rw [← he', hheap']; exact Function.update_of_ne hqp _ _⟩
  by_cases hp : p ∈ s
  · have hm : m e.keyData = some p := by
      rw [h.keyed.map, ← hkeyp]
      exact ⟨hp, (hkept p hp).1.symm⟩
    refine ⟨u, ?_, htabled, hreadable, ?_⟩
    · rw [hm]
      exact htabled.insert_self (fun q hq => hreadable q (Finset.mem_insert_of_mem hq)) hp
    · rw [hm, Option.elim_some, Finset.insert_erase hp]
      exact htabled
  · obtain ⟨r, hfound, hinsert⟩ := htabled.insert hreadable hp fun q hq hkey => by
      rw [(hkept q hq).2, h.keyed.hashOf q hq, ← (hkept q hq).1, hkey, hkeyp, hhashp]
    rw [hkeyp, hhashp] at hfound
    obtain rfl := h.keyed.eq_of_found
      (hfound.congr fun q hq => ⟨(hkept q hq).1, (hkept q hq).2⟩)
    rcases hinsert with ⟨u', hu', htabled'⟩ | ⟨hmax, -⟩
    · exact ⟨u', hu', htabled, hreadable, htabled'⟩
    · have hlt := h.card_lt hcard
      rw [h.tabled.elems] at hmax
      omega

/-- **One call** -/
theorem Inv.call (h : st.Inv hash m u s) {c : TableCall} (hc : m.Allowed hash c) :
    ∃ st' u' s', st.call hash c = .ok (m.returned c, st') ∧ st'.Inv hash (m.call c) u' s' := by
  cases c with
  | insert p e =>
      obtain ⟨u', hu', htabled, hreadable, htabled'⟩ := h.insertHandle rfl hc
      obtain ⟨t', ht', hrep⟩ := h.represents.insert htabled hreadable hu'
      refine ⟨⟨{ st.heap with entries := Function.update st.heap.entries p (some e) }, t'⟩, u', _, ?_,
        hrep, htabled', h.keyed.insert hc.1 hc.2.1⟩
      rw [TableState.call, ht']
      rfl
  | remove key =>
      obtain ⟨r, u', hr, hfound, hnone, hsome⟩ :=
        h.tabled.remove h.keyed.readable key (hash key)
      obtain ⟨t', ht', hrep⟩ := h.represents.remove h.tabled h.keyed.readable hr
      have hm := h.keyed.eq_of_found hfound
      refine ⟨{ st with table := t' }, u', ?_⟩
      rw [TableState.call, ht', hm]
      cases r with
      | none =>
          refine ⟨s, rfl, hrep, hnone rfl ▸ h.tabled, ?_⟩
          rw [KeyMap.call, hm, Function.update_eq_self]
          exact h.keyed
      | some p => exact ⟨s.erase p, rfl, hrep, hsome p rfl, h.keyed.erase hm.symm⟩
  | lookUp key =>
      refine ⟨st, u, s, ?_, h⟩
      rw [TableState.call, h.isMap.lookUp]
      rfl

/-- **Every run**, by induction on its calls. -/
theorem Inv.calls (h : st.Inv hash m u s) {cs : List TableCall} (hcs : KeyMap.AllAllowed hash cs m) :
    ∃ st' u' s', st.calls hash cs = .ok ((KeyMap.calls cs m).1, st')
      ∧ st'.Inv hash (KeyMap.calls cs m).2 u' s' := by
  induction cs generalizing st m u s with
  | nil => exact ⟨st, u, s, rfl, h⟩
  | cons c cs ih =>
      obtain ⟨st₁, u₁, s₁, hcall, h₁⟩ := h.call hcs.1
      obtain ⟨st', u', s', hcalls, h'⟩ := ih h₁ hcs.2
      refine ⟨st', u', s', ?_, h'⟩
      rw [TableState.calls, hcall]
      simp only [ok_bind, hcalls]
      rfl

/-- **The hash table is a map**, whatever the hashes are: every run returns what the map returns, no
assertion fails, and the table is the map. -/
theorem calls_isMap (hash : Bytes → U32) {heap : Heap} (hnext : ∀ p, heap.links.next p ≠ some p)
    (uninit : Ptr → Option Ptr) {cs : List TableCall}
    (hcs : KeyMap.AllAllowed hash cs fun _ => none) :
    ∃ st₀ st, new heap uninit = .ok st₀
      ∧ st₀.calls hash cs = .ok ((KeyMap.calls cs fun _ => none).1, st)
      ∧ st.IsMap hash (KeyMap.calls cs fun _ => none).2 := by
  obtain ⟨st₀, u₀, hnew, h₀⟩ := exists_inv_new hash hnext uninit
  obtain ⟨st, u, s, hcalls, h⟩ := h₀.calls hcs
  exact ⟨st₀, st, hnew, hcalls, h.isMap⟩

/-! ## Two keys with one hash -/

/-- A handle with the hash 0. -/
def handleOf (key : Bytes) : LruHandle := ⟨0, 0, 0, false, 0, 0, key⟩

def noHandles : Heap := ⟨fun _ => none, ⟨fun _ => none, fun _ => none⟩, 0⟩

/-- The handles 5 and 6 are in one bucket, and 5 is removed. -/
theorem calls_isMap_sameHash :
    ∃ st₀ st, new noHandles (fun _ => none) = .ok st₀
      ∧ st₀.calls (fun _ => 0) [.insert 5 (handleOf (text "a")), .insert 6 (handleOf (text "b")),
          .lookUp (text "a"), .remove (text "a")] = .ok ([none, none, some 5, some 5], st)
      ∧ st.IsMap (fun _ => 0) (Function.update (Function.update (Function.update (fun _ => none)
          (text "a") (some 5)) (text "b") (some 6)) (text "a") none) := by
  have hkeys : (KeyMap.keys fun _ => none) = ∅ := by
    ext key
    simp [KeyMap.keys]
  have hnext : ∀ p, noHandles.links.next p ≠ some p := nofun
  refine calls_isMap (fun _ => 0) hnext (fun _ => none)
    ⟨⟨rfl, nofun, ?_⟩, ⟨rfl, ?_, ?_⟩, trivial, trivial, trivial⟩
  · rw [KeyMap.call, KeyMap.keys_update, hkeys]
    exact lt_of_le_of_lt (Set.ncard_insert_le _ _) (by simp)
  · intro key hkey
    by_cases hk : key = text "a" <;> simp [KeyMap.call, handleOf, hk] at hkey
  · rw [KeyMap.call, KeyMap.keys_update, KeyMap.call, KeyMap.keys_update, hkeys]
    refine lt_of_le_of_lt ((Set.ncard_insert_le _ _).trans
      (Nat.succ_le_succ (Set.ncard_insert_le _ _))) (by simp)

end TableState

end SimpleLeveldb.Cache
