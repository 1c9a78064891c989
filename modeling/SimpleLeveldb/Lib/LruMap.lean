import Mathlib.Tactic

set_option autoImplicit false

/-! # Maps that evict what was used least recently

A map from keys to items, each with a handle and a charge, and with clients that hold handles. The
items that nobody holds stand in a queue, in the order in which their last handles were given
back. When the charges exceed the capacity, `evict` takes items from the front of the queue, until
the charges fit or nothing is left in the queue (`evict_eq`).
-/

/-- A key with the handle and the charge of its item. -/
structure LruMap.Item (K H : Type) where
  key : K
  handle : H
  charge : Nat

/-- `unheld` is the queue, and `held` counts the handles of the clients. -/
structure LruMap (K H : Type) where
  capacity : Nat
  items : List (LruMap.Item K H)
  unheld : List H
  held : H → Nat

namespace LruMap

variable {K H : Type}

def new (capacity : Nat) : LruMap K H := ⟨capacity, [], [], fun _ => 0⟩

def usage (m : LruMap K H) : Nat := (m.items.map Item.charge).sum

def handles (m : LruMap K H) : List H := m.items.map Item.handle

/-! ## Operations -/

def lookUp [DecidableEq K] (m : LruMap K H) (key : K) : Option H :=
  (m.items.find? fun i => decide (i.key = key)).map Item.handle

variable [DecidableEq H]

/-- A client gets a handle. -/
def ref (m : LruMap K H) (p : H) : LruMap K H :=
  { m with held := Function.update m.held p (m.held p + 1), unheld := m.unheld.erase p }

/-- A client gives a handle back. With the last one, an item of the map joins the queue. -/
def release (m : LruMap K H) (p : H) : LruMap K H :=
  { m with
    held := Function.update m.held p (m.held p - 1)
    unheld := if p ∈ m.handles ∧ m.held p = 1 then m.unheld ++ [p] else m.unheld }

/-- An item leaves the map. -/
def drop (m : LruMap K H) (p : H) : LruMap K H :=
  { m with items := m.items.filter fun i => decide (i.handle ≠ p), unheld := m.unheld.erase p }

/-- Everything leaves the map that nobody holds. -/
def prune (m : LruMap K H) : LruMap K H := m.unheld.foldl drop m

def evictFrom : List H → LruMap K H → LruMap K H
  | [], m => m
  | p :: ps, m => if m.capacity < m.usage then evictFrom ps (m.drop p) else m

/-- From the front of the queue, as long as the charges exceed the capacity. -/
def evict (m : LruMap K H) : LruMap K H := evictFrom m.unheld m

/-- A new item, with the handle that a client gets. -/
def add (m : LruMap K H) (key : K) (p : H) (charge : Nat) : LruMap K H :=
  { m with items := ⟨key, p, charge⟩ :: m.items, held := Function.update m.held p (m.held p + 1) }

def erase [DecidableEq K] (m : LruMap K H) (key : K) : LruMap K H :=
  (m.lookUp key).elim m m.drop

/-- The item of a key is replaced; then the map has to fit the capacity again. -/
def insert [DecidableEq K] (m : LruMap K H) (key : K) (p : H) (charge : Nat) : LruMap K H :=
  ((m.erase key).add key p charge).evict

/-! ## Items that leave -/

variable {m : LruMap K H} {p : H} {ps : List H}

theorem usage_drop_le (m : LruMap K H) (p : H) : (m.drop p).usage ≤ m.usage :=
  (List.filter_sublist.map Item.charge).sum_le_sum fun _ _ => Nat.zero_le _

theorem unheld_drop (h : m.unheld = p :: ps) : (m.drop p).unheld = ps := by
  show m.unheld.erase p = ps
  rw [h, List.erase_cons_head]

/-- The items that `l` tells, without the one of `p`. -/
theorem items_drop {item : H → Item K H} (hhandle : ∀ q, (item q).handle = q) {l l' : List H}
    (hitems : m.items.Perm (l.map item)) (hl : l.Perm (p :: l')) (hp : p ∉ l') :
    (m.drop p).items.Perm (l'.map item) := by
  refine ((hitems.trans (hl.map item)).filter _).trans ?_
  have hkeep : ∀ i ∈ l'.map item, decide (i.handle ≠ p) = true := by
    intro i hi
    obtain ⟨q, hq, rfl⟩ := List.mem_map.mp hi
    rw [hhandle, decide_eq_true_eq]
    exact fun he => hp (he ▸ hq)
  rw [List.map_cons, List.filter_cons_of_neg (by simp [hhandle]), List.filter_eq_self.mpr hkeep]

section Erase

variable [DecidableEq K] {key : K}

theorem unheld_erase : (m.erase key).unheld = (m.lookUp key).elim m.unheld m.unheld.erase := by
  unfold erase
  cases m.lookUp key <;> rfl

theorem held_erase : (m.erase key).held = m.held := by
  unfold erase
  cases m.lookUp key <;> rfl

theorem capacity_erase : (m.erase key).capacity = m.capacity := by
  unfold erase
  cases m.lookUp key <;> rfl

theorem usage_erase_le : (m.erase key).usage ≤ m.usage := by
  unfold erase
  cases m.lookUp key with
  | none => exact le_rfl
  | some p => exact m.usage_drop_le p

end Erase

theorem prune_nil (h : m.unheld = []) : m.prune = m := by
  rw [prune, h, List.foldl_nil]

theorem prune_cons (h : m.unheld = p :: ps) : m.prune = (m.drop p).prune := by
  rw [prune, prune, h, List.foldl_cons, unheld_drop h]

theorem held_foldl_drop (l : List H) : (l.foldl drop m).held = m.held := by
  induction l generalizing m with
  | nil => rfl
  | cons p l ih => exact ih

theorem capacity_foldl_drop (l : List H) : (l.foldl drop m).capacity = m.capacity := by
  induction l generalizing m with
  | nil => rfl
  | cons p l ih => exact ih

theorem held_prune : m.prune.held = m.held := held_foldl_drop m.unheld

/-! ## Eviction -/

theorem evict_nil (h : m.unheld = []) : m.evict = m := by
  rw [evict, h, evictFrom]

theorem evict_of_le (h : m.usage ≤ m.capacity) : m.evict = m := by
  rw [evict]
  cases m.unheld with
  | nil => rfl
  | cons p ps => rw [evictFrom, if_neg (not_lt.mpr h)]

theorem evict_cons (h : m.unheld = p :: ps) (hlt : m.capacity < m.usage) :
    m.evict = (m.drop p).evict := by
  rw [evict, evict, h, evictFrom, if_pos hlt, unheld_drop h]

/-- **Eviction** takes the items that were unheld for the longest time, no more of them than it
has to, and leaves a map that fits or of which everything is held. -/
theorem evict_eq (m : LruMap K H) :
    ∃ gone kept, m.unheld = gone ++ kept ∧ m.evict = gone.foldl drop m ∧ m.evict.unheld = kept
      ∧ (∀ l, l <+: gone → l ≠ gone → m.capacity < (l.foldl drop m).usage)
      ∧ (m.evict.usage ≤ m.capacity ∨ kept = []) := by
  generalize hunheld : m.unheld = l
  induction l generalizing m with
  | nil =>
      refine ⟨[], [], rfl, evict_nil hunheld, ?_, ?_, .inr rfl⟩
      · rw [evict_nil hunheld, hunheld]
      · intro l hl hne
        exact absurd (List.prefix_nil.mp hl) hne
  | cons p ps ih =>
      by_cases hlt : m.capacity < m.usage
      · obtain ⟨gone, kept, happend, hevict, hkept, hneeded, hfits⟩ := ih (m.drop p) (unheld_drop hunheld)
        have hcons := evict_cons hunheld hlt
        refine ⟨p :: gone, kept, by rw [happend, List.cons_append], ?_, ?_, ?_, ?_⟩
        · rw [hcons, hevict, List.foldl_cons]
        · rw [hcons, hkept]
        · intro l hl hne
          cases l with
          | nil => exact hlt
          | cons q l =>
              obtain ⟨rfl, hl'⟩ := List.cons_prefix_cons.mp hl
              exact hneeded l hl' fun he => hne (by rw [he])
        · rw [hcons]
          exact hfits
      · have hle := not_lt.mp hlt
        refine ⟨[], p :: ps, rfl, evict_of_le hle, ?_, ?_, .inl ?_⟩
        · rw [evict_of_le hle, hunheld]
        · intro l hl hne
          exact absurd (List.prefix_nil.mp hl) hne
        · rw [evict_of_le hle]
          exact hle

/-- Evicting changes nothing for the clients. -/
theorem held_insert [DecidableEq K] (key : K) (charge : Nat) :
    (m.insert key p charge).held = Function.update m.held p (m.held p + 1) := by
  obtain ⟨gone, -, -, hevict, -⟩ := ((m.erase key).add key p charge).evict_eq
  rw [insert, hevict, held_foldl_drop]
  show Function.update (m.erase key).held p ((m.erase key).held p + 1) = _
  rw [held_erase]

theorem capacity_insert [DecidableEq K] (key : K) (charge : Nat) :
    (m.insert key p charge).capacity = m.capacity := by
  obtain ⟨gone, -, -, hevict, -⟩ := ((m.erase key).add key p charge).evict_eq
  rw [insert, hevict, capacity_foldl_drop]
  exact capacity_erase

end LruMap
