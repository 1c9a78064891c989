import Mathlib.Data.Finset.Card
import Mathlib.Data.List.Nodup
import Mathlib.Tactic

set_option autoImplicit false

/-! # Chained buckets

A chained hash table keeps its elements in `n` lists, the buckets; a function `index` says in
which of them an element belongs. `Holds index n B s` says that the buckets `B` hold the elements
of `s`, each once and in its bucket. An operation replaces one bucket: `B i` is cut at the
place of the element that is searched for, as a pointer to a slot of the chain does.
-/

namespace Buckets

variable {P : Type}

/-- The buckets hold the elements of `s`, each once, where they belong. -/
structure Holds (index : P → Nat) (n : Nat) (B : Nat → List P) (s : Finset P) : Prop where
  mem_iff : ∀ i p, p ∈ B i ↔ p ∈ s ∧ index p = i
  nodup : ∀ i, (B i).Nodup
  index_lt : ∀ p ∈ s, index p < n

/-- All elements, bucket by bucket. -/
def contents (n : Nat) (B : Nat → List P) : List P := (List.range n).flatMap B

variable {index index' : P → Nat} {n : Nat} {B : Nat → List P} {s : Finset P} {p old : P}
  {i : Nat} {l₁ l₂ : List P}

theorem holds_empty (index : P → Nat) (n : Nat) : Holds index n (fun _ => []) ∅ where
  mem_iff := by simp
  nodup := by simp
  index_lt := by simp

theorem Holds.congr (h : Holds index n B s) (hindex : ∀ p ∈ s, index' p = index p) :
    Holds index' n B s where
  mem_iff := by
    intro i p
    rw [h.mem_iff]
    exact and_congr_right fun hp => by rw [hindex p hp]
  nodup := h.nodup
  index_lt := fun p hp => (hindex p hp).symm ▸ h.index_lt p hp

theorem Holds.mem_bucket (h : Holds index n B s) (hp : p ∈ s) : p ∈ B (index p) :=
  (h.mem_iff _ _).mpr ⟨hp, rfl⟩

/-! ## Counting -/

theorem Holds.nodup_contents (h : Holds index n B s) : (contents n B).Nodup := by
  rw [contents, List.nodup_flatMap]
  refine ⟨fun i _ => h.nodup i, List.nodup_range.imp ?_⟩
  intro i j hij p hpi hpj
  exact hij (((h.mem_iff i p).mp hpi).2.symm.trans ((h.mem_iff j p).mp hpj).2)

theorem Holds.toFinset_contents [DecidableEq P] (h : Holds index n B s) : (contents n B).toFinset = s := by
  ext p
  rw [List.mem_toFinset, contents, List.mem_flatMap]
  constructor
  · rintro ⟨i, -, hp⟩
    exact ((h.mem_iff i p).mp hp).1
  · intro hp
    exact ⟨index p, List.mem_range.mpr (h.index_lt p hp), h.mem_bucket hp⟩

/-- **The chains have as many elements as the table.** -/
theorem Holds.length_contents (h : Holds index n B s) : (contents n B).length = s.card := by
  classical
  rw [← h.toFinset_contents, List.toFinset_card_of_nodup h.nodup_contents]

/-! ## Changing one bucket -/

/-- Only the bucket `i` changes, and there only whether `p` or `old` is in it. -/
theorem Holds.update {l : List P} {t : Finset P} (h : Holds index n B s) (hl : l.Nodup)
    (hmem : ∀ p, p ∈ l ↔ p ∈ t ∧ index p = i) (hother : ∀ p, index p ≠ i → (p ∈ t ↔ p ∈ s))
    (hi : i < n) : Holds index n (Function.update B i l) t where
  mem_iff := by
    intro j p
    by_cases hj : j = i
    · subst hj
      rw [Function.update_self, hmem]
    · rw [Function.update_of_ne hj, h.mem_iff]
      constructor
      · rintro ⟨hp, rfl⟩
        exact ⟨(hother p hj).mpr hp, rfl⟩
      · rintro ⟨hp, rfl⟩
        exact ⟨(hother p hj).mp hp, rfl⟩
  nodup := by
    intro j
    by_cases hj : j = i
    · subst hj
      rwa [Function.update_self]
    · rw [Function.update_of_ne hj]
      exact h.nodup j
  index_lt := by
    intro p hp
    by_cases hpi : index p = i
    · rwa [hpi]
    · exact h.index_lt p ((hother p hpi).mp hp)

variable [DecidableEq P]

/-- A new element at the end of its chain. -/
theorem Holds.append (h : Holds index n B s) (hp : p ∉ s) (hn : index p < n) :
    Holds index n (Function.update B (index p) (B (index p) ++ [p])) (insert p s) := by
  refine h.update ?_ ?_ ?_ hn
  · rw [List.nodup_append]
    refine ⟨h.nodup _, List.nodup_singleton p, fun q hq r hr => ?_⟩
    rw [List.mem_singleton.mp hr]
    exact fun he => hp (he ▸ ((h.mem_iff _ q).mp hq).1)
  · intro q
    rw [List.mem_append, h.mem_iff, List.mem_singleton, Finset.mem_insert]
    constructor
    · rintro (⟨hq, hi⟩ | rfl)
      · exact ⟨.inr hq, hi⟩
      · exact ⟨.inl rfl, rfl⟩
    · rintro ⟨rfl | hq, hi⟩
      · exact .inr rfl
      · exact .inl ⟨hq, hi⟩
  · intro q hq
    rw [Finset.mem_insert]
    exact or_iff_right fun he => hq (by rw [he])

/-- A new element at the front of its chain. -/
theorem Holds.push (h : Holds index n B s) (hp : p ∉ s) (hn : index p < n) :
    Holds index n (Function.update B (index p) (p :: B (index p))) (insert p s) := by
  refine h.update ?_ ?_ ?_ hn
  · exact List.nodup_cons.mpr ⟨fun hm => hp ((h.mem_iff _ p).mp hm).1, h.nodup _⟩
  · intro q
    rw [List.mem_cons, h.mem_iff, Finset.mem_insert]
    constructor
    · rintro (rfl | ⟨hq, hi⟩)
      · exact ⟨.inl rfl, rfl⟩
      · exact ⟨.inr hq, hi⟩
    · rintro ⟨rfl | hq, hi⟩
      · exact .inl rfl
      · exact .inr ⟨hq, hi⟩
  · intro q hq
    rw [Finset.mem_insert]
    exact or_iff_right fun he => hq (by rw [he])

/-- An element is taken out of its chain. -/
theorem Holds.erase (h : Holds index n B s) (hB : B i = l₁ ++ old :: l₂) :
    Holds index n (Function.update B i (l₁ ++ l₂)) (s.erase old) := by
  have hold : old ∈ s ∧ index old = i := (h.mem_iff i old).mp (by rw [hB]; simp)
  have hnd := h.nodup i
  rw [hB] at hnd
  have hnot : old ∉ l₁ ++ l₂ := (List.nodup_middle.mp hnd |> List.nodup_cons.mp).1
  refine h.update (List.nodup_middle.mp hnd |> List.nodup_cons.mp).2 ?_ ?_ ?_
  · intro q
    rw [Finset.mem_erase, and_assoc, ← h.mem_iff, hB]
    constructor
    · intro hq
      refine ⟨fun he => hnot (he ▸ hq), ?_⟩
      rcases List.mem_append.mp hq with hq | hq <;> simp [hq]
    · rintro ⟨hne, hq⟩
      rcases List.mem_append.mp hq with hq | hq
      · exact List.mem_append_left _ hq
      · exact List.mem_append_right _ ((List.mem_cons.mp hq).resolve_left hne)
  · intro q hq
    rw [Finset.mem_erase]
    exact and_iff_right fun he => hq (he ▸ hold.2)
  · exact hold.2 ▸ h.index_lt old hold.1

/-- An element takes the place of another one in their chain. -/
theorem Holds.replace (h : Holds index n B s) (hB : B i = l₁ ++ old :: l₂) (hp : p ∉ s)
    (hi : index p = i) :
    Holds index n (Function.update B i (l₁ ++ p :: l₂)) (insert p (s.erase old)) := by
  have hold : old ∈ s ∧ index old = i := (h.mem_iff i old).mp (by rw [hB]; simp)
  have herase := h.erase hB
  have hbucket : ∀ q, q ∈ l₁ ++ l₂ ↔ q ∈ s.erase old ∧ index q = i := by
    intro q
    rw [← herase.mem_iff, Function.update_self]
  have hnd := herase.nodup i
  rw [Function.update_self] at hnd
  have hpnot : p ∉ l₁ ++ l₂ := fun hm => hp (Finset.mem_of_mem_erase ((hbucket p).mp hm).1)
  refine h.update (List.nodup_middle.mpr (List.nodup_cons.mpr ⟨hpnot, hnd⟩)) ?_ ?_ ?_
  · intro q
    rw [List.mem_append, List.mem_cons, or_left_comm, ← List.mem_append, hbucket,
      Finset.mem_insert]
    constructor
    · rintro (rfl | ⟨hq, hqi⟩)
      · exact ⟨.inl rfl, hi⟩
      · exact ⟨.inr hq, hqi⟩
    · rintro ⟨rfl | hq, hqi⟩
      · exact .inl rfl
      · exact .inr ⟨hq, hqi⟩
  · intro q hq
    rw [Finset.mem_insert, Finset.mem_erase]
    constructor
    · rintro (rfl | hq')
      · exact absurd hi hq
      · exact hq'.2
    · intro hq'
      exact .inr ⟨fun he => hq (he ▸ hold.2), hq'⟩
  · exact hold.2 ▸ h.index_lt old hold.1

/-! ## Building a table -/

/-- The elements are pushed onto their chains, one after the other. -/
def rebuild (index : P → Nat) (ps : List P) (B : Nat → List P) : Nat → List P :=
  ps.foldl (fun B p => Function.update B (index p) (p :: B (index p))) B

omit [DecidableEq P] in
theorem mem_or_of_mem_rebuild {ps : List P} (h : p ∈ rebuild index ps B i) : p ∈ ps ∨ p ∈ B i := by
  induction ps generalizing B with
  | nil => exact .inr h
  | cons q ps ih =>
      rcases ih h with hp | hp
      · exact .inl (List.mem_cons_of_mem q hp)
      · dsimp only at hp
        by_cases hi : i = index q
        · subst hi
          rw [Function.update_self] at hp
          rcases List.mem_cons.mp hp with rfl | hp
          · exact .inl List.mem_cons_self
          · exact .inr hp
        · rw [Function.update_of_ne hi] at hp
          exact .inr hp

omit [DecidableEq P] in
theorem mem_of_mem_rebuild {ps : List P} (h : p ∈ rebuild index ps (fun _ => []) i) : p ∈ ps :=
  (mem_or_of_mem_rebuild h).resolve_right List.not_mem_nil

/-- **Rehashing** keeps the elements. -/
theorem Holds.rebuild {ps : List P} (h : Holds index n B s) (hps : ps.Nodup)
    (hnew : ∀ p ∈ ps, p ∉ s ∧ index p < n) :
    Holds index n (rebuild index ps B) (ps.toFinset ∪ s) := by
  induction ps generalizing B s with
  | nil => simpa [Buckets.rebuild] using h
  | cons p ps ih =>
      obtain ⟨hp, hnd⟩ := List.nodup_cons.mp hps
      have hpnew := hnew p List.mem_cons_self
      rw [Buckets.rebuild, List.foldl_cons, List.toFinset_cons, Finset.insert_union,
        ← Finset.union_insert]
      refine ih (h.push hpnew.1 hpnew.2) hnd fun q hq => ?_
      obtain ⟨hq', hlt⟩ := hnew q (List.mem_cons_of_mem p hq)
      refine ⟨?_, hlt⟩
      rw [Finset.mem_insert, not_or]
      exact ⟨fun he => hp (he ▸ hq), hq'⟩

end Buckets
