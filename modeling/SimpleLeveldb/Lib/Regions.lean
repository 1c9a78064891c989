import Mathlib.Tactic
import Mathlib.Data.Set.Lattice
import Mathlib.Order.Interval.Finset.Nat
import Mathlib.Order.CompletePartialOrder

set_option autoImplicit false

/-! # Carving regions out of blocks

An allocator gets blocks, gives regions of them away and keeps a free part of the block that it
carves from at the moment. Nothing is given back. `Carved blocks used free` says that the regions
given away do not overlap each other or the free part, and that each of them is in one block.
The rules are the moves of such an allocator: it takes a region from the free part
(`Carved.take`), gives away a new block as a whole (`Carved.own`), or leaves the free part and
goes on with a new block (`Carved.refill`).
-/

namespace Regions

variable {α : Type}

/-- Of the disjoint `blocks`, the regions `used` are given away and `free` is left. -/
structure Carved (blocks used : List (Set α)) (free : Set α) : Prop where
  apart : blocks.Pairwise Disjoint
  disjoint : used.Pairwise Disjoint
  inside : ∀ u ∈ used, ∃ b ∈ blocks, u ⊆ b
  unused : ∀ u ∈ used, Disjoint u free
  room : free = ∅ ∨ ∃ b ∈ blocks, free ⊆ b

variable {blocks used : List (Set α)} {free free' u b : Set α}

theorem carved_nil : Carved [] [] (∅ : Set α) where
  apart := List.Pairwise.nil
  disjoint := List.Pairwise.nil
  inside := by simp
  unused := by simp
  room := .inl rfl

theorem pairwise_concat {l : List (Set α)} (h : l.Pairwise Disjoint)
    (hb : ∀ c ∈ l, Disjoint c b) : (l ++ [b]).Pairwise Disjoint := by
  rw [List.pairwise_append]
  refine ⟨h, List.pairwise_singleton _ _, ?_⟩
  intro c hc d hd
  rw [List.mem_singleton.mp hd]
  exact hb c hc

/-- A region of the free part is given away, and what is left is free. -/
theorem Carved.take (h : Carved blocks used free) (hne : u.Nonempty) (hu : u ⊆ free)
    (hfree : free' ⊆ free) (hdis : Disjoint u free') : Carved blocks (used ++ [u]) free' where
  apart := h.apart
  disjoint := pairwise_concat h.disjoint (fun v hv => (h.unused v hv).mono_right hu)
  inside := by
    intro v hv
    rcases List.mem_append.mp hv with hv | hv
    · exact h.inside v hv
    · rw [List.mem_singleton.mp hv]
      rcases h.room with hempty | ⟨b, hb, hsub⟩
      · exact absurd (hne.mono hu) (by simp [hempty])
      · exact ⟨b, hb, hu.trans hsub⟩
  unused := by
    intro v hv
    rcases List.mem_append.mp hv with hv | hv
    · exact (h.unused v hv).mono_right hfree
    · rw [List.mem_singleton.mp hv]
      exact hdis
  room := by
    rcases h.room with hempty | ⟨b, hb, hsub⟩
    · exact .inl (Set.subset_empty_iff.mp (hempty ▸ hfree))
    · exact .inr ⟨b, hb, hfree.trans hsub⟩

/-- A new block meets no region. -/
theorem Carved.used_disjoint (h : Carved blocks used free) (hb : ∀ c ∈ blocks, Disjoint c b)
    (v : Set α) (hv : v ∈ used) : Disjoint v b := by
  obtain ⟨c, hc, hsub⟩ := h.inside v hv
  exact (hb c hc).mono_left hsub

/-- A new block is given away as a whole. -/
theorem Carved.own (h : Carved blocks used free) (hb : ∀ c ∈ blocks, Disjoint c b) :
    Carved (blocks ++ [b]) (used ++ [b]) free where
  apart := pairwise_concat h.apart hb
  disjoint := pairwise_concat h.disjoint (h.used_disjoint hb)
  inside := by
    intro v hv
    rcases List.mem_append.mp hv with hv | hv
    · obtain ⟨c, hc, hsub⟩ := h.inside v hv
      exact ⟨c, List.mem_append_left _ hc, hsub⟩
    · rw [List.mem_singleton.mp hv]
      exact ⟨b, by simp, subset_rfl⟩
  unused := by
    intro v hv
    rcases List.mem_append.mp hv with hv | hv
    · exact h.unused v hv
    · rw [List.mem_singleton.mp hv]
      rcases h.room with hempty | ⟨c, hc, hsub⟩
      · rw [hempty]
        exact disjoint_bot_right
      · exact ((hb c hc).mono_left hsub).symm
  room := by
    rcases h.room with hempty | ⟨c, hc, hsub⟩
    · exact .inl hempty
    · exact .inr ⟨c, List.mem_append_left _ hc, hsub⟩

/-- What was free is left unused, and a new block is free. -/
theorem Carved.refill (h : Carved blocks used free) (hb : ∀ c ∈ blocks, Disjoint c b) :
    Carved (blocks ++ [b]) used b where
  apart := pairwise_concat h.apart hb
  disjoint := h.disjoint
  inside := by
    intro v hv
    obtain ⟨c, hc, hsub⟩ := h.inside v hv
    exact ⟨c, List.mem_append_left _ hc, hsub⟩
  unused := h.used_disjoint hb
  room := .inr ⟨b, by simp, subset_rfl⟩

/-! ## Ranges of addresses -/

/-- Disjoint parts of a finite set have together at most as many elements as the set. -/
theorem sum_card_le [DecidableEq α] {l : List (Finset α)} {s : Finset α}
    (hdis : l.Pairwise Disjoint) (hsub : ∀ t ∈ l, t ⊆ s) : (l.map Finset.card).sum ≤ s.card := by
  induction l generalizing s with
  | nil => exact Nat.zero_le _
  | cons t l ih =>
      rw [List.pairwise_cons] at hdis
      have ht : t ⊆ s := hsub t List.mem_cons_self
      have hrest : (l.map Finset.card).sum ≤ (s \ t).card := by
        apply ih hdis.2
        intro t' ht'
        exact Finset.subset_sdiff.mpr ⟨hsub t' (List.mem_cons_of_mem t ht'), (hdis.1 t' ht').symm⟩
      have hcard := Finset.card_sdiff_add_card_eq_card ht
      rw [List.map_cons, List.sum_cons]
      omega

/-- Disjoint ranges below `n`, each an address and a size, have together at most the size `n`. -/
theorem sum_size_le {l : List (Nat × Nat)} {n : Nat}
    (hdis : (l.map fun r => Set.Ico r.1 (r.1 + r.2)).Pairwise Disjoint)
    (hlt : ∀ r ∈ l, r.1 + r.2 ≤ n) : (l.map Prod.snd).sum ≤ n := by
  have hfin : (l.map fun r => Finset.Ico r.1 (r.1 + r.2)).Pairwise Disjoint := by
    rw [List.pairwise_map] at hdis ⊢
    refine hdis.imp ?_
    intro r r' h
    rw [← Finset.disjoint_coe, Finset.coe_Ico, Finset.coe_Ico]
    exact h
  have hsub : ∀ t ∈ l.map fun r => Finset.Ico r.1 (r.1 + r.2), t ⊆ Finset.range n := by
    intro t ht x hx
    obtain ⟨r, hr, rfl⟩ := List.mem_map.mp ht
    have hn := hlt r hr
    rw [Finset.mem_Ico] at hx
    rw [Finset.mem_range]
    omega
  have hsum := sum_card_le hfin hsub
  rw [List.map_map, Finset.card_range] at hsum
  calc (l.map Prod.snd).sum
      = (l.map (Finset.card ∘ fun r => Finset.Ico r.1 (r.1 + r.2))).sum := by
        congr 1
        apply List.map_congr_left
        intro r _
        rw [Function.comp_apply, Nat.card_Ico]
        omega
    _ ≤ n := hsum

end Regions
