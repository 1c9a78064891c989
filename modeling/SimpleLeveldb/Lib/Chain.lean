import Mathlib.Data.List.Nodup
import Mathlib.Tactic

set_option autoImplicit false

/-! # Chains of links

A link is `none` where it was never written, `some none` where it is null, and `some (some q)`
where it leads to `q`. `IsChain next p l` says that the links lead from `p` through the nodes of
`l` to a null link. A node is spliced into the chain behind the last node of its front part,
`l₁.getLastD p`.
-/

namespace Chain

variable {P : Type} {next next' : P → Option (Option P)} {p q : P} {l l₁ l₂ : List P}

/-- The nodes that follow `p`. -/
def IsChain (next : P → Option (Option P)) : P → List P → Prop
  | p, [] => next p = some none
  | p, q :: l => next p = some (some q) ∧ IsChain next q l

theorem isChain_iff_head (h : IsChain next p l) : next p = some l.head? := by
  cases l with
  | nil => exact h
  | cons q l => exact h.1

theorem getLastD_mem_cons (l : List P) (p : P) : l.getLastD p ∈ p :: l := by
  induction l generalizing p with
  | nil => exact List.mem_singleton_self p
  | cons q l ih =>
      rw [List.getLastD_cons]
      exact List.mem_cons_of_mem p (ih q)

/-- **The link of a node of the chain** leads to the node behind it. -/
theorem IsChain.next_getLastD (h : IsChain next p (l₁ ++ l₂)) :
    next (l₁.getLastD p) = some l₂.head? := by
  induction l₁ generalizing p with
  | nil => exact isChain_iff_head h
  | cons q l₁ ih =>
      rw [List.getLastD_cons]
      exact ih h.2

theorem IsChain.congr (h : IsChain next p l) (hnext : ∀ u ∈ p :: l, next' u = next u) :
    IsChain next' p l := by
  induction l generalizing p with
  | nil => exact (hnext p List.mem_cons_self).trans h
  | cons q l ih =>
      exact ⟨(hnext p List.mem_cons_self).trans h.1,
        ih h.2 fun u hu => hnext u (List.mem_cons_of_mem p hu)⟩

/-- **Splicing** a new node in. -/
theorem IsChain.splice (h : IsChain next p (l₁ ++ l₂)) (hnodup : (p :: (l₁ ++ l₂)).Nodup)
    (hq : q ∉ p :: (l₁ ++ l₂)) (hlast : next' (l₁.getLastD p) = some (some q))
    (hnew : next' q = some l₂.head?)
    (hothers : ∀ u, u ≠ l₁.getLastD p → u ≠ q → next' u = next u) :
    IsChain next' p (l₁ ++ q :: l₂) := by
  induction l₁ generalizing p with
  | nil =>
      refine ⟨hlast, ?_⟩
      cases l₂ with
      | nil => exact hnew
      | cons r l₂ =>
          refine ⟨hnew, IsChain.congr h.2 fun u hu => hothers u ?_ ?_⟩
          · rintro rfl
            exact (List.nodup_cons.mp hnodup).1 hu
          · exact fun he => hq (he ▸ List.mem_cons_of_mem p hu)
  | cons a l₁ ih =>
      rw [List.getLastD_cons] at hlast hothers
      obtain ⟨hp, hnd⟩ := List.nodup_cons.mp hnodup
      have hmem : l₁.getLastD a ∈ a :: (l₁ ++ l₂) :=
        List.mem_append_left l₂ (getLastD_mem_cons l₁ a)
      refine ⟨?_, ih h.2 hnd (fun hm => hq (List.mem_cons_of_mem p hm)) hlast hothers⟩
      rw [hothers p (fun he => hp (he ▸ hmem)) fun he => hq (he ▸ List.mem_cons_self)]
      exact h.1

end Chain
