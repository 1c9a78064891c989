import Mathlib.Data.Fintype.Card
import Mathlib.Tactic

set_option autoImplicit false

/-! # Counting the members of a family by their states

The members of a finite family (threads, nodes) are each in a state, given by a function. A step
changes the state of one member, and with it the number of members whose state has some property
by at most one (`count_update`).
-/

namespace Census

variable {ι α : Type} [Fintype ι]

/-- How many members are in a state with the property `p`. -/
def count (p : α → Bool) (f : ι → α) : Nat := (Finset.univ.filter fun t => p (f t) = true).card

theorem count_le_card (p : α → Bool) (f : ι → α) : count p f ≤ Fintype.card ι :=
  Finset.card_le_univ _

/-- Everyone is in the same state, which does not have the property. -/
theorem count_const {p : α → Bool} {a : α} (h : p a = false) : count p (fun _ : ι => a) = 0 := by
  rw [count, Finset.card_eq_zero, Finset.filter_eq_empty_iff]
  intro t _
  rw [h]
  exact Bool.false_ne_true

/-- A member in a state with the property is counted. -/
theorem count_pos {p : α → Bool} {f : ι → α} {t : ι} (h : p (f t) = true) : 0 < count p f :=
  Finset.card_pos.mpr ⟨t, Finset.mem_filter.mpr ⟨Finset.mem_univ t, h⟩⟩

variable [DecidableEq ι]

/-- The members other than `t`. -/
theorem count_eq (p : α → Bool) (f : ι → α) (t : ι) :
    count p f = ((Finset.univ.erase t).filter fun u => p (f u) = true).card + (p (f t)).toNat := by
  have hsplit := Finset.filter_insert (fun u => p (f u) = true) t (Finset.univ.erase t)
  rw [Finset.insert_erase (Finset.mem_univ t)] at hsplit
  rw [count, hsplit]
  cases hp : p (f t) with
  | false => simp
  | true => rw [if_pos rfl, Finset.card_insert_of_notMem (by simp)]; rfl

/-- **One member changes its state.** -/
theorem count_update (p : α → Bool) (f : ι → α) (t : ι) (a : α) :
    count p (Function.update f t a) + (p (f t)).toNat = count p f + (p a).toNat := by
  have hothers : (Finset.univ.erase t).filter (fun u => p (Function.update f t a u) = true)
      = (Finset.univ.erase t).filter fun u => p (f u) = true := by
    refine Finset.filter_congr fun u hu => ?_
    rw [Function.update_of_ne (Finset.ne_of_mem_erase hu)]
  have hnew := count_eq p (Function.update f t a) t
  have hold := count_eq p f t
  rw [hothers, Function.update_self] at hnew
  omega

end Census
