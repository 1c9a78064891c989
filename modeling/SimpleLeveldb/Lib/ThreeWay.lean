import Mathlib.Tactic

set_option autoImplicit false

/-! # Three-way comparisons

A function that tells by the sign of its result which of two values comes first. It is total when its
sign changes with the order of the values and it is transitive. The results are related to
`Ordering`, and lexicographic combinations and comparisons of an image are total because the ones
on orderings are; `IsTotal.strictWeak` is the strict order of a total comparison.
-/

namespace ThreeWay

variable {α β : Type} {cmp cmp₁ cmp₂ : α → α → Int}

/-! ## Results and orderings -/

/-- The ordering that a result stands for. -/
def ordering (cmp : α → α → Int) (a b : α) : Ordering := compare (cmp a b) 0

theorem ordering_eq_lt {a b : α} : ordering cmp a b = .lt ↔ cmp a b < 0 :=
  compare_lt_iff_lt

theorem ordering_eq_eq {a b : α} : ordering cmp a b = .eq ↔ cmp a b = 0 :=
  compare_eq_iff_eq

theorem ordering_isLE {a b : α} : (ordering cmp a b).isLE = true ↔ cmp a b ≤ 0 :=
  Ordering.isLE_iff_ne_gt.trans compare_le_iff_le

/-- Sign-antisymmetric and transitive. -/
structure IsTotal (cmp : α → α → Int) : Prop where
  antisymm : ∀ a b, (cmp a b).sign = -(cmp b a).sign
  trans : ∀ a b c, cmp a b ≤ 0 → cmp b c ≤ 0 → cmp a c ≤ 0

/-- Signs and orderings are reversed together. -/
theorem compare_eq_swap_iff {r s : Int} : compare r 0 = (compare s 0).swap ↔ r.sign = -s.sign := by
  rcases lt_trichotomy r 0 with hr | rfl | hr <;> rcases lt_trichotomy s 0 with hs | rfl | hs <;>
    simp [compare_lt_iff_lt.mpr, compare_gt_iff_gt.mpr, Int.sign_eq_neg_one_of_neg,
      Int.sign_eq_one_of_pos, *]

theorem isTotal_iff : IsTotal cmp ↔ Std.TransCmp (ordering cmp) := by
  constructor
  · intro h
    exact
      { eq_swap := compare_eq_swap_iff.mpr (h.antisymm _ _)
        isLE_trans := fun hab hbc =>
          ordering_isLE.mpr (h.trans _ _ _ (ordering_isLE.mp hab) (ordering_isLE.mp hbc)) }
  · intro h
    refine ⟨fun a b => ?_, fun a b c hab hbc => ?_⟩
    · have hswap : ordering cmp a b = (ordering cmp b a).swap := Std.OrientedCmp.eq_swap
      exact compare_eq_swap_iff.mp hswap
    · have hle : (ordering cmp a c).isLE :=
        Std.TransCmp.isLE_trans (ordering_isLE.mpr hab) (ordering_isLE.mpr hbc)
      exact ordering_isLE.mp hle

namespace IsTotal

/-! ## Total comparisons -/

theorem refl (h : IsTotal cmp) (a : α) : cmp a a = 0 := by
  have hsign := h.antisymm a a
  exact Int.sign_eq_zero_iff_zero.mp (by omega)

theorem lt_trans (h : IsTotal cmp) {a b c : α} (hab : cmp a b < 0) (hbc : cmp b c < 0) :
    cmp a c < 0 := by
  have := isTotal_iff.mp h
  exact ordering_eq_lt.mp (Std.TransCmp.lt_trans (ordering_eq_lt.mpr hab) (ordering_eq_lt.mpr hbc))

theorem eq_trans (h : IsTotal cmp) {a b c : α} (hab : cmp a b = 0) (hbc : cmp b c = 0) :
    cmp a c = 0 := by
  have := isTotal_iff.mp h
  exact ordering_eq_eq.mp (Std.TransCmp.eq_trans (ordering_eq_eq.mpr hab) (ordering_eq_eq.mpr hbc))

/-- Neither comes first. -/
theorem eq_zero_iff (h : IsTotal cmp) {a b : α} : cmp a b = 0 ↔ ¬ cmp a b < 0 ∧ ¬ cmp b a < 0 := by
  have hsign := h.antisymm a b
  rw [← Int.sign_eq_neg_one_iff_neg, ← Int.sign_eq_neg_one_iff_neg, ← Int.sign_eq_zero_iff_zero]
  have hrange := Int.sign_trichotomy (cmp a b)
  omega

/-- The strict order of a total comparison. -/
theorem strictWeak (h : IsTotal cmp) : IsStrictWeakOrder α fun a b => cmp a b < 0 where
  irrefl a := by
    rw [h.refl a]
    exact lt_irrefl 0
  trans _ _ _ := h.lt_trans
  incomp_trans a b c hab hbc :=
    h.eq_zero_iff.mp (h.eq_trans (h.eq_zero_iff.mpr hab) (h.eq_zero_iff.mpr hbc))

/-! ## Comparisons made of others -/

/-- Values are compared by their images. -/
theorem comap {cmp : β → β → Int} (h : IsTotal cmp) (f : α → β) :
    IsTotal fun a b => cmp (f a) (f b) where
  antisymm a b := h.antisymm (f a) (f b)
  trans a b c := h.trans (f a) (f b) (f c)

/-- The order of the values is turned around. -/
theorem swap (h : IsTotal cmp) : IsTotal fun a b => cmp b a where
  antisymm a b := h.antisymm b a
  trans a b c hab hbc := h.trans c b a hbc hab

end IsTotal

/-- The second comparison decides among values that are equal for the first. -/
def lex (cmp₁ cmp₂ : α → α → Int) (a b : α) : Int :=
  if cmp₁ a b = 0 then cmp₂ a b else cmp₁ a b

theorem ordering_lex : ordering (lex cmp₁ cmp₂) = compareLex (ordering cmp₁) (ordering cmp₂) := by
  funext a b
  unfold compareLex
  rcases eq_or_ne (cmp₁ a b) 0 with h | h
  · rw [ordering_eq_eq.mpr h, ordering, lex, if_pos h]
    rfl
  · have hleft : ordering (lex cmp₁ cmp₂) a b = ordering cmp₁ a b := by
      rw [ordering, lex, if_neg h, ordering]
    rw [hleft]
    cases hc : ordering cmp₁ a b with
    | lt => rfl
    | eq => exact absurd (ordering_eq_eq.mp hc) h
    | gt => rfl

theorem IsTotal.lex (h₁ : IsTotal cmp₁) (h₂ : IsTotal cmp₂) : IsTotal (lex cmp₁ cmp₂) := by
  have := isTotal_iff.mp h₁
  have := isTotal_iff.mp h₂
  rw [isTotal_iff, ordering_lex]
  infer_instance

theorem lex_eq_zero {a b : α} : lex cmp₁ cmp₂ a b = 0 ↔ cmp₁ a b = 0 ∧ cmp₂ a b = 0 := by
  unfold lex
  split_ifs with h <;> simp [h]

/-- The comparison of a linear order. -/
def ascending [LinearOrder α] (a b : α) : Int :=
  if a < b then -1 else if b < a then 1 else 0

theorem ordering_ascending [LinearOrder α] : ordering (@ascending α _) = compare := by
  funext a b
  unfold ordering ascending
  rcases lt_trichotomy a b with h | rfl | h
  · rw [if_pos h, compare_lt_iff_lt.mpr h]
    rfl
  · rw [if_neg (lt_irrefl a), if_neg (lt_irrefl a)]
    exact (compare_eq_iff_eq.mpr rfl).symm
  · rw [if_neg h.not_gt, if_pos h, compare_gt_iff_gt.mpr h]
    rfl

theorem isTotal_ascending [LinearOrder α] : IsTotal (@ascending α _) := by
  rw [isTotal_iff, ordering_ascending]
  infer_instance

theorem ascending_neg_iff [LinearOrder α] {a b : α} : ascending a b < 0 ↔ a < b := by
  rw [← ordering_eq_lt, ordering_ascending, compare_lt_iff_lt]

theorem ascending_eq_zero_iff [LinearOrder α] {a b : α} : ascending a b = 0 ↔ a = b := by
  rw [← ordering_eq_eq, ordering_ascending, compare_eq_iff_eq]

end ThreeWay
