import Mathlib.Tactic

set_option autoImplicit false

/-! # Custody of resources

Some resources are live (open descriptors, allocated arrays), and each of a number of holders has one
of them or none. `Custody holds live` says that nobody holds what is not live, that nobody holds what
somebody else holds, and that nothing that is live is held by nobody. A resource that is taken must
be fresh (`take`), and one that is given up must be held (`drop`); it may change hands (`pass`,
`swap`). When nobody holds anything, nothing has leaked (`not_live`).
-/

/-- **Every live resource has exactly one holder**, and nothing else is held. -/
structure Custody {O H : Type} (holds : O → Option H) (live : H → Prop) : Prop where
  valid : ∀ o x, holds o = some x → live x
  sole : ∀ o p x, holds o = some x → holds p = some x → o = p
  held : ∀ x, live x → ∃ o, holds o = some x

namespace Custody

variable {O H : Type} {holds holds' : O → Option H} {live live' : H → Prop} {o p : O} {x : H}

theorem none_held (hlive : ∀ x, ¬ live x) : Custody (fun _ : O => none) live where
  valid := by simp
  sole := by simp
  held := fun x hx => absurd hx (hlive x)

/-- Nothing is live when nobody holds anything. -/
theorem not_live (h : Custody holds live) (hnone : ∀ o, holds o = none) (x : H) :
    ¬ live x := by
  intro hx
  obtain ⟨o, ho⟩ := h.held x hx
  rw [hnone o] at ho
  cases ho

theorem congr (h : Custody holds live) (hholds : ∀ o, holds' o = holds o)
    (hlive : ∀ x, live' x ↔ live x) : Custody holds' live' := by
  have heq : holds' = holds := funext hholds
  have heq' : live' = live := funext fun x => propext (hlive x)
  rw [heq, heq']
  exact h

/-- A holder of nothing **takes** a fresh resource. -/
theorem take (h : Custody holds live) (hfresh : ¬ live x) (hnone : holds o = none)
    (hnew : holds' o = some x) (hothers : ∀ p, p ≠ o → holds' p = holds p)
    (hlive : ∀ y, live' y ↔ y = x ∨ live y) : Custody holds' live' where
  valid := by
    intro p y hp
    rw [hlive]
    by_cases hpo : p = o
    · rw [hpo, hnew] at hp
      exact .inl (Option.some.inj hp).symm
    · rw [hothers p hpo] at hp
      exact .inr (h.valid p y hp)
  sole := by
    have hx : ∀ p, p ≠ o → holds' p ≠ some x := by
      intro p hpo hp
      rw [hothers p hpo] at hp
      exact hfresh (h.valid p x hp)
    intro p q y hp hq
    by_cases hpo : p = o
    · by_cases hqo : q = o
      · rw [hpo, hqo]
      · rw [hpo, hnew] at hp
        rw [← hp] at hq
        exact absurd hq (hx q hqo)
    · by_cases hqo : q = o
      · rw [hqo, hnew] at hq
        rw [← hq] at hp
        exact absurd hp (hx p hpo)
      · rw [hothers p hpo] at hp
        rw [hothers q hqo] at hq
        exact h.sole p q y hp hq
  held := by
    intro y hy
    rcases (hlive y).mp hy with rfl | hy
    · exact ⟨o, hnew⟩
    · obtain ⟨p, hp⟩ := h.held y hy
      have hpo : p ≠ o := by
        rintro rfl
        rw [hnone] at hp
        cases hp
      exact ⟨p, by rw [hothers p hpo, hp]⟩

/-- A holder **drops** its resource. -/
theorem drop (h : Custody holds live) (hold : holds o = some x) (hnew : holds' o = none)
    (hothers : ∀ p, p ≠ o → holds' p = holds p) (hlive : ∀ y, live' y ↔ y ≠ x ∧ live y) :
    Custody holds' live' where
  valid := by
    intro p y hp
    have hpo : p ≠ o := by
      rintro rfl
      rw [hnew] at hp
      cases hp
    rw [hothers p hpo] at hp
    rw [hlive]
    refine ⟨?_, h.valid p y hp⟩
    rintro rfl
    exact hpo (h.sole p o y hp hold)
  sole := by
    intro p q y hp hq
    have hne : ∀ r, holds' r = some y → r ≠ o := by
      rintro r hr rfl
      rw [hnew] at hr
      cases hr
    rw [hothers p (hne p hp)] at hp
    rw [hothers q (hne q hq)] at hq
    exact h.sole p q y hp hq
  held := by
    intro y hy
    obtain ⟨hyx, hy⟩ := (hlive y).mp hy
    obtain ⟨p, hp⟩ := h.held y hy
    have hpo : p ≠ o := by
      rintro rfl
      rw [hold] at hp
      exact hyx (Option.some.inj hp).symm
    exact ⟨p, by rw [hothers p hpo, hp]⟩

variable [DecidableEq O]

/-- Two holders **swap** what they hold. -/
theorem swap (h : Custody holds live) (o p : O) :
    Custody (fun q => holds (Equiv.swap o p q)) live where
  valid := fun q x hq => h.valid _ x hq
  sole := by
    intro q r x hq hr
    exact (Equiv.swap o p).injective (h.sole _ _ x hq hr)
  held := by
    intro x hx
    obtain ⟨q, hq⟩ := h.held x hx
    refine ⟨Equiv.swap o p q, ?_⟩
    simp only [Equiv.swap_apply_self]
    exact hq

/-- A holder **passes** its resource to one that has none. -/
theorem pass (h : Custody holds live) (hold : holds o = some x)
    (hnone : holds p = none) (ho : holds' o = none) (hp : holds' p = some x)
    (hothers : ∀ q, q ≠ o → q ≠ p → holds' q = holds q) : Custody holds' live := by
  refine (h.swap o p).congr (fun q => ?_) fun _ => Iff.rfl
  by_cases hqo : q = o
  · rw [hqo, Equiv.swap_apply_left, ho, hnone]
  · by_cases hqp : q = p
    · rw [hqp, Equiv.swap_apply_right, hp, hold]
    · rw [Equiv.swap_apply_of_ne_of_ne hqo hqp, hothers q hqo hqp]

end Custody
