import Mathlib.Data.List.Nodup
import Mathlib.Tactic

set_option autoImplicit false

/-! # Chains that are changed through slots

Singly linked chains start at roots and go through the links of their elements. A slot is the place of
a pointer, a root or the link of an element, and a chain is changed by a store to the slot in front of an
element. `Reads m i l` says that the chain of the root `i` has the elements `l`; the slot behind the
elements `l₁` of a chain `l₁ ++ l₂` is `after (.root i) l₁`.
-/

namespace Slots

variable {ι P : Type}

/-! ## Chains -/

/-- The pointer `x` leads through the elements of `l` to a null pointer. -/
def Leads (link : P → Option P) : Option P → List P → Prop
  | x, [] => x = none
  | x, p :: l => x = some p ∧ Leads link (link p) l

variable {link link' : P → Option P} {x : Option P} {p : P} {l l₁ l₂ l₃ : List P}

theorem Leads.head (h : Leads link x l) : x = l.head? := by
  cases l with
  | nil => exact h
  | cons p l => exact h.1

theorem Leads.congr (h : Leads link x l) (hlink : ∀ p ∈ l, link' p = link p) :
    Leads link' x l := by
  induction l generalizing x with
  | nil => exact h
  | cons p l ih =>
      refine ⟨h.1, ?_⟩
      rw [hlink p List.mem_cons_self]
      exact ih h.2 fun q hq => hlink q (List.mem_cons_of_mem p hq)

/-- What stands behind an element. -/
theorem Leads.behind (h : Leads link x (l₁ ++ p :: l₂)) : Leads link (link p) l₂ := by
  induction l₁ generalizing x with
  | nil => exact h.2
  | cons q l₁ ih => exact ih h.2

theorem Leads.tail (h : Leads link x l) : Leads link l.tail.head? l.tail := by
  cases l with
  | nil => rfl
  | cons p l =>
      rw [List.tail_cons, ← h.2.head]
      exact h.2

/-! ## Slots -/

/-- The place of a pointer. -/
inductive Slot (ι P : Type) where
  | root (i : ι)
  | link (p : P)

/-- The slot behind the elements `l` of a chain that starts at a slot. -/
def after : Slot ι P → List P → Slot ι P
  | s, [] => s
  | _, p :: l => after (.link p) l

theorem after_cons (p : P) (l : List P) (s : Slot ι P) : ∃ q ∈ p :: l, after s (p :: l) = .link q := by
  induction l generalizing p s with
  | nil => exact ⟨p, List.mem_singleton_self p, rfl⟩
  | cons r l ih =>
      obtain ⟨q, hq, he⟩ := ih r (.link p)
      exact ⟨q, List.mem_cons_of_mem p hq, he⟩

/-- The roots of the chains, and the links of the elements. -/
structure Mem (ι P : Type) where
  root : ι → Option P
  link : P → Option P

namespace Mem

def get (m : Mem ι P) : Slot ι P → Option P
  | .root i => m.root i
  | .link p => m.link p

/-- The chain of a root. -/
def Reads (m : Mem ι P) (i : ι) (l : List P) : Prop := Leads m.link (m.root i) l

variable {m : Mem ι P} {i j : ι}

/-- A search has come to the rest of its chain. -/
theorem Reads.rest (h : m.Reads i (l₁ ++ l₂)) : Leads m.link (m.get (after (.root i) l₁)) l₂ := by
  have hgen : ∀ (s : Slot ι P) (l₁ : List P), Leads m.link (m.get s) (l₁ ++ l₂) →
      Leads m.link (m.get (after s l₁)) l₂ := by
    intro s l₁
    induction l₁ generalizing s with
    | nil => exact fun h => h
    | cons p l₁ ih => exact fun h => ih (.link p) h.2
  exact hgen (.root i) l₁ h

variable [DecidableEq ι] [DecidableEq P]

/-- A store to a slot. -/
def set (m : Mem ι P) (s : Slot ι P) (x : Option P) : Mem ι P :=
  match s with
  | .root i => { m with root := Function.update m.root i x }
  | .link p => { m with link := Function.update m.link p x }

@[simp] theorem get_set (m : Mem ι P) (s : Slot ι P) (x : Option P) : (m.set s x).get s = x := by
  cases s <;> simp [set, get]

/-- A store to the link of the last element leaves the links in front of it. -/
theorem Reads.set_last (i : ι) {y : Option P} (h : Leads m.link y (p :: l₁ ++ l₂))
    (hnd : (p :: l₁).Nodup) (hx : Leads (m.set (after (.root i) (p :: l₁)) x).link x l₃) :
    Leads (m.set (after (.root i) (p :: l₁)) x).link y (p :: l₁ ++ l₃) := by
  induction l₁ generalizing p y with
  | nil =>
      refine ⟨h.1, ?_⟩
      rw [show (m.set (after (.root i) [p]) x).link p = x from get_set m (.link p) x]
      exact hx
  | cons q l₁ ih =>
      obtain ⟨hp, hnd⟩ := List.nodup_cons.mp hnd
      obtain ⟨r, hr, he⟩ := after_cons q l₁ (.root i : Slot ι P)
      have hafter : after (.root i : Slot ι P) (p :: q :: l₁) = .link r := he
      have hlink : (m.set (after (.root i) (p :: q :: l₁)) x).link p = m.link p := by
        rw [hafter, set]
        exact Function.update_of_ne (ne_of_mem_of_not_mem hr hp).symm _ _
      refine ⟨h.1, ?_⟩
      rw [hlink]
      exact ih h.2 hnd hx

/-- **A store behind `l₁`** puts another chain there. -/
theorem Reads.set_after (h : m.Reads i (l₁ ++ l₂)) (hnd : l₁.Nodup)
    (hx : Leads (m.set (after (.root i) l₁) x).link x l₃) :
    (m.set (after (.root i) l₁) x).Reads i (l₁ ++ l₃) := by
  unfold Reads
  cases l₁ with
  | nil =>
      rw [show (m.set (after (.root i) []) x).root i = x from get_set m (.root i) x]
      exact hx
  | cons p l₁ =>
      have hroot : (m.set (after (.root i) (p :: l₁)) x).root i = m.root i := by
        obtain ⟨r, -, he⟩ := after_cons p l₁ (.root i : Slot ι P)
        rw [he]
        rfl
      rw [hroot]
      exact set_last i h hnd hx

/-- The store leaves the links of other elements alone. -/
theorem link_set_after (m : Mem ι P) (i : ι) (x : Option P) (hp : p ∉ l) :
    (m.set (after (.root i) l) x).link p = m.link p := by
  cases l with
  | nil => rfl
  | cons q l =>
      obtain ⟨r, hr, he⟩ := after_cons q l (.root i : Slot ι P)
      rw [he]
      exact Function.update_of_ne (ne_of_mem_of_not_mem hr hp).symm _ _

/-- The store leaves other chains alone. -/
theorem Reads.set_other (h : m.Reads j l) (hj : j ≠ i) (hl : ∀ p ∈ l₁, p ∉ l) :
    (m.set (after (.root i) l₁) x).Reads j l := by
  have hroot : (m.set (after (.root i) l₁) x).root j = m.root j := by
    cases l₁ with
    | nil => exact Function.update_of_ne hj _ _
    | cons p l₁ =>
        obtain ⟨r, -, he⟩ := after_cons p l₁ (.root i : Slot ι P)
        rw [he]
        rfl
  unfold Reads
  rw [hroot]
  exact Leads.congr h fun q hq => link_set_after m i x fun hql => hl q hql hq

/-! ## Pushing -/

/-- An element is put in front of the chain of a root. -/
def push (m : Mem ι P) (i : ι) (p : P) : Mem ι P :=
  (m.set (.link p) (m.root i)).set (.root i) (some p)

theorem Reads.push (h : m.Reads i l) (hp : p ∉ l) : (m.push i p).Reads i (p :: l) := by
  refine ⟨Function.update_self _ _ _, ?_⟩
  rw [show (m.push i p).link p = m.root i from Function.update_self _ _ _]
  exact Leads.congr h fun q hq => Function.update_of_ne (ne_of_mem_of_not_mem hq hp) _ _

theorem Reads.push_other (h : m.Reads j l) (hj : j ≠ i) (hp : p ∉ l) : (m.push i p).Reads j l := by
  unfold Reads
  rw [show (m.push i p).root j = m.root j from Function.update_of_ne hj _ _]
  exact Leads.congr h fun q hq => Function.update_of_ne (ne_of_mem_of_not_mem hq hp) _ _

end Mem

end Slots
