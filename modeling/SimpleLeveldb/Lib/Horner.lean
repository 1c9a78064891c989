import Mathlib.Data.Nat.Digits.Defs
import Mathlib.Tactic

set_option autoImplicit false

/-! # Reading a number digit by digit

The value of a sequence of digits, most significant digit first, by Horner's scheme: from the value
`v` so far a digit `d` makes `v * b + d`. `lt_mul_add_iff` is the test for a next value above a bound
that is made on the value so far, with no number above the bound.
-/

namespace Horner

variable {b : Nat}

/-- From the value `v` so far, the value with the digits `ds`. -/
def value (b v : Nat) (ds : List Nat) : Nat := ds.foldl (fun v d => v * b + d) v

@[simp] theorem value_nil (b v : Nat) : value b v [] = v := rfl

@[simp] theorem value_cons (b v d : Nat) (ds : List Nat) :
    value b v (d :: ds) = value b (v * b + d) ds := rfl

/-- The value so far only grows. -/
theorem le_value (hb : 0 < b) (v : Nat) (ds : List Nat) : v ≤ value b v ds := by
  induction ds generalizing v with
  | nil => exact le_refl v
  | cons d ds ih =>
      have hv : v ≤ v * b := Nat.le_mul_of_pos_right v hb
      exact le_trans (by omega) (ih (v * b + d))

/-- From zero the digits make the number that they denote. -/
theorem value_zero (b : Nat) (ds : List Nat) : value b 0 ds = Nat.ofDigits b ds.reverse := by
  rw [value, Nat.ofDigits_eq_foldr, List.foldr_reverse]
  congr 1
  funext v d
  rw [Nat.mul_comm, Nat.add_comm]
  rfl

/-- **The test for the bound** compares the value so far with the bound without its last digit, and
at that value the digit with the bound's last one. -/
theorem lt_mul_add_iff {d : Nat} (hd : d < b) (max v : Nat) :
    max < v * b + d ↔ v > max / b ∨ v = max / b ∧ d > max % b := by
  have hb : 0 < b := by omega
  have hmax : max = max / b * b + max % b := by
    rw [Nat.mul_comm]
    exact (Nat.div_add_mod max b).symm
  have hmod : max % b < b := Nat.mod_lt max hb
  rcases lt_trichotomy v (max / b) with h | h | h
  · have hle : (v + 1) * b ≤ max / b * b := Nat.mul_le_mul_right b h
    rw [Nat.add_mul] at hle
    constructor
    · intro hlt
      omega
    · rintro (hgt | ⟨heq, -⟩) <;> omega
  · subst h
    constructor
    · intro hlt
      exact .inr ⟨rfl, by omega⟩
    · rintro (hgt | ⟨-, hgt⟩) <;> omega
  · have hle : (max / b + 1) * b ≤ v * b := Nat.mul_le_mul_right b h
    rw [Nat.add_mul] at hle
    constructor
    · intro _
      exact .inl h
    · intro _
      omega

end Horner
