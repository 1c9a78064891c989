import SimpleLeveldb.Basic
import Mathlib.Data.Nat.ModEq

set_option autoImplicit false

/-! # The random generator (`util/random.h`)

The state is multiplied by 16807 modulo `2 ^ 31 - 1`. The remainder is computed without a
division: `2 ^ 31` is one more than the modulus, so that the upper part of the product can be added
to its lower 31 bits, and one subtraction is enough after that. It is made for a sum above the
modulus; the sum that is the modulus itself does not occur, as neither factor of the product is a
multiple of it (`next_spec`).
-/

namespace SimpleLeveldb

/-- `random`, with `seed_`. -/
structure Random where
  seed : U32
  deriving DecidableEq, Repr

namespace Random

/-- `M`, that is `2 ^ 31 - 1` -/
def modulus : U32 := 2147483647#32

/-- `A` -/
def multiplier : U64 := 16807#64

/-- The constructor. -/
def new (s : U32) : Random :=
  let seed := s &&& 0x7fffffff#32
  ⟨if seed = 0#32 ∨ seed = 2147483647#32 then 1#32 else seed⟩

/-- `product`: the multiplication is one of 64-bit numbers. -/
def product (r : Random) : U64 := r.seed.setWidth 64 * multiplier

/-- The sum that is cast to 32 bits. -/
def sum (r : Random) : U64 := (r.product >>> 31) + (r.product &&& modulus.setWidth 64)

/-- `next` -/
def next (r : Random) : U32 × Random :=
  let seed := r.sum.setWidth 32
  let seed := if seed > modulus then seed - modulus else seed
  (seed, ⟨seed⟩)

/-- The state after `k` calls of `next`. -/
def after (r : Random) : Nat → Random
  | 0 => r
  | k + 1 => (r.after k).next.2

/-- No intermediate value of a call is too large for its type, and none is negative. -/
structure NoOverflow (r : Random) : Prop where
  product : r.product.toNat = r.seed.toNat * 16807
  sum : r.sum.toNat = (r.product >>> 31).toNat + (r.product &&& modulus.setWidth 64).toNat
  cast : (r.sum.setWidth 32).toNat = r.sum.toNat
  difference : r.sum.setWidth 32 > modulus →
    (r.sum.setWidth 32 - modulus).toNat = (r.sum.setWidth 32).toNat - modulus.toNat

/-! ## One call -/

/-- The states that are neither 0 nor the modulus. -/
def Good (r : Random) : Prop := 1 ≤ r.seed.toNat ∧ r.seed.toNat ≤ 2 ^ 31 - 2

theorem good_new (s : U32) : (new s).Good := by
  have hmask : (s &&& 0x7fffffff#32).toNat = s.toNat % 2 ^ 31 := by
    rw [BitVec.toNat_and]
    exact Nat.and_two_pow_sub_one_eq_mod s.toNat 31
  unfold new Good
  by_cases hbad : s &&& 0x7fffffff#32 = 0#32 ∨ s &&& 0x7fffffff#32 = 2147483647#32
  · simp [hbad]
  · have hzero : (s &&& 0x7fffffff#32).toNat ≠ 0 := fun h => hbad (.inl (BitVec.eq_of_toNat_eq h))
    have hmod : (s &&& 0x7fffffff#32).toNat ≠ 2147483647 :=
      fun h => hbad (.inr (BitVec.eq_of_toNat_eq h))
    simp only [if_neg hbad]
    omega

/-- Adding the upper part of a number to its `p` lower bits keeps it modulo `2 ^ p - 1`. -/
theorem fold_modEq (p x : Nat) : x / 2 ^ p + x % 2 ^ p ≡ x [MOD 2 ^ p - 1] := by
  have hone : 2 ^ p ≡ 1 [MOD 2 ^ p - 1] := Nat.modEq_sub Nat.one_le_two_pow
  calc x / 2 ^ p + x % 2 ^ p
      = 1 * (x / 2 ^ p) + x % 2 ^ p := by rw [Nat.one_mul]
    _ ≡ 2 ^ p * (x / 2 ^ p) + x % 2 ^ p [MOD 2 ^ p - 1] :=
        (hone.symm.mul_right _).add_right _
    _ = x := Nat.div_add_mod x (2 ^ p)

variable {r : Random}

theorem product_lt (r : Random) : r.seed.toNat * 16807 < 2 ^ 47 := by
  have hlt := r.seed.isLt
  omega

theorem product_toNat (r : Random) : r.product.toNat = r.seed.toNat * 16807 := by
  have hlt := r.seed.isLt
  rw [product, multiplier, BitVec.toNat_mul, BitVec.toNat_setWidth, BitVec.toNat_ofNat]
  omega

theorem upper_toNat (r : Random) : (r.product >>> 31).toNat = r.seed.toNat * 16807 / 2 ^ 31 := by
  rw [BitVec.toNat_ushiftRight, Nat.shiftRight_eq_div_pow, product_toNat]

theorem lower_toNat (r : Random) :
    (r.product &&& modulus.setWidth 64).toNat = r.seed.toNat * 16807 % 2 ^ 31 := by
  have hmask : (modulus.setWidth 64).toNat = 2 ^ 31 - 1 := by decide
  rw [BitVec.toNat_and, hmask, product_toNat, Nat.and_two_pow_sub_one_eq_mod]

/-- The upper part is small: one subtraction will do. -/
theorem sum_lt (r : Random) :
    r.seed.toNat * 16807 / 2 ^ 31 + r.seed.toNat * 16807 % 2 ^ 31 < 2 ^ 16 + 2 ^ 31 := by
  have hlt := r.product_lt
  have hupper : r.seed.toNat * 16807 / 2 ^ 31 < 2 ^ 16 := Nat.div_lt_of_lt_mul hlt
  have hlower : r.seed.toNat * 16807 % 2 ^ 31 < 2 ^ 31 := Nat.mod_lt _ (by norm_num)
  exact Nat.add_lt_add hupper hlower

theorem sum_toNat (r : Random) :
    r.sum.toNat = r.seed.toNat * 16807 / 2 ^ 31 + r.seed.toNat * 16807 % 2 ^ 31 := by
  rw [sum, BitVec.toNat_add, upper_toNat, lower_toNat]
  exact Nat.mod_eq_of_lt (lt_trans r.sum_lt (by norm_num))

theorem cast_toNat (r : Random) : (r.sum.setWidth 32).toNat = r.sum.toNat := by
  rw [BitVec.toNat_setWidth, sum_toNat]
  exact Nat.mod_eq_of_lt (lt_trans r.sum_lt (by norm_num))

theorem noOverflow (r : Random) : r.NoOverflow where
  product := r.product_toNat
  sum := by rw [sum_toNat, upper_toNat, lower_toNat]
  cast := r.cast_toNat
  difference := by
    intro h
    exact BitVec.toNat_sub_of_le (BitVec.le_of_lt h)

/-- One subtraction completes the remainder, unless the remainder is 0. -/
theorem sub_eq_mod {m n : Nat} (hn : n < 2 * m) (hne : n % m ≠ 0) :
    (if n > m then n - m else n) = n % m := by
  by_cases h : n > m
  · rw [if_pos h, Nat.mod_eq_sub_mod h.le, Nat.mod_eq_of_lt (by omega)]
  · have hm : n ≠ m := by
      intro heq
      rw [heq, Nat.mod_self] at hne
      exact hne rfl
    rw [if_neg h, Nat.mod_eq_of_lt (by omega)]

/-- 16807 has no factor in common with the modulus: the product is no multiple of it. -/
theorem Good.mod_ne_zero (h : r.Good) : r.seed.toNat * 16807 % (2 ^ 31 - 1) ≠ 0 := by
  intro hzero
  have hcop : Nat.Coprime (2 ^ 31 - 1) 16807 := by norm_num
  have hdvd : 2 ^ 31 - 1 ∣ r.seed.toNat := hcop.dvd_of_dvd_mul_right (Nat.dvd_of_mod_eq_zero hzero)
  have hpos : 0 < r.seed.toNat := h.1
  have hle : 2 ^ 31 - 1 ≤ r.seed.toNat := Nat.le_of_dvd hpos hdvd
  exact absurd (le_trans hle h.2) (by norm_num)

/-- **One call** multiplies by 16807 modulo `2 ^ 31 - 1`, and the state stays good. -/
theorem next_spec (h : r.Good) :
    r.next.2.seed.toNat = r.seed.toNat * 16807 % (2 ^ 31 - 1) ∧ r.next.2.Good := by
  have hsum : (r.sum.setWidth 32).toNat
      = r.seed.toNat * 16807 / 2 ^ 31 + r.seed.toNat * 16807 % 2 ^ 31 := by
    rw [cast_toNat, sum_toNat]
  have hmodulus : modulus.toNat = 2 ^ 31 - 1 := by decide
  have hbound : (r.sum.setWidth 32).toNat < 2 * modulus.toNat := by
    rw [hsum, hmodulus]
    exact lt_of_lt_of_le r.sum_lt (by norm_num)
  have hmod : (r.sum.setWidth 32).toNat % modulus.toNat
      = r.seed.toNat * 16807 % (2 ^ 31 - 1) := by
    rw [hsum, hmodulus]
    exact fold_modEq 31 _
  have hnext : r.next.2.seed.toNat = r.seed.toNat * 16807 % (2 ^ 31 - 1) := by
    rw [← hmod, ← sub_eq_mod hbound (by rw [hmod]; exact h.mod_ne_zero)]
    by_cases hlarge : r.sum.setWidth 32 > modulus
    · rw [if_pos (BitVec.lt_def.mp hlarge), ← r.noOverflow.difference hlarge]
      simp only [next, if_pos hlarge]
    · rw [if_neg (fun hlt => hlarge (BitVec.lt_def.mpr hlt))]
      simp only [next, if_neg hlarge]
  have hlt : r.seed.toNat * 16807 % (2 ^ 31 - 1) < 2 ^ 31 - 1 := Nat.mod_lt _ (by norm_num)
  refine ⟨hnext, ?_, ?_⟩
  · rw [hnext]
    exact Nat.pos_of_ne_zero h.mod_ne_zero
  · rw [hnext]
    exact Nat.le_sub_one_of_lt hlt

/-! ## Runs -/

/-- **Runs**: after `k` calls the state is the seed times `16807 ^ k` modulo `2 ^ 31 - 1`, it is
neither 0 nor the modulus, and nothing overflows in the call that follows. -/
theorem after_spec (s : U32) (k : Nat) :
    ((new s).after k).seed.toNat = (new s).seed.toNat * 16807 ^ k % (2 ^ 31 - 1)
      ∧ 1 ≤ ((new s).after k).seed.toNat ∧ ((new s).after k).seed.toNat ≤ 2 ^ 31 - 2
      ∧ ((new s).after k).NoOverflow := by
  have hrun : ((new s).after k).seed.toNat = (new s).seed.toNat * 16807 ^ k % (2 ^ 31 - 1)
      ∧ ((new s).after k).Good := by
    induction k with
    | zero =>
        have hgood := good_new s
        have hle := hgood.2
        refine ⟨?_, hgood⟩
        rw [after, pow_zero, Nat.mul_one]
        omega
    | succ k ih =>
        have hstep := next_spec ih.2
        refine ⟨?_, hstep.2⟩
        rw [after, hstep.1, ih.1, Nat.mod_mul_mod, pow_succ 16807 k, Nat.mul_assoc]
  exact ⟨hrun.1, hrun.2.1, hrun.2.2, noOverflow _⟩

end Random

end SimpleLeveldb
