import Mathlib.Tactic
import Mathlib.Data.BitVec

set_option autoImplicit false

/-! # Reflected cyclic redundancy checks

A reflected CRC over words of width `w` is a linear feedback register: one step shifts the
register right by one bit and, when the bit shifted out is `1`, adds the polynomial
(`step`). Feeding `k` bits of input `x` into the register `c` is `steps k (c ^^^ x)`.

Everything below follows from linearity (`steps_xor`). It gives the two devices that fast
implementations use: a table indexed by the low bits of the register (`steps_low`), and
independent partial registers which are combined at the end (`feedAll_rotate`).
-/

namespace Crc

variable {w : Nat} (poly : BitVec w)

/-- One bit of the register. -/
def step (c : BitVec w) : BitVec w := if c.getLsbD 0 then (c >>> 1) ^^^ poly else c >>> 1

/-- `n` bits of the register. -/
def steps : Nat → BitVec w → BitVec w
  | 0, c => c
  | n + 1, c => steps n (step poly c)

/-! ## Linearity -/

theorem step_xor (a b : BitVec w) : step poly (a ^^^ b) = step poly a ^^^ step poly b := by
  unfold step
  rw [BitVec.getLsbD_xor, BitVec.ushiftRight_xor_distrib]
  cases a.getLsbD 0 <;> cases b.getLsbD 0
  · rfl
  · simp [BitVec.xor_assoc]
  · simp only [Bool.xor_false, if_true, Bool.false_eq_true, if_false]
    rw [BitVec.xor_assoc, BitVec.xor_comm (b >>> 1) poly, ← BitVec.xor_assoc]
  · simp only [Bool.xor_true, Bool.not_true, Bool.false_eq_true, if_false, if_true]
    rw [BitVec.xor_assoc, BitVec.xor_comm (b >>> 1) poly, ← BitVec.xor_assoc poly,
      BitVec.xor_self, BitVec.zero_xor]

@[simp] theorem steps_zero (c : BitVec w) : steps poly 0 c = c := rfl

theorem steps_succ (n : Nat) (c : BitVec w) :
    steps poly (n + 1) c = steps poly n (step poly c) := rfl

theorem steps_xor (n : Nat) (a b : BitVec w) :
    steps poly n (a ^^^ b) = steps poly n a ^^^ steps poly n b := by
  induction n generalizing a b with
  | zero => rfl
  | succ n ih => rw [steps_succ, step_xor, ih]; rfl

theorem steps_add (m n : Nat) (c : BitVec w) :
    steps poly (m + n) c = steps poly n (steps poly m c) := by
  induction m generalizing c with
  | zero => rw [Nat.zero_add]; rfl
  | succ m ih => rw [Nat.succ_add, steps_succ, steps_succ, ih]

theorem steps_of_zero (n : Nat) : steps poly n 0#w = 0#w := by
  induction n with
  | zero => rfl
  | succ n ih => rw [steps_succ]; simpa [step] using ih

/-! ## Registers that lose nothing -/

/-- A step of the zero register only comes from the zero register, when the polynomial has its
highest bit. -/
theorem eq_zero_of_step {poly : BitVec w} (hpoly : poly.getLsbD (w - 1) = true) {c : BitVec w}
    (h : step poly c = 0#w) : c = 0#w := by
  have hw : 0 < w := by
    by_contra hw
    obtain rfl : w = 0 := by omega
    simp at hpoly
  unfold step at h
  split_ifs at h with h0
  · -- the highest bit of the shifted register is clear
    have hbit := congrArg (fun x => x.getLsbD (w - 1)) h
    simp only [BitVec.getLsbD_xor, BitVec.getLsbD_ushiftRight, hpoly, Bool.xor_true,
      BitVec.getLsbD_zero] at hbit
    rw [BitVec.getLsbD_of_ge c _ (by omega)] at hbit
    cases hbit
  · apply BitVec.eq_of_getLsbD_eq
    intro i hi
    cases i with
    | zero => simpa using h0
    | succ i =>
        have hbit := congrArg (fun x => x.getLsbD i) h
        simpa [Nat.add_comm 1 i] using hbit

theorem steps_injective {poly : BitVec w} (hpoly : poly.getLsbD (w - 1) = true) (n : Nat)
    {a b : BitVec w} (h : steps poly n a = steps poly n b) : a = b := by
  have hzero : ∀ (n : Nat) (c : BitVec w), steps poly n c = 0#w → c = 0#w := by
    intro n
    induction n with
    | zero => exact fun c hc => hc
    | succ n ih => exact fun c hc => eq_zero_of_step hpoly (ih _ hc)
  have hxor : a ^^^ b = 0#w := by
    apply hzero n
    rw [steps_xor, h, BitVec.xor_self]
  calc a = a ^^^ b ^^^ b := by rw [BitVec.xor_assoc, BitVec.xor_self, BitVec.xor_zero]
    _ = b := by rw [hxor, BitVec.zero_xor]
/-! ## Registers whose low bits are clear -/

/-- A register whose low `n` bits are clear is only shifted. -/
theorem steps_of_low_clear (n : Nat) (c : BitVec w) (h : ∀ i, i < n → c.getLsbD i = false) :
    steps poly n c = c >>> n := by
  induction n generalizing c with
  | zero => simp
  | succ n ih =>
      have hstep : step poly c = c >>> 1 := by
        simp [step, h 0 (Nat.succ_pos n)]
      rw [steps_succ, hstep, ih, ← BitVec.shiftRight_add, Nat.add_comm]
      intro i hi
      rw [BitVec.getLsbD_ushiftRight]
      exact h (1 + i) (by omega)

/-- Input that sits above `n` clear bits is shifted down by the first `n` steps. -/
theorem steps_shiftLeft (n m : Nat) (x : BitVec w) (h : (x <<< n) >>> n = x) :
    steps poly (n + m) (x <<< n) = steps poly m x := by
  rw [steps_add, steps_of_low_clear poly n, h]
  intro i hi
  simp [hi]

/-- **The table step**: `n` steps of a register are `n` steps of its low `n` bits, and the
rest of the register shifted down. -/
theorem steps_low (n : Nat) (c : BitVec w) :
    steps poly n c = steps poly n ((c.setWidth n).setWidth w) ^^^ (c >>> n) := by
  have hsplit : c = (c.setWidth n).setWidth w ^^^ ((c >>> n) <<< n) := by
    apply BitVec.eq_of_getLsbD_eq
    intro i hi
    by_cases hin : i < n
    · simp [hi, hin]
    · simp [hi, hin, show n + (i - n) = i by omega]
  have hhigh : steps poly n ((c >>> n) <<< n) = c >>> n := by
    rw [steps_of_low_clear poly n]
    · apply BitVec.eq_of_getLsbD_eq
      intro i hi
      by_cases hin : n + i < w
      · simp [hin, hi, show ¬ n + i < n by omega]
      · simp [hin, BitVec.getLsbD_of_ge c (n + i) (by omega)]
    · intro i hi
      simp [hi]
  conv => lhs; rw [hsplit]
  rw [steps_xor, hhigh]

/-! ## Tables

A linear map is determined by its values on the single bits, and so is its table. -/

/-- All sums of the words `bs`, those of the first word alternating fastest. -/
def span : List (BitVec w) → List (BitVec w)
  | [] => [0#w]
  | b :: bs => (span bs).flatMap (fun x => [x, x ^^^ b])

theorem span_map_steps (n : Nat) (bs : List (BitVec w)) :
    span (bs.map (steps poly n)) = (span bs).map (steps poly n) := by
  induction bs with
  | nil => simp [span, steps_of_zero]
  | cons b bs ih => simp [span, ih, List.map_flatMap, List.flatMap_map, steps_xor]

/-! ## Words and strides -/

/-- Feed the words `xs`, `k` bits each, into the register `c`. -/
def feedAll (k : Nat) (c : BitVec w) (xs : List (BitVec w)) : BitVec w :=
  xs.foldl (fun c x => steps poly k (c ^^^ x)) c

@[simp] theorem feedAll_nil (k : Nat) (c : BitVec w) : feedAll poly k c [] = c := rfl

@[simp] theorem feedAll_cons (k : Nat) (c x : BitVec w) (xs : List (BitVec w)) :
    feedAll poly k c (x :: xs) = feedAll poly k (steps poly k (c ^^^ x)) xs := rfl

theorem feedAll_append (k : Nat) (c : BitVec w) (xs ys : List (BitVec w)) :
    feedAll poly k c (xs ++ ys) = feedAll poly k (feedAll poly k c xs) ys := by
  simp [feedAll]

/-- The register that the input meets contributes on its own. -/
theorem feedAll_xor (k : Nat) (c d : BitVec w) (xs : List (BitVec w)) :
    feedAll poly k (c ^^^ d) xs = steps poly (k * xs.length) c ^^^ feedAll poly k d xs := by
  induction xs generalizing c d with
  | nil => simp
  | cons x xs ih =>
      rw [feedAll_cons, feedAll_cons, BitVec.xor_assoc, steps_xor, ih, List.length_cons,
        Nat.mul_succ, Nat.add_comm, steps_add]

/-- **The stride step**: the oldest of several partial registers may be run over the distance
of all of them and added to the next input word, which then takes its place at the end. -/
theorem feedAll_rotate (k : Nat) (a x : BitVec w) (xs : List (BitVec w)) :
    feedAll poly k 0#w (a :: xs ++ [x])
      = feedAll poly k 0#w (xs ++ [x ^^^ steps poly (k * (xs.length + 1)) a]) := by
  have hhead : feedAll poly k 0#w (a :: xs)
      = steps poly (k * (xs.length + 1)) a ^^^ feedAll poly k 0#w xs := by
    have := feedAll_xor poly k (steps poly k a) 0#w xs
    rw [BitVec.xor_zero] at this
    rw [feedAll_cons, BitVec.zero_xor, this, Nat.mul_succ, Nat.add_comm, steps_add]
  rw [feedAll_append, hhead, feedAll_append]
  simp only [feedAll_cons, feedAll_nil]
  congr 1
  rw [BitVec.xor_comm (steps poly _ a), BitVec.xor_assoc, BitVec.xor_comm (steps poly _ a)]

end Crc
