import Mathlib.Tactic
import Mathlib.Data.BitVec

set_option autoImplicit false

/-! # Base-128 numbers

A number is written as a sequence of bytes, seven bits each, least significant group first;
every byte but the last has its high bit set. `encode` writes a natural number so, and `value`
is the number that bytes spell. Machine code does it on words of some width `w`: `encodeLoop`
shifts the word out, `decodeLoop` collects the groups into a word, at shifts up to `last`. What
is read is the number spelt, as far as the word reaches (`decodeLoop_number`); on words that
hold the number both loops agree with `encode` (`encodeLoop_eq`, `decodeLoop_encode_toNat`).
-/

namespace Varint

/-- The base-128 bytes of a number. -/
def encode (n : Nat) : List (BitVec 8) :=
  if n < 128 then [BitVec.ofNat 8 n] else BitVec.ofNat 8 (n % 128 + 128) :: encode (n / 128)
termination_by n
decreasing_by omega

theorem encode_of_lt {n : Nat} (h : n < 128) : encode n = [BitVec.ofNat 8 n] := by
  rw [encode, if_pos h]

theorem encode_of_ge {n : Nat} (h : 128 ≤ n) :
    encode n = BitVec.ofNat 8 (n % 128 + 128) :: encode (n / 128) := by
  rw [encode, if_neg (by omega)]

theorem encode_ne_nil (n : Nat) : encode n ≠ [] := by
  by_cases h : n < 128
  · rw [encode_of_lt h]; simp
  · rw [encode_of_ge (by omega)]; simp

/-- Seven bits a byte. -/
theorem encode_length_le (k n : Nat) (h : n < 128 ^ (k + 1)) : (encode n).length ≤ k + 1 := by
  induction k generalizing n with
  | zero =>
      rw [encode_of_lt (by simpa using h)]
      exact le_refl 1
  | succ k ih =>
      by_cases hn : n < 128
      · rw [encode_of_lt hn, List.length_singleton]
        omega
      · have hdiv : n / 128 < 128 ^ (k + 1) := by
          rw [Nat.div_lt_iff_lt_mul (by norm_num), ← pow_succ]
          exact h
        have hlen := ih _ hdiv
        rw [encode_of_ge (by omega), List.length_cons]
        omega

/-! ## The number that bytes spell -/

/-- Seven bits of every byte, least significant group first. -/
def value (bytes : List (BitVec 8)) : Nat :=
  Nat.ofDigits 128 (bytes.map fun b => (b &&& 127#8).toNat)

theorem toNat_low_bits (b : BitVec 8) : (b &&& 127#8).toNat = b.toNat % 128 := by
  rw [BitVec.toNat_and]
  exact Nat.and_two_pow_sub_one_eq_mod b.toNat 7

theorem value_cons (b : BitVec 8) (bytes : List (BitVec 8)) :
    value (b :: bytes) = b.toNat % 128 + 128 * value bytes := by
  rw [value, List.map_cons, Nat.ofDigits_cons, toNat_low_bits]
  rfl

theorem value_singleton {b : BitVec 8} (h : b.toNat < 128) : value [b] = b.toNat := by
  rw [value_cons, Nat.mod_eq_of_lt h]
  rfl

/-- The last group counts `128 ^ c.length`. -/
theorem value_append_singleton (c : List (BitVec 8)) {b : BitVec 8} (h : b.toNat < 128) :
    value (c ++ [b]) = value c + 128 ^ c.length * b.toNat := by
  rw [value, List.map_append, Nat.ofDigits_append, List.length_map]
  exact congrArg (fun d => value c + 128 ^ c.length * d) (value_singleton h)

theorem value_lt (bytes : List (BitVec 8)) : value bytes < 128 ^ bytes.length := by
  have hdigit : ∀ d ∈ bytes.map fun b => (b &&& 127#8).toNat, d < 128 := by
    intro d hd
    obtain ⟨b, -, rfl⟩ := List.mem_map.mp hd
    rw [toNat_low_bits]
    exact Nat.mod_lt _ (by norm_num)
  have h := Nat.ofDigits_lt_base_pow_length (by norm_num : 1 < 128) hdigit
  rwa [List.length_map] at h

/-- With `k` full groups and `r` bits of room in the word, a number of at most `k + 1` groups
fits unless its group `k` has `2 ^ r` or more. -/
theorem value_lt_two_pow_iff {w k r : Nat} (hw : w = 7 * k + r) {c : List (BitVec 8)}
    {b : BitVec 8} (hb : b.toNat < 128) (hlen : c.length ≤ k) :
    value (c ++ [b]) < 2 ^ w ↔ (c.length = k → b.toNat < 2 ^ r) := by
  have hval := value_append_singleton c hb
  have hlow := value_lt c
  have hpow : (128 : Nat) ^ k * 2 ^ r = 2 ^ w := by
    rw [hw, pow_add, pow_mul]
    norm_num
  rcases Nat.lt_or_eq_of_le hlen with hlt | rfl
  · have hgroup : 128 ^ c.length * b.toNat ≤ 128 ^ c.length * 127 :=
      Nat.mul_le_mul_left _ (by omega)
    have hfull : 128 ^ (c.length + 1) ≤ 2 ^ w := by
      rw [← hpow]
      apply le_trans (Nat.pow_le_pow_right (by norm_num) hlt)
      exact Nat.le_mul_of_pos_right _ (by positivity)
    rw [pow_succ] at hfull
    constructor
    · intro _ heq
      omega
    · intro _
      omega
  · constructor
    · intro h _
      apply Nat.lt_of_mul_lt_mul_left (a := 128 ^ c.length)
      omega
    · intro h
      have hgroup : 128 ^ c.length * (b.toNat + 1) ≤ 128 ^ c.length * 2 ^ r :=
        Nat.mul_le_mul_left _ (h rfl)
      rw [Nat.mul_add, Nat.mul_one] at hgroup
      omega

/-- The bytes of one number: every byte but the last has its high bit set. -/
def IsNumber (bytes : List (BitVec 8)) : Prop :=
  ∃ c b, bytes = c ++ [b] ∧ (∀ x ∈ c, 128 ≤ x.toNat) ∧ b.toNat < 128

/-- Bytes that go on to the end, or a number at the front. -/
theorem continued_or_number (p : List (BitVec 8)) :
    (∀ x ∈ p, 128 ≤ x.toNat) ∨ ∃ c b rest,
      p = c ++ b :: rest ∧ (∀ x ∈ c, 128 ≤ x.toNat) ∧ b.toNat < 128 := by
  induction p with
  | nil => left; simp
  | cons x p ih =>
      by_cases hx : x.toNat < 128
      · exact .inr ⟨[], x, p, rfl, by simp, hx⟩
      · rcases ih with hp | ⟨c, b, rest, rfl, hc, hb⟩
        · exact .inl (List.forall_mem_cons.mpr ⟨by omega, hp⟩)
        · exact .inr ⟨x :: c, b, rest, rfl, List.forall_mem_cons.mpr ⟨by omega, hc⟩, hb⟩

/-- `encode` writes the bytes of one number, as few as there can be, and they spell `n`. -/
theorem encode_eq_append (n : Nat) :
    ∃ c b, encode n = c ++ [b] ∧ (∀ x ∈ c, 128 ≤ x.toNat) ∧ b.toNat < 128
      ∧ (c = [] ∨ 128 ^ c.length ≤ n) ∧ value (c ++ [b]) = n := by
  induction n using Nat.strongRecOn with
  | ind n ih =>
      by_cases hn : n < 128
      · have hb : (BitVec.ofNat 8 n).toNat = n := by
          rw [BitVec.toNat_ofNat]; exact Nat.mod_eq_of_lt (by omega)
        refine ⟨[], BitVec.ofNat 8 n, encode_of_lt hn, by simp, by omega, .inl rfl, ?_⟩
        rw [List.nil_append, value_singleton (by omega), hb]
      · obtain ⟨c, b, henc, hc, hb, hlen, hval⟩ := ih (n / 128) (by omega)
        set x := BitVec.ofNat 8 (n % 128 + 128) with hx
        have hxn : x.toNat = n % 128 + 128 := by
          rw [hx, BitVec.toNat_ofNat]; exact Nat.mod_eq_of_lt (by omega)
        refine ⟨x :: c, b, ?_, List.forall_mem_cons.mpr ⟨by omega, hc⟩, hb, .inr ?_, ?_⟩
        · rw [encode_of_ge (by omega), henc, ← hx, List.cons_append]
        · have hpow : 128 ^ c.length ≤ n / 128 := by
            rcases hlen with rfl | hlen
            · exact Nat.div_pos (by omega) (by norm_num)
            · exact hlen
          rw [List.length_cons, pow_succ]
          omega
        · rw [List.cons_append, value_cons, hval, hxn]
          omega

/-! ## Writing words -/

variable {w : Nat}

/-- Shift the word `v` out in groups of seven bits, in at most `n` rounds. -/
def encodeLoop : Nat → BitVec w → List (BitVec 8)
  | 0, _ => []
  | n + 1, v =>
      if 128 ≤ v.toNat then (v ||| 128#w).setWidth 8 :: encodeLoop n (v >>> 7)
      else [v.setWidth 8]

/-- The low byte of a word with bit seven set. -/
theorem setWidth_or_128 (hw : 8 ≤ w) (v : BitVec w) :
    (v ||| 128#w).setWidth 8 = BitVec.ofNat 8 (v.toNat % 128 + 128) := by
  have hbyte : ∀ b : Fin 256, b.val ||| 128 = b.val % 128 + 128 := by decide +kernel
  have h128 : 128 < 2 ^ w := lt_of_lt_of_le (by norm_num) (Nat.pow_le_pow_right two_pos hw)
  apply BitVec.eq_of_toNat_eq
  have hor : (v.toNat ||| 128) % 2 ^ 8 = v.toNat % 2 ^ 8 ||| 128 % 2 ^ 8 := Nat.or_mod_two_pow
  have hb := hbyte ⟨v.toNat % 256, Nat.mod_lt _ (by norm_num)⟩
  simp only [BitVec.toNat_setWidth, BitVec.toNat_or, BitVec.toNat_ofNat, Nat.mod_eq_of_lt h128]
  norm_num at hor hb ⊢
  omega

theorem toNat_shiftRight_seven (v : BitVec w) : (v >>> 7).toNat = v.toNat / 128 := by
  rw [BitVec.toNat_ushiftRight, Nat.shiftRight_eq_div_pow]

theorem setWidth_eight (v : BitVec w) : v.setWidth 8 = BitVec.ofNat 8 v.toNat := by
  apply BitVec.eq_of_toNat_eq
  simp

/-- Enough rounds write the base-128 bytes of the word's number. -/
theorem encodeLoop_eq (hw : 8 ≤ w) (n : Nat) (v : BitVec w) (h : v.toNat < 128 ^ (n + 1)) :
    encodeLoop (n + 1) v = encode v.toNat := by
  induction n generalizing v with
  | zero =>
      have hv : v.toNat < 128 := by simpa using h
      rw [encodeLoop, if_neg (by omega), encode_of_lt hv, setWidth_eight]
  | succ n ih =>
      rw [encodeLoop]
      by_cases hv : 128 ≤ v.toNat
      · have hdiv : (v >>> 7).toNat < 128 ^ (n + 1) := by
          rw [toNat_shiftRight_seven, Nat.div_lt_iff_lt_mul (by norm_num), ← pow_succ]
          exact h
        rw [if_pos hv, encode_of_ge hv, setWidth_or_128 hw, ih _ hdiv, toNat_shiftRight_seven]
      · rw [if_neg hv, encode_of_lt (by omega), setWidth_eight]

/-! ## Reading words -/

/-- Collect groups of seven bits into `result`, the next one at `shift`, while
`shift ≤ last`; the word and the bytes after its last one. -/
def decodeLoop (last : Nat) : Nat → BitVec w → List (BitVec 8) →
    Option (BitVec w × List (BitVec 8))
  | _, _, [] => none
  | shift, result, b :: p =>
      if shift ≤ last then
        let byte := b.setWidth w
        if byte &&& 128#w ≠ 0#w then
          decodeLoop last (shift + 7) (result ||| ((byte &&& 127#w) <<< shift)) p
        else some (result ||| (byte <<< shift), p)
      else none

/-- **Prefix stability**: a word that has been read is read in the same way when more bytes follow. -/
theorem decodeLoop_append {last shift : Nat} {result v : BitVec w} {p rest : List (BitVec 8)}
    (h : decodeLoop last shift result p = some (v, rest)) (more : List (BitVec 8)) :
    decodeLoop last shift result (p ++ more) = some (v, rest ++ more) := by
  induction p generalizing shift result with
  | nil => cases h
  | cons b p ih =>
      rw [List.cons_append]
      simp only [decodeLoop] at h ⊢
      by_cases hlast : shift ≤ last
      · rw [if_pos hlast] at h ⊢
        by_cases hmore : b.setWidth w &&& 128#w ≠ 0#w
        · rw [if_pos hmore] at h ⊢
          exact ih h
        · rw [if_neg hmore] at h ⊢
          cases h
          rfl
      · rw [if_neg hlast] at h
        cases h

theorem and_128_ne_zero (hw : 8 ≤ w) (b : BitVec 8) :
    b.setWidth w &&& 128#w ≠ 0#w ↔ 128 ≤ b.toNat := by
  have hbyte : ∀ b : Fin 256, b.val &&& 128 = b.val / 128 * 128 := by decide +kernel
  have h128 : 256 ≤ 2 ^ w := Nat.pow_le_pow_right two_pos hw
  have hb := hbyte ⟨b.toNat, b.isLt⟩
  have hlt := b.isLt
  rw [ne_eq, ← BitVec.toNat_inj, BitVec.toNat_and, BitVec.toNat_setWidth, BitVec.toNat_ofNat,
    BitVec.toNat_ofNat, Nat.mod_eq_of_lt (by omega), Nat.mod_eq_of_lt (by omega : 128 < 2 ^ w),
    Nat.zero_mod, hb]
  simp only
  omega

/-- A group of seven bits lands above the bits collected so far. -/
theorem toNat_or_shift {shift m : Nat} {result x : BitVec w} (hx : x.toNat = m)
    (hres : result.toNat < 2 ^ shift) (hfit : m * 2 ^ shift < 2 ^ w) :
    (result ||| (x <<< shift)).toNat = result.toNat + m * 2 ^ shift := by
  rw [BitVec.toNat_or, BitVec.toNat_shiftLeft, hx, Nat.shiftLeft_eq, Nat.mod_eq_of_lt hfit,
    Nat.or_comm, Nat.mul_comm, ← Nat.two_pow_add_eq_or_of_lt hres]
  omega

theorem toNat_and_127 (hw : 8 ≤ w) (b : BitVec 8) :
    (b.setWidth w &&& 127#w).toNat = b.toNat % 128 := by
  have h127 : 256 ≤ 2 ^ w := Nat.pow_le_pow_right two_pos hw
  have hlt := b.isLt
  rw [BitVec.toNat_and, BitVec.toNat_setWidth, BitVec.toNat_ofNat,
    Nat.mod_eq_of_lt (by omega), Nat.mod_eq_of_lt (by omega : 127 < 2 ^ w)]
  exact Nat.and_two_pow_sub_one_eq_mod b.toNat 7

/-- The same where the group does not fit: what is above the word is lost. -/
theorem or_shift_eq {shift m : Nat} {result x : BitVec w} (hx : x.toNat = m)
    (hres : result.toNat < 2 ^ shift) :
    result ||| (x <<< shift) = BitVec.ofNat w (result.toNat + 2 ^ shift * m) := by
  have hor : result.toNat ||| 2 ^ shift * m = result.toNat + 2 ^ shift * m := by
    rw [Nat.or_comm, ← Nat.two_pow_add_eq_or_of_lt hres, Nat.add_comm]
  apply BitVec.eq_of_toNat_eq
  calc (result ||| (x <<< shift)).toNat
      = result.toNat ||| (2 ^ shift * m) % 2 ^ w := by
        rw [BitVec.toNat_or, BitVec.toNat_shiftLeft, hx, Nat.shiftLeft_eq, Nat.mul_comm]
    _ = (result.toNat ||| 2 ^ shift * m) % 2 ^ w := by
        rw [Nat.or_mod_two_pow, Nat.mod_eq_of_lt result.isLt]
    _ = (BitVec.ofNat w (result.toNat + 2 ^ shift * m)).toNat := by
        rw [hor, BitVec.toNat_ofNat]

/-- **Reading a number**: what its bytes spell is added to `result`, modulo the word, and the
bytes that follow are left. A number with a group at a shift above `last` is not read. -/
theorem decodeLoop_number {last : Nat} (hw : 8 ≤ w) {c : List (BitVec 8)} {b : BitVec 8}
    (hc : ∀ x ∈ c, 128 ≤ x.toNat) (hb : b.toNat < 128) (rest : List (BitVec 8)) (shift : Nat)
    (result : BitVec w) (hres : result.toNat < 2 ^ shift) :
    decodeLoop last shift result (c ++ b :: rest)
      = if shift + 7 * c.length ≤ last then
          some (BitVec.ofNat w (result.toNat + 2 ^ shift * value (c ++ [b])), rest)
        else none := by
  have h256 : 256 ≤ 2 ^ w := Nat.pow_le_pow_right two_pos hw
  induction c generalizing shift result with
  | nil =>
      have hlow : ¬ (b.setWidth w &&& 128#w ≠ 0#w) := by
        rw [and_128_ne_zero hw]; omega
      have hx : (b.setWidth w).toNat = b.toNat := by
        rw [BitVec.toNat_setWidth, Nat.mod_eq_of_lt (by omega)]
      rw [List.nil_append, List.nil_append, decodeLoop, value_singleton hb]
      simp only [if_neg hlow, or_shift_eq hx hres, List.length_nil, Nat.mul_zero, Nat.add_zero]
  | cons x c ih =>
      have hx := hc x List.mem_cons_self
      have hhigh : x.setWidth w &&& 128#w ≠ 0#w := (and_128_ne_zero hw x).mpr hx
      rw [List.cons_append, decodeLoop]
      by_cases hshift : shift ≤ last
      · set sum := result.toNat + 2 ^ shift * (x.toNat % 128) with hsum
        -- the groups collected so far stay below the next shift
        have hres' : (BitVec.ofNat w sum).toNat < 2 ^ (shift + 7) := by
          have hmul : 2 ^ shift * (x.toNat % 128) ≤ 2 ^ shift * 127 :=
            Nat.mul_le_mul_left _ (by omega)
          rw [BitVec.toNat_ofNat]
          apply lt_of_le_of_lt (Nat.mod_le _ _)
          rw [pow_add]
          omega
        have hword : BitVec.ofNat w
              ((BitVec.ofNat w sum).toNat + 2 ^ (shift + 7) * value (c ++ [b]))
            = BitVec.ofNat w (result.toNat + 2 ^ shift * value (x :: c ++ [b])) := by
          have hsplit : result.toNat + 2 ^ shift * value (x :: c ++ [b])
              = sum + 2 ^ (shift + 7) * value (c ++ [b]) := by
            rw [List.cons_append, value_cons, pow_add, hsum]
            ring
          apply BitVec.eq_of_toNat_eq
          rw [hsplit, BitVec.toNat_ofNat, BitVec.toNat_ofNat, BitVec.toNat_ofNat, Nat.mod_add_mod]
        have hlen : shift + 7 + 7 * c.length = shift + 7 * (x :: c).length := by
          rw [List.length_cons]; omega
        rw [if_pos hshift]
        simp only [if_pos hhigh]
        rw [or_shift_eq (toNat_and_127 hw x) hres,
          ih (fun y hy => hc y (List.mem_cons_of_mem x hy)) _ _ hres', hword, hlen]
      · rw [if_neg hshift, if_neg (by omega)]

/-- Bytes that all say that more follows are read as no number. -/
theorem decodeLoop_continued {last : Nat} (hw : 8 ≤ w) {p : List (BitVec 8)}
    (hp : ∀ x ∈ p, 128 ≤ x.toNat) (shift : Nat) (result : BitVec w) :
    decodeLoop last shift result p = none := by
  induction p generalizing shift result with
  | nil => rfl
  | cons x p ih =>
      have hhigh := (and_128_ne_zero hw x).mpr (hp x List.mem_cons_self)
      rw [decodeLoop]
      simp only [if_pos hhigh, ih (fun y hy => hp y (List.mem_cons_of_mem x hy)), ite_self]

/-- **What is read is a number at the front**, modulo the word. -/
theorem decodeLoop_eq_some {last : Nat} (hw : 8 ≤ w) {p rest : List (BitVec 8)} {v : BitVec w}
    (h : decodeLoop last 0 0#w p = some (v, rest)) :
    ∃ c b, p = c ++ b :: rest ∧ (∀ x ∈ c, 128 ≤ x.toNat) ∧ b.toNat < 128
      ∧ 7 * c.length ≤ last ∧ v = BitVec.ofNat w (value (c ++ [b])) := by
  rcases continued_or_number p with hp | ⟨c, b, rest', rfl, hc, hb⟩
  · rw [decodeLoop_continued hw hp] at h
    cases h
  · rw [decodeLoop_number hw hc hb rest' 0 0#w (by simp)] at h
    split_ifs at h with hlen
    cases h
    exact ⟨c, b, rfl, hc, hb, by omega, by simp⟩

/-- Reading a word from the start of its bytes. `hlast` says that every shift inside the word is
admitted. -/
theorem decodeLoop_encode_toNat {last : Nat} (hw : 8 ≤ w)
    (hlast : ∀ s, s % 7 = 0 → s < w → s ≤ last) (v : BitVec w) (rest : List (BitVec 8)) :
    decodeLoop last 0 0#w (encode v.toNat ++ rest) = some (v, rest) := by
  obtain ⟨c, b, henc, hc, hb, hlen, hval⟩ := encode_eq_append v.toNat
  have hshift : 7 * c.length < w := by
    rcases hlen with rfl | hlen
    · exact lt_of_lt_of_le (by norm_num) hw
    · have hpow : 2 ^ (7 * c.length) < 2 ^ w := by
        rw [pow_mul]
        exact lt_of_le_of_lt hlen v.isLt
      exact (Nat.pow_lt_pow_iff_right (by norm_num)).mp hpow
  have hadm := hlast (7 * c.length) (Nat.mul_mod_right 7 _) hshift
  rw [henc, List.append_assoc, List.singleton_append,
    decodeLoop_number hw hc hb rest 0 0#w (by simp), if_pos (by omega), hval]
  simp

end Varint
