import SimpleLeveldb.Basic
import SimpleLeveldb.Lib.Varint

set_option autoImplicit false

/-! # Coding (`util/coding.h`, `util/coding.cc`)

Fixed-width and base-128 encodings of numbers, and length-prefixed strings. A `put` function
appends to `*dst`: here it is the bytes appended. A `get` function reads from the front of
`*input`: here it returns the value and the bytes left, or `none` for `false`.
-/

namespace SimpleLeveldb

/-! ## Fixed-width numbers -/

def encodeFixed32 (value : U32) : Bytes :=
  [value.setWidth 8, (value >>> 8).setWidth 8, (value >>> 16).setWidth 8,
    (value >>> 24).setWidth 8]

def encodeFixed64 (value : U64) : Bytes :=
  [value.setWidth 8, (value >>> 8).setWidth 8, (value >>> 16).setWidth 8,
    (value >>> 24).setWidth 8, (value >>> 32).setWidth 8, (value >>> 40).setWidth 8,
    (value >>> 48).setWidth 8, (value >>> 56).setWidth 8]

/-- `decode_fixed32` on the four bytes at `ptr`. -/
def decodeFixed32 (ptr : Bytes) : U32 :=
  (ptr.getD 0 0#8).setWidth 32 ||| ((ptr.getD 1 0#8).setWidth 32 <<< 8)
    ||| ((ptr.getD 2 0#8).setWidth 32 <<< 16) ||| ((ptr.getD 3 0#8).setWidth 32 <<< 24)

/-- `decode_fixed64` on the eight bytes at `ptr`. -/
def decodeFixed64 (ptr : Bytes) : U64 :=
  (ptr.getD 0 0#8).setWidth 64 ||| ((ptr.getD 1 0#8).setWidth 64 <<< 8)
    ||| ((ptr.getD 2 0#8).setWidth 64 <<< 16) ||| ((ptr.getD 3 0#8).setWidth 64 <<< 24)
    ||| ((ptr.getD 4 0#8).setWidth 64 <<< 32) ||| ((ptr.getD 5 0#8).setWidth 64 <<< 40)
    ||| ((ptr.getD 6 0#8).setWidth 64 <<< 48) ||| ((ptr.getD 7 0#8).setWidth 64 <<< 56)

@[simp] theorem encodeFixed32_length (v : U32) : (encodeFixed32 v).length = 4 := rfl

/-- A fixed 32-bit number is read back, whatever follows it. -/
theorem decodeFixed32_encodeFixed32 (v : U32) (rest : Bytes) :
    decodeFixed32 (encodeFixed32 v ++ rest) = v := by
  simp only [decodeFixed32, encodeFixed32, List.cons_append, List.getD_cons_zero,
    List.getD_cons_succ]
  ext i hi
  simp
  grind

/-! A word put together from bytes has each of them at its place. -/

section

variable {w s t : Nat} (b : Byte)

/-- A byte that was put at bit `s` of a word is read there. -/
theorem byteAt_self (h : s + 8 ≤ w) : ((b.setWidth w <<< s) >>> s).setWidth 8 = b := by
  ext i hi
  have hs : s + i < w := by omega
  simp [hs, hi]

/-- At another place there is nothing of it. -/
theorem byteAt_ne (h : s + 8 ≤ t ∨ t + 8 ≤ s) :
    ((b.setWidth w <<< s) >>> t).setWidth 8 = 0#8 := by
  ext i hi
  have hbit : b.getLsbD (t + i - s) = false ∨ t + i < s := by
    rcases h with h | h
    · exact .inl (BitVec.getLsbD_of_ge b _ (by omega))
    · exact .inr (by omega)
  simp
  grind

theorem byteAt_zero (h : 8 ≤ w) : (b.setWidth w).setWidth 8 = b := by
  have hself := byteAt_self (s := 0) b h
  rwa [BitVec.shiftLeft_zero, BitVec.ushiftRight_zero] at hself

theorem byteAt_zero_above (h : 8 ≤ t) : ((b.setWidth w) >>> t).setWidth 8 = 0#8 := by
  have hne := byteAt_ne (w := w) (s := 0) b (.inl h)
  rwa [BitVec.shiftLeft_zero] at hne

theorem byteAt_above_zero (h : 8 ≤ s) : (b.setWidth w <<< s).setWidth 8 = 0#8 := by
  have hne := byteAt_ne (w := w) (t := 0) b (.inr h)
  rwa [BitVec.ushiftRight_zero] at hne

end

theorem encodeFixed32_decodeFixed32 (b0 b1 b2 b3 : Byte) (rest : Bytes) :
    encodeFixed32 (decodeFixed32 (b0 :: b1 :: b2 :: b3 :: rest)) = [b0, b1, b2, b3] := by
  simp only [decodeFixed32, encodeFixed32, List.getD_cons_zero, List.getD_cons_succ,
    BitVec.ushiftRight_or_distrib, BitVec.setWidth_or]
  simp (disch := omega) only [byteAt_self, byteAt_ne, byteAt_zero, byteAt_zero_above,
    byteAt_above_zero, BitVec.or_zero, BitVec.zero_or]

theorem encodeFixed64_decodeFixed64 (b0 b1 b2 b3 b4 b5 b6 b7 : Byte) (rest : Bytes) :
    encodeFixed64 (decodeFixed64 (b0 :: b1 :: b2 :: b3 :: b4 :: b5 :: b6 :: b7 :: rest))
      = [b0, b1, b2, b3, b4, b5, b6, b7] := by
  simp only [decodeFixed64, encodeFixed64, List.getD_cons_zero, List.getD_cons_succ,
    BitVec.ushiftRight_or_distrib, BitVec.setWidth_or]
  simp (disch := omega) only [byteAt_self, byteAt_ne, byteAt_zero, byteAt_zero_above,
    byteAt_above_zero, BitVec.or_zero, BitVec.zero_or]

/-! ## Base-128 numbers -/

/-- `encode_varint32`, the five cases written out. -/
def encodeVarint32 (value : U32) : Bytes :=
  let b (v : U32) : Byte := (v ||| 128#32).setWidth 8
  if value.toNat < 1 <<< 7 then [value.setWidth 8]
  else if value.toNat < 1 <<< 14 then [b value, (value >>> 7).setWidth 8]
  else if value.toNat < 1 <<< 21 then [b value, b (value >>> 7), (value >>> 14).setWidth 8]
  else if value.toNat < 1 <<< 28 then
    [b value, b (value >>> 7), b (value >>> 14), (value >>> 21).setWidth 8]
  else
    [b value, b (value >>> 7), b (value >>> 14), b (value >>> 21), (value >>> 28).setWidth 8]

/-- `encode_varint64`: a 64-bit number has at most ten groups of seven bits. -/
def encodeVarint64 (v : U64) : Bytes := Varint.encodeLoop 10 v

def putVarint32 (value : U32) : Bytes := encodeVarint32 value

def putVarint64 (value : U64) : Bytes := encodeVarint64 value

def getVarint32PtrFallback (p : Bytes) : Option (U32 × Bytes) := Varint.decodeLoop 28 0 0#32 p

/-- `get_varint32ptr`: one byte is decoded in place, more by the fallback. -/
def getVarint32Ptr (p : Bytes) : Option (U32 × Bytes) :=
  match p with
  | b :: p' =>
      let result : U32 := b.setWidth 32
      if result &&& 128#32 = 0#32 then some (result, p') else getVarint32PtrFallback p
  | [] => getVarint32PtrFallback p

def getVarint64Ptr (p : Bytes) : Option (U64 × Bytes) := Varint.decodeLoop 63 0 0#64 p

def getVarint32 (input : Bytes) : Option (U32 × Bytes) := getVarint32Ptr input

def getVarint64 (input : Bytes) : Option (U64 × Bytes) := getVarint64Ptr input

theorem encodeVarint32_eq (v : U32) : encodeVarint32 v = Varint.encode v.toNat := by
  have hv := v.isLt
  have hloop := Varint.encodeLoop_eq (by norm_num : 8 ≤ 32) 4 v (by omega)
  rw [← hloop]
  have hsh : ∀ k : Nat, (v >>> k) >>> 7 = v >>> (k + 7) :=
    fun k => (BitVec.shiftRight_add v k 7).symm
  -- the loop's conditions on the shifted word are those of the five cases
  have hmore : ∀ k : Nat, 128 ≤ (v >>> k).toNat ↔ ¬ v.toNat < 1 <<< (k + 7) := by
    intro k
    rw [BitVec.toNat_ushiftRight, Nat.shiftRight_eq_div_pow, Nat.le_div_iff_mul_le (by positivity),
      Nat.shiftLeft_eq, pow_add, Nat.not_lt, Nat.one_mul, Nat.mul_comm]
    norm_num
  have hfirst : 128 ≤ v.toNat ↔ ¬ v.toNat < 1 <<< 7 := Nat.not_lt.symm
  have hlast : v.toNat < 1 <<< 35 := lt_trans hv (by decide)
  simp only [encodeVarint32, Varint.encodeLoop, hsh, hmore, hfirst, ite_not, Nat.reduceAdd,
    if_pos hlast]
  split_ifs <;> rfl

theorem putVarint32_length_pos (v : U32) : 0 < (putVarint32 v).length := by
  rw [putVarint32, encodeVarint32_eq, List.length_pos_iff_ne_nil]
  exact Varint.encode_ne_nil _

theorem encodeVarint64_eq (v : U64) : encodeVarint64 v = Varint.encode v.toNat := by
  have hv := v.isLt
  exact Varint.encodeLoop_eq (by norm_num) 9 v (by omega)

/-- The decoder of one byte agrees with the general one. -/
theorem getVarint32Ptr_eq (p : Bytes) : getVarint32Ptr p = getVarint32PtrFallback p := by
  cases p with
  | nil => rfl
  | cons b p' =>
      by_cases h : b.setWidth 32 &&& 128#32 = 0#32
      · simp [getVarint32Ptr, getVarint32PtrFallback, Varint.decodeLoop, h]
      · simp [getVarint32Ptr, h]

theorem getVarint32_putVarint32 (v : U32) (rest : Bytes) :
    getVarint32 (putVarint32 v ++ rest) = some (v, rest) := by
  rw [getVarint32, getVarint32Ptr_eq, putVarint32, encodeVarint32_eq]
  exact Varint.decodeLoop_encode_toNat (by norm_num) (by intro s h1 h2; omega) v rest

theorem getVarint64_putVarint64 (v : U64) (rest : Bytes) :
    getVarint64 (putVarint64 v ++ rest) = some (v, rest) := by
  rw [getVarint64, getVarint64Ptr, putVarint64, encodeVarint64_eq]
  exact Varint.decodeLoop_encode_toNat (by norm_num) (by intro s h1 h2; omega) v rest

@[simp] theorem getVarint32_nil : getVarint32 [] = none := rfl

/-! Bytes behind what is read do not matter. -/

theorem getVarint32_append {input rest : Bytes} {v : U32} (h : getVarint32 input = some (v, rest))
    (more : Bytes) : getVarint32 (input ++ more) = some (v, rest ++ more) := by
  rw [getVarint32, getVarint32Ptr_eq] at h ⊢
  exact Varint.decodeLoop_append h more

theorem getVarint64_append {input rest : Bytes} {v : U64} (h : getVarint64 input = some (v, rest))
    (more : Bytes) : getVarint64 (input ++ more) = some (v, rest ++ more) :=
  Varint.decodeLoop_append h more

/-! ## Length-prefixed strings -/

/-- `put_length_prefixed_slice`: the length is passed as a `uint32_t`. -/
def putLengthPrefixedSlice (value : Bytes) : Bytes :=
  putVarint32 (BitVec.ofNat 32 value.length) ++ value

/-- `get_length_prefixed_slice`. A length that the input does not have makes it `false`. -/
def getLengthPrefixedSlice (input : Bytes) : Option (Bytes × Bytes) :=
  match getVarint32 input with
  | some (len, input) =>
      if len.toNat ≤ input.length then some (input.take len.toNat, input.drop len.toNat) else none
  | none => none

theorem getLengthPrefixedSlice_append {input rest value : Bytes}
    (h : getLengthPrefixedSlice input = some (value, rest)) (more : Bytes) :
    getLengthPrefixedSlice (input ++ more) = some (value, rest ++ more) := by
  unfold getLengthPrefixedSlice at h ⊢
  cases hlen : getVarint32 input with
  | none =>
      rw [hlen] at h
      cases h
  | some r =>
      rw [hlen] at h
      rw [getVarint32_append hlen]
      simp only at h ⊢
      split_ifs at h with hle
      cases h
      rw [if_pos (by rw [List.length_append]; omega), List.take_append_of_le_length hle,
        List.drop_append_of_le_length hle]

theorem getLengthPrefixedSlice_put {value : Bytes} (h : value.length < 2 ^ 32) (rest : Bytes) :
    getLengthPrefixedSlice (putLengthPrefixedSlice value ++ rest) = some (value, rest) := by
  have hlen : (BitVec.ofNat 32 value.length).toNat = value.length := by
    rw [BitVec.toNat_ofNat, Nat.mod_eq_of_lt h]
  rw [putLengthPrefixedSlice, List.append_assoc, getLengthPrefixedSlice, getVarint32_putVarint32]
  simp [hlen]

end SimpleLeveldb
