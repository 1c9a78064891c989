import SimpleLeveldb.Util.Coding

set_option autoImplicit false

/-! # The values of decoded varints (`util/coding.cc`)

The decoders stop at shift 28 and 63, so that a number with too many groups is not read. The
groups at these last shifts have only four bits and one bit of room in the word, and nothing
looks at the bits above: `getVarint32` and `getVarint64` return the number that the bytes spell
unless the last possible group is there and does not fit (`exact_iff`).
-/

namespace SimpleLeveldb

/-! ## The calls -/

section

variable {w : Nat}

/-- What a call of a decoder leaves: the `bool`, `*input` and `*value`. The pointer that `getPtr`
returns is null, or it is where `*input` starts afterwards. -/
def getVarint (getPtr : Bytes → Option (BitVec w × Bytes)) (input : Bytes) (value : BitVec w) :
    Bool × Bytes × BitVec w :=
  match getPtr input with
  | none => (false, input, value)
  | some (v, q) => (true, q, v)

/-- A decoder on `input`: what it returns is what the consumed bytes spell, a number that has
no place in `w` bits is rejected, and a call that fails leaves `*input` as it is. -/
structure Exact (get : Bytes → BitVec w → Bool × Bytes × BitVec w) (input : Bytes) : Prop where
  spelt : ∀ value rest v, get input value = (true, rest, v) →
    ∃ consumed, input = consumed ++ rest ∧ v.toNat = Varint.value consumed
  rejected : ∀ value consumed rest, input = consumed ++ rest → Varint.IsNumber consumed →
    2 ^ w ≤ Varint.value consumed → (get input value).1 = false
  kept : ∀ value, (get input value).1 = false → (get input value).2.1 = input

end

/-- `get_varint32( &input, &value )` -/
def getVarint32Call (input : Bytes) (value : U32) : Bool × Bytes × U32 :=
  getVarint getVarint32Ptr input value

/-- `get_varint64( &input, &value )` -/
def getVarint64Call (input : Bytes) (value : U64) : Bool × Bytes × U64 :=
  getVarint getVarint64Ptr input value

/-- Where both decoders succeed, they return the same number and leave the same bytes. -/
def VarintsAgree (input : Bytes) : Prop :=
  ∀ value₁ rest₁ v₁ value₂ rest₂ v₂, getVarint32Call input value₁ = (true, rest₁, v₁) →
    getVarint64Call input value₂ = (true, rest₂, v₂) → v₁.toNat = v₂.toNat ∧ rest₁ = rest₂

/-- The input begins with `k` bytes that say that more follows, and the byte behind them says
that nothing follows and is at least `m`. -/
def TopGroupFrom (k m : Nat) (input : Bytes) : Prop :=
  ∃ c b rest, input = c ++ b :: rest ∧ c.length = k ∧ (∀ x ∈ c, 128 ≤ x.toNat)
    ∧ m ≤ b.toNat ∧ b.toNat < 128

/-! ## When a decoder is exact -/

section

variable {w k r : Nat} {getPtr : Bytes → Option (BitVec w × Bytes)} {input : Bytes}
variable (hptr : ∀ p, getPtr p = Varint.decodeLoop (7 * k) 0 0#w p) (hw : w = 7 * k + r)
  (h8 : 8 ≤ w)

include hptr h8

/-- A number with at most `k + 1` groups is read, modulo the word. -/
theorem getVarint_number {c : Bytes} {b : Byte} (hc : ∀ x ∈ c, 128 ≤ x.toNat)
    (hb : b.toNat < 128) (hlen : c.length ≤ k) (rest : Bytes) (value : BitVec w) :
    getVarint getPtr (c ++ b :: rest) value
      = (true, rest, BitVec.ofNat w (Varint.value (c ++ [b]))) := by
  rw [getVarint, hptr, Varint.decodeLoop_number h8 hc hb rest 0 0#w (by simp), if_pos (by omega)]
  simp

/-- A call that succeeds has read such a number. -/
theorem getVarint_eq_true {value v : BitVec w} {rest : Bytes}
    (h : getVarint getPtr input value = (true, rest, v)) :
    ∃ c b, input = c ++ b :: rest ∧ (∀ x ∈ c, 128 ≤ x.toNat) ∧ b.toNat < 128
      ∧ c.length ≤ k ∧ v = BitVec.ofNat w (Varint.value (c ++ [b])) := by
  unfold getVarint at h
  cases hread : getPtr input with
  | none =>
      rw [hread] at h
      cases h
  | some r =>
      rw [hread] at h
      cases h
      rw [hptr] at hread
      obtain ⟨c, b, hin, hc, hb, hlen, hv⟩ := Varint.decodeLoop_eq_some h8 hread
      exact ⟨c, b, hin, hc, hb, by omega, hv⟩

/-- A number with more groups is not read. -/
theorem getVarint_long {c : Bytes} {b : Byte} (hc : ∀ x ∈ c, 128 ≤ x.toNat)
    (hb : b.toNat < 128) (hlen : k < c.length) (rest : Bytes) (value : BitVec w) :
    getVarint getPtr (c ++ b :: rest) value = (false, c ++ b :: rest, value) := by
  rw [getVarint, hptr, Varint.decodeLoop_number h8 hc hb rest 0 0#w (by simp), if_neg (by omega)]

omit hptr h8 in
/-- A call that fails leaves `*input` as it is. -/
theorem getVarint_kept {value : BitVec w} (h : (getVarint getPtr input value).1 = false) :
    (getVarint getPtr input value).2.1 = input := by
  unfold getVarint at h ⊢
  cases hread : getPtr input with
  | none => rfl
  | some r =>
      rw [hread] at h
      cases h

/-- A decoder is exact where every number at the front that it reads fits. -/
theorem exact_of_fits (hfits : ∀ c b rest, input = c ++ b :: rest → (∀ x ∈ c, 128 ≤ x.toNat) →
    b.toNat < 128 → c.length ≤ k → Varint.value (c ++ [b]) < 2 ^ w) :
    Exact (getVarint getPtr) input where
  spelt := by
    intro value rest v hget
    obtain ⟨c, b, hin, hc, hb, hlen, rfl⟩ := getVarint_eq_true hptr h8 hget
    refine ⟨c ++ [b], by simpa using hin, ?_⟩
    rw [BitVec.toNat_ofNat, Nat.mod_eq_of_lt (hfits c b rest hin hc hb hlen)]
  rejected := by
    intro value consumed rest hin hnumber hlarge
    obtain ⟨c, b, rfl, hc, hb⟩ := hnumber
    have hin' : input = c ++ b :: rest := by simpa using hin
    -- a number that does not fit has more groups than are read
    have hlen : k < c.length := by
      by_contra hle
      have hlt := hfits c b rest hin' hc hb (Nat.le_of_not_lt hle)
      omega
    rw [hin', getVarint_long hptr h8 hc hb hlen]
  kept := by
    intro value hfail
    exact getVarint_kept hfail

include hw

/-- **When a decoder is exact**: unless the group `k` is there and has bits above the word. -/
theorem exact_iff : Exact (getVarint getPtr) input ↔ ¬ TopGroupFrom k (2 ^ r) input := by
  constructor
  · intro h htop
    obtain ⟨c, b, rest, hin, hlen, hc, hm, hb⟩ := htop
    have hlarge : ¬ Varint.value (c ++ [b]) < 2 ^ w := by
      rw [Varint.value_lt_two_pow_iff hw hb hlen.le]
      omega
    have hrej := h.rejected 0#w (c ++ [b]) rest (by simpa using hin) ⟨c, b, rfl, hc, hb⟩
      (Nat.le_of_not_lt hlarge)
    rw [hin, getVarint_number hptr h8 hc hb hlen.le] at hrej
    cases hrej
  · intro h
    apply exact_of_fits hptr h8
    intro c b rest hin hc hb hlen
    rw [Varint.value_lt_two_pow_iff hw hb hlen]
    intro hk
    by_contra hm
    exact h ⟨c, b, rest, hin, hk, hc, by omega, hb⟩

end

/-! ## The two decoders -/

theorem exact_getVarint32_iff (input : Bytes) :
    Exact getVarint32Call input ↔ ¬ TopGroupFrom 4 16 input :=
  exact_iff (k := 4) (r := 4) getVarint32Ptr_eq rfl (by norm_num)

theorem exact_getVarint64_iff (input : Bytes) :
    Exact getVarint64Call input ↔ ¬ TopGroupFrom 9 2 input :=
  exact_iff (k := 9) (r := 1) (fun _ => rfl) rfl (by norm_num)

/-- Exact decoders agree: both have read the number at the front. -/
theorem varintsAgree_of_exact {input : Bytes} (h32 : Exact getVarint32Call input)
    (h64 : Exact getVarint64Call input) : VarintsAgree input := by
  intro value₁ rest₁ v₁ value₂ rest₂ v₂ hget₁ hget₂
  obtain ⟨c, b, rfl, hc, hb, hlen, -⟩ :=
    getVarint_eq_true (k := 4) getVarint32Ptr_eq (by norm_num) hget₁
  have hread : getVarint64Call (c ++ b :: rest₁) value₂
      = (true, rest₁, BitVec.ofNat 64 (Varint.value (c ++ [b]))) :=
    getVarint_number (k := 9) (fun _ => rfl) (by norm_num) hc hb (by omega) rest₁ value₂
  have hrest : rest₁ = rest₂ := by
    rw [hread] at hget₂
    exact congrArg (fun x => x.2.1) hget₂
  subst hrest
  obtain ⟨consumed₁, hin₁, hv₁⟩ := h32.spelt _ _ _ hget₁
  obtain ⟨consumed₂, hin₂, hv₂⟩ := h64.spelt _ _ _ hget₂
  have hconsumed : consumed₁ = consumed₂ := List.append_cancel_right (hin₁.symm.trans hin₂)
  rw [hv₁, hv₂, hconsumed]
  exact ⟨rfl, rfl⟩

/-- **Varints keep their value** exactly where the last possible group of a number, the fifth
of 32 bits and the tenth of 64 bits, has no bits above the word. -/
theorem varints_exact_iff (input : Bytes) :
    (Exact getVarint32Call input ∧ Exact getVarint64Call input ∧ VarintsAgree input)
      ↔ ¬ TopGroupFrom 4 16 input ∧ ¬ TopGroupFrom 9 2 input := by
  rw [← exact_getVarint32_iff, ← exact_getVarint64_iff]
  constructor
  · intro h
    exact ⟨h.1, h.2.1⟩
  · intro h
    exact ⟨h.1, h.2, varintsAgree_of_exact h.1 h.2⟩

/-- Five bytes spell `2 ^ 35 - 1`. `get_varint64` returns it, `get_varint32` returns
`2 ^ 32 - 1`. -/
theorem varints_not_exact :
    getVarint32Call [0xff, 0xff, 0xff, 0xff, 0x7f] 0 = (true, [], 4294967295)
      ∧ getVarint64Call [0xff, 0xff, 0xff, 0xff, 0x7f] 0 = (true, [], 34359738367)
      ∧ ¬ ∀ input, Exact getVarint32Call input ∧ Exact getVarint64Call input
        ∧ VarintsAgree input := by
  have h32 : getVarint32Call [0xff, 0xff, 0xff, 0xff, 0x7f] 0 = (true, [], 4294967295) := by
    decide
  have h64 : getVarint64Call [0xff, 0xff, 0xff, 0xff, 0x7f] 0 = (true, [], 34359738367) := by
    decide
  refine ⟨h32, h64, ?_⟩
  intro h
  have hagree := (h _).2.2 _ _ _ _ _ _ h32 h64
  exact absurd hagree.1 (by decide)

end SimpleLeveldb
