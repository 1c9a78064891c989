import SimpleLeveldb.Util.Coding

set_option autoImplicit false

/-! # Sequences of fields (`util/coding.cc`)

Numbers and length-prefixed strings written one after the other, as records and tables have them,
and read back field by field. `put_varint32` and `put_varint64` encode into local arrays of 5 and
10 bytes: no encoding is longer.
-/

namespace SimpleLeveldb

/-- What the three pairs of functions write and read. -/
inductive Field where
  | varint32 (value : U32)
  | varint64 (value : U64)
  | slice (value : Bytes)
  deriving DecidableEq

/-- Which function reads a field. -/
inductive FieldKind where
  | varint32
  | varint64
  | slice
  deriving DecidableEq, Repr

namespace Field

def kind : Field → FieldKind
  | varint32 _ => .varint32
  | varint64 _ => .varint64
  | slice _ => .slice

/-- The bytes that the matching `put` function appends. -/
def put : Field → Bytes
  | varint32 value => putVarint32 value
  | varint64 value => putVarint64 value
  | slice value => putLengthPrefixedSlice value

/-- The length of a string fits its prefix. -/
def Short : Field → Prop
  | slice value => value.length < 2 ^ 32
  | _ => True

instance : (f : Field) → Decidable f.Short
  | varint32 _ => .isTrue trivial
  | varint64 _ => .isTrue trivial
  | slice value => inferInstanceAs (Decidable (value.length < 2 ^ 32))

end Field

/-- The matching `get` function: the field, and the bytes behind it. -/
def FieldKind.get (input : Bytes) : FieldKind → Option (Field × Bytes)
  | .varint32 => (getVarint32 input).map fun r => (.varint32 r.1, r.2)
  | .varint64 => (getVarint64 input).map fun r => (.varint64 r.1, r.2)
  | .slice => (getLengthPrefixedSlice input).map fun r => (.slice r.1, r.2)

/-- Fields written one after the other. -/
def putFields (fields : List Field) : Bytes := fields.flatMap Field.put

/-- Fields of the given kinds read one after the other, and the bytes behind them. -/
def getFields : List FieldKind → Bytes → Option (List Field × Bytes)
  | [], input => some ([], input)
  | kind :: kinds, input =>
      match kind.get input with
      | some (field, input) => (getFields kinds input).map fun r => (field :: r.1, r.2)
      | none => none

/-- One field is read back, whatever follows it. -/
theorem Field.get_put {f : Field} (h : f.Short) (rest : Bytes) :
    f.kind.get (f.put ++ rest) = some (f, rest) := by
  cases f with
  | varint32 value => rw [put, kind, FieldKind.get, getVarint32_putVarint32, Option.map_some]
  | varint64 value => rw [put, kind, FieldKind.get, getVarint64_putVarint64, Option.map_some]
  | slice value => rw [put, kind, FieldKind.get, getLengthPrefixedSlice_put h, Option.map_some]

theorem getFields_append {fields : List Field} (h : ∀ f ∈ fields, f.Short) (suffix : Bytes) :
    getFields (fields.map Field.kind) (putFields fields ++ suffix) = some (fields, suffix) := by
  induction fields with
  | nil => rfl
  | cons f fields ih =>
      obtain ⟨hf, hfields⟩ := List.forall_mem_cons.mp h
      have hsplit : putFields (f :: fields) ++ suffix = f.put ++ (putFields fields ++ suffix) := by
        rw [putFields, List.flatMap_cons, List.append_assoc]
        rfl
      rw [hsplit, List.map_cons, getFields, Field.get_put hf]
      simp only [ih hfields, Option.map_some]

/-! ## The lengths -/

theorem encodeVarint32_length_le (v : U32) : (encodeVarint32 v).length ≤ 5 := by
  rw [encodeVarint32_eq]
  exact Varint.encode_length_le 4 v.toNat (lt_trans v.isLt (by norm_num))

theorem encodeVarint64_length_le (v : U64) : (encodeVarint64 v).length ≤ 10 := by
  rw [encodeVarint64_eq]
  exact Varint.encode_length_le 9 v.toNat (lt_trans v.isLt (by norm_num))

/-- The loop of `encode_varint64` has ended behind ten rounds. -/
theorem encodeLoop_ended (k : Nat) (v : U64) : Varint.encodeLoop (10 + k) v = encodeVarint64 v := by
  have hv : v.toNat < 128 ^ (9 + k + 1) :=
    lt_of_lt_of_le (lt_trans v.isLt (by norm_num : 2 ^ 64 < 128 ^ 10))
      (Nat.pow_le_pow_right (by norm_num) (by omega))
  have hloop := Varint.encodeLoop_eq (by norm_num : 8 ≤ 64) (9 + k) v hv
  rw [encodeVarint64_eq, ← hloop]
  congr 1
  omega

/-- **Fields are read back** in order, and what follows them is left; no number takes more bytes
than the array it is encoded into has, however many rounds the encoder may make. -/
theorem getFields_putFields (fields : List Field) (h : ∀ f ∈ fields, f.Short) (suffix : Bytes) :
    getFields (fields.map Field.kind) (putFields fields ++ suffix) = some (fields, suffix)
      ∧ (∀ v : U32, (encodeVarint32 v).length ≤ 5)
      ∧ ∀ (rounds : Nat) (v : U64), (Varint.encodeLoop (10 + rounds) v).length ≤ 10
        ∧ Varint.encodeLoop (10 + rounds) v = encodeVarint64 v := by
  refine ⟨getFields_append h suffix, encodeVarint32_length_le, fun rounds v => ⟨?_, ?_⟩⟩
  · rw [encodeLoop_ended]
    exact encodeVarint64_length_le v
  · exact encodeLoop_ended rounds v

/-- A number of each width and a string, and a byte behind them. -/
theorem getFields_putFields_three :
    getFields [.varint32, .varint64, .slice]
        (putFields [.varint32 (2 ^ 32 - 1), .varint64 (2 ^ 64 - 1), .slice (text "k")] ++ [255#8])
      = some ([.varint32 (2 ^ 32 - 1), .varint64 (2 ^ 64 - 1), .slice (text "k")], [255#8]) :=
  (getFields_putFields [.varint32 (2 ^ 32 - 1), .varint64 (2 ^ 64 - 1), .slice (text "k")]
    (by decide) [255#8]).1

end SimpleLeveldb
