import SimpleLeveldb.Util.Coding

set_option autoImplicit false

/-! # Keys (`leveldb/__detail/db_format.h`, `db_format.cc`)

An internal key is a user key followed by eight bytes that hold a sequence number and a value
type. The user's comparator is a parameter.
-/

namespace SimpleLeveldb

/-! ## Configuration -/

def kNumLevels : Nat := 7

def kL0CompactionTrigger : Nat := 4

/-- A level that the arrays of a version have an entry for. -/
abbrev Level := Fin kNumLevels

/-- `array[ level ]` for an array with one entry for each level. -/
def levelOf (level : Nat) : Except Fault Level :=
  if h : level < kNumLevels then .ok ⟨level, h⟩ else .error .badAccess

theorem levelOf_of_lt {level : Nat} (h : level < kNumLevels) : levelOf level = .ok ⟨level, h⟩ :=
  dif_pos h

/-! ## Value types -/

/-- `value_type` -/
inductive ValueType where
  | kTypeDeletion
  | kTypeValue
  deriving DecidableEq, Repr

/-- The `char` of a value type. -/
def ValueType.byte : ValueType → Byte
  | .kTypeDeletion => 0x00
  | .kTypeValue => 0x01

/-! ## Internal keys -/

/-- `internal_key`: its `rep_`. -/
abbrev InternalKey := Bytes

namespace InternalKey

/-- `internal_key::encode` -/
def encode (key : InternalKey) : Except Fault Bytes := do
  require (key ≠ [])
  return key

/-- `internal_key::decode_from`: whether the key is not empty, and the key. -/
def decodeFrom (s : Bytes) : Bool × InternalKey := (!s.isEmpty, s)

theorem encode_of_ne_nil {key : InternalKey} (h : key ≠ []) : encode key = .ok key := by
  rw [encode, require_of h]
  rfl

end InternalKey

/-! ## Comparators -/

/-- `comparator`, as far as the version set uses it. -/
structure Comparator where
  name : Bytes
  compare : Bytes → Bytes → Int

/-- `extract_user_key` -/
def extractUserKey (internalKey : Bytes) : Except Fault Bytes := do
  require (8 ≤ internalKey.length)
  return internalKey.take (internalKey.length - 8)

/-- The number in the last eight bytes of an internal key. -/
def keyTrailer (key : Bytes) : U64 := decodeFixed64 (key.drop (key.length - 8))

/-- `internal_key_comparator`, with its `user_comparator_`. -/
structure InternalKeyComparator where
  userComparator : Comparator

/-- `internal_key_comparator::compare`: among equal user keys the higher number comes first. -/
def InternalKeyComparator.compare (icmp : InternalKeyComparator) (akey bkey : Bytes) :
    Except Fault Int := do
  let a ← extractUserKey akey
  let b ← extractUserKey bkey
  let r := icmp.userComparator.compare a b
  if r = 0 then
    if keyTrailer akey > keyTrailer bkey then return -1
    else if keyTrailer akey < keyTrailer bkey then return 1
  return r

/-- `compare` on internal keys, whose `encode` asserts that they are not empty. -/
def InternalKeyComparator.compareKeys (icmp : InternalKeyComparator) (a b : InternalKey) :
    Except Fault Int := do
  icmp.compare (← a.encode) (← b.encode)

theorem extractUserKey_of_le {key : Bytes} (h : 8 ≤ key.length) :
    extractUserKey key = .ok (key.take (key.length - 8)) := by
  rw [extractUserKey, require_of h]
  rfl

/-- Two keys of at least eight bytes can be compared. -/
theorem InternalKeyComparator.compareKeys_ok (icmp : InternalKeyComparator) {a b : InternalKey}
    (ha : 8 ≤ a.length) (hb : 8 ≤ b.length) : ∃ r, icmp.compareKeys a b = .ok r := by
  have hane : a ≠ [] := by
    rintro rfl
    simp at ha
  have hbne : b ≠ [] := by
    rintro rfl
    simp at hb
  rw [compareKeys, InternalKey.encode_of_ne_nil hane, InternalKey.encode_of_ne_nil hbne]
  simp only [ok_bind, compare, extractUserKey_of_le ha, extractUserKey_of_le hb]
  split_ifs <;> exact ⟨_, rfl⟩

end SimpleLeveldb
