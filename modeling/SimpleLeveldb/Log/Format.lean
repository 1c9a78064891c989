import SimpleLeveldb.Util.Crc32c

set_option autoImplicit false

/-! # The log format (`log_format.h`)

A log file is a sequence of blocks of `kBlockSize` bytes. A record is stored as one or more
physical records, each a header of `kHeaderSize` bytes and a payload, none of which straddles
a block; fewer than `kHeaderSize` bytes at the end of a block are a trailer of zeros.

The format itself is `layout`: the bytes of a list of physical records (`Fragment`s), written
one after the other from an offset `o` in a block.
-/

namespace SimpleLeveldb.Log

/-- `enum record_type : int32_t` -/
inductive RecordType where
  | kZeroType
  | kFullType
  | kFirstType
  | kMiddleType
  | kLastType
  deriving DecidableEq, Repr

/-- The number of a record type. -/
def RecordType.toNat : RecordType → Nat
  | kZeroType => 0
  | kFullType => 1
  | kFirstType => 2
  | kMiddleType => 3
  | kLastType => 4

def kMaxRecordType : Nat := RecordType.kLastType.toNat

def kBlockSize : Nat := 32768

/-- Header is checksum (4 bytes), length (2 bytes), type (1 byte). -/
def kHeaderSize : Nat := 4 + 2 + 1

/-! ## Physical records -/

/-- A physical record: its type and its payload. -/
structure Fragment where
  type : RecordType
  payload : Bytes

/-- The type byte of a record type. -/
def RecordType.byte (t : RecordType) : Byte := BitVec.ofNat 8 t.toNat

/-- The header of a physical record with the checksum `crc`. -/
def header (t : RecordType) (crc : U32) (length : Nat) : Bytes :=
  encodeFixed32 (Crc32c.mask crc) ++ [BitVec.ofNat 8 length, BitVec.ofNat 8 (length >>> 8), t.byte]

@[simp] theorem header_length (t : RecordType) (crc : U32) (n : Nat) :
    (header t crc n).length = kHeaderSize := by
  simp [header, kHeaderSize]

/-- The checksum of a physical record covers its type byte and its payload. -/
def Fragment.crc (f : Fragment) : U32 := Crc32c.value (f.type.byte :: f.payload)

/-- The bytes of a physical record. -/
def Fragment.encode (f : Fragment) : Bytes :=
  header f.type f.crc f.payload.length ++ f.payload

@[simp] theorem Fragment.encode_length (f : Fragment) :
    f.encode.length = kHeaderSize + f.payload.length := by
  simp [Fragment.encode]

/-! ## Layout -/

/-- The length of the trailer at offset `o` of a block. -/
def padding (o : Nat) : Nat := if kBlockSize - o < kHeaderSize then kBlockSize - o else 0

/-- Where a physical record written at offset `o` of a block starts. -/
def start (o : Nat) : Nat := if kBlockSize - o < kHeaderSize then 0 else o

/-- The offset after a physical record written at offset `o`. -/
def next (o : Nat) (f : Fragment) : Nat := start o + kHeaderSize + f.payload.length

/-- The bytes of physical records written from offset `o` of a block. -/
def layout : Nat → List Fragment → Bytes
  | _, [] => []
  | o, f :: fs => zeros (padding o) ++ f.encode ++ layout (next o f) fs

/-- The offset in the block after the physical records `fs`. -/
def endOffset (o : Nat) (fs : List Fragment) : Nat := fs.foldl next o

/-- None of the physical records straddles a block, and none has the type of unused bytes. -/
def Fits : Nat → List Fragment → Prop
  | _, [] => True
  | o, f :: fs => f.type ≠ .kZeroType ∧ next o f ≤ kBlockSize ∧ Fits (next o f) fs

@[simp] theorem endOffset_nil (o : Nat) : endOffset o [] = o := rfl

@[simp] theorem endOffset_cons (o : Nat) (f : Fragment) (fs : List Fragment) :
    endOffset o (f :: fs) = endOffset (next o f) fs := rfl

theorem endOffset_append (o : Nat) (fs gs : List Fragment) :
    endOffset o (fs ++ gs) = endOffset (endOffset o fs) gs := by
  simp [endOffset]

theorem layout_append (o : Nat) (fs gs : List Fragment) :
    layout o (fs ++ gs) = layout o fs ++ layout (endOffset o fs) gs := by
  induction fs generalizing o with
  | nil => rfl
  | cons f fs ih => simp [layout, ih]

theorem fits_append (o : Nat) (fs gs : List Fragment) :
    Fits o (fs ++ gs) ↔ Fits o fs ∧ Fits (endOffset o fs) gs := by
  induction fs generalizing o with
  | nil => simp [Fits]
  | cons f fs ih => simp [Fits, ih, and_assoc]

theorem endOffset_le {o : Nat} {fs : List Fragment} (ho : o ≤ kBlockSize) (h : Fits o fs) :
    endOffset o fs ≤ kBlockSize := by
  induction fs generalizing o with
  | nil => exact ho
  | cons f fs ih => exact ih h.2.1 h.2.2

theorem start_add_kHeaderSize_le {o : Nat} (ho : o ≤ kBlockSize) :
    start o + kHeaderSize ≤ kBlockSize := by
  unfold start
  split_ifs with h
  · decide
  · omega

end SimpleLeveldb.Log
