import SimpleLeveldb.DbFormat
import Mathlib.Data.Finset.Basic

set_option autoImplicit false

/-! # Version edits (`version_edit.h`, `version_edit.cc`)

A version edit is a set of changes to the list of table files and to a few numbers, and the
content of one record of a manifest. `encodeTo` and `decodeFrom` are modelled as the source
has them: `encodeTo` writes nothing for the deleted files, and `decodeFrom` reads the tag of
a compact pointer as a deleted file.
-/

namespace SimpleLeveldb

/-- `file_meta_data` -/
structure FileMetaData where
  refs : Nat := 0
  allowedSeeks : Int := 2 ^ 30
  number : U64
  fileSize : U64 := 0
  smallest : InternalKey
  largest : InternalKey
  deriving DecidableEq

/-- `version_edit`. A new edit is as `clear` leaves it. -/
structure VersionEdit where
  comparator : Bytes := []
  logNumber : U64 := 0
  prevLogNumber : U64 := 0
  nextFileNumber : U64 := 0
  lastSequence : U64 := 0
  hasComparator : Bool := false
  hasLogNumber : Bool := false
  hasPrevLogNumber : Bool := false
  hasNextFileNumber : Bool := false
  hasLastSequence : Bool := false
  compactPointers : List (Nat × InternalKey) := []
  deletedFiles : Finset (Nat × U64) := ∅
  newFiles : List (Nat × FileMetaData) := []
  deriving DecidableEq

/-! ## Tags -/

def kComparator : U32 := 1
def kLogNumber : U32 := 2
def kNextFileNumber : U32 := 3
def kLastSequence : U32 := 4
def kCompactPointer : U32 := 5
def kDeletedFile : U32 := 6
def kNewFile : U32 := 7
def kPrevLogNumber : U32 := 9

namespace VersionEdit

/-! ## Setters -/

def setComparatorName (e : VersionEdit) (name : Bytes) : VersionEdit :=
  { e with hasComparator := true, comparator := name }

def setLogNumber (e : VersionEdit) (num : U64) : VersionEdit :=
  { e with hasLogNumber := true, logNumber := num }

def setPrevLogNumber (e : VersionEdit) (num : U64) : VersionEdit :=
  { e with hasPrevLogNumber := true, prevLogNumber := num }

def setNextFile (e : VersionEdit) (num : U64) : VersionEdit :=
  { e with hasNextFileNumber := true, nextFileNumber := num }

def setLastSequence (e : VersionEdit) (seq : U64) : VersionEdit :=
  { e with hasLastSequence := true, lastSequence := seq }

def setCompactPointer (e : VersionEdit) (level : Nat) (key : InternalKey) : VersionEdit :=
  { e with compactPointers := e.compactPointers ++ [(level, key)] }

def addFile (e : VersionEdit) (level : Nat) (file fileSize : U64) (smallest largest : InternalKey) :
    VersionEdit :=
  let f : FileMetaData :=
    { number := file, fileSize := fileSize, smallest := smallest, largest := largest }
  { e with newFiles := e.newFiles ++ [(level, f)] }

/-- A deletion: an entry of `deleted_files_`. The source declares `remove_file` for it without
a body, and `decode_from` inserts such entries. -/
def removeFile (e : VersionEdit) (level : Nat) (file : U64) : VersionEdit :=
  { e with deletedFiles := insert (level, file) e.deletedFiles }

/-! ## Encoding -/

def encodeCompactPointer (p : Nat × InternalKey) : Except Fault Bytes := do
  let key ← p.2.encode
  return putVarint32 kCompactPointer ++ putVarint32 (BitVec.ofNat 32 p.1)
    ++ putLengthPrefixedSlice key

def encodeNewFile (p : Nat × FileMetaData) : Except Fault Bytes := do
  let smallest ← p.2.smallest.encode
  let largest ← p.2.largest.encode
  return putVarint32 kNewFile ++ putVarint32 (BitVec.ofNat 32 p.1) ++ putVarint64 p.2.number
    ++ putVarint64 p.2.fileSize ++ putLengthPrefixedSlice smallest
    ++ putLengthPrefixedSlice largest

/-- The bytes of the fields that are there at most once. -/
def encodeScalars (e : VersionEdit) : Bytes :=
  (if e.hasComparator then putVarint32 kComparator ++ putLengthPrefixedSlice e.comparator else [])
    ++ (if e.hasLogNumber then putVarint32 kLogNumber ++ putVarint64 e.logNumber else [])
    ++ (if e.hasPrevLogNumber then putVarint32 kPrevLogNumber ++ putVarint64 e.prevLogNumber
      else [])
    ++ (if e.hasNextFileNumber then putVarint32 kNextFileNumber ++ putVarint64 e.nextFileNumber
      else [])
    ++ (if e.hasLastSequence then putVarint32 kLastSequence ++ putVarint64 e.lastSequence else [])

/-- `encode_to`: the bytes appended to `*dst`. -/
def encodeTo (e : VersionEdit) : Except Fault Bytes := do
  let compactPointers ← e.compactPointers.mapM encodeCompactPointer
  let newFiles ← e.newFiles.mapM encodeNewFile
  return e.encodeScalars ++ compactPointers.flatten ++ newFiles.flatten

/-! ## Decoding -/

/-- `get_internal_key` -/
def getInternalKey (input : Bytes) : Option (InternalKey × Bytes) :=
  match getLengthPrefixedSlice input with
  | some (str, input) =>
      let (nonEmpty, key) := InternalKey.decodeFrom str
      if nonEmpty then some (key, input) else none
  | none => none

/-- `get_level` -/
def getLevel (input : Bytes) : Option (Nat × Bytes) :=
  match getVarint32 input with
  | some (v, input) => if v.toNat < kNumLevels then some (v.toNat, input) else none
  | none => none

/-- The new-file entry after its tag. -/
def getNewFile (input : Bytes) : Option ((Nat × FileMetaData) × Bytes) := do
  let (level, input) ← getLevel input
  let (number, input) ← getVarint64 input
  let (fileSize, input) ← getVarint64 input
  let (smallest, input) ← getInternalKey input
  let (largest, input) ← getInternalKey input
  let f : FileMetaData :=
    { number := number, fileSize := fileSize, smallest := smallest, largest := largest }
  return ((level, f), input)

/-- The entry that is read after the tag `kCompactPointer`. -/
def getDeletedFile (input : Bytes) : Option ((Nat × U64) × Bytes) := do
  let (level, input) ← getLevel input
  let (number, input) ← getVarint64 input
  return ((level, number), input)

/-- What one field makes of the edit and the input, or the message for a failure. -/
def field {α : Type} (read : Option (α × Bytes)) (store : α → VersionEdit) (msg : String) :
    Except Bytes (VersionEdit × Bytes) :=
  match read with
  | some (a, input) => .ok (store a, input)
  | none => .error (text msg)

/-- `switch ( tag )` -/
def decodeField (e : VersionEdit) (tag : U32) (input : Bytes) :
    Except Bytes (VersionEdit × Bytes) :=
  if tag = kComparator then
    field (getLengthPrefixedSlice input) e.setComparatorName "comparator name"
  else if tag = kLogNumber then field (getVarint64 input) e.setLogNumber "log number"
  else if tag = kPrevLogNumber then
    field (getVarint64 input) e.setPrevLogNumber "previous log number"
  else if tag = kNextFileNumber then
    field (getVarint64 input) e.setNextFile "next file number"
  else if tag = kLastSequence then
    field (getVarint64 input) e.setLastSequence "last sequence number"
  else if tag = kCompactPointer then
    field (getDeletedFile input)
      (fun p => { e with deletedFiles := insert p e.deletedFiles }) "deleted file"
  else if tag = kNewFile then
    field (getNewFile input) (fun p => { e with newFiles := e.newFiles ++ [p] }) "new-file entry"
  else .error (text "unknown tag")

/-! The cases of the switch, and that a field with another tag fails. -/

section

variable (e : VersionEdit) (input : Bytes)

theorem decodeField_comparator : decodeField e kComparator input
    = field (getLengthPrefixedSlice input) e.setComparatorName "comparator name" := rfl

theorem decodeField_logNumber : decodeField e kLogNumber input
    = field (getVarint64 input) e.setLogNumber "log number" := rfl

theorem decodeField_prevLogNumber : decodeField e kPrevLogNumber input
    = field (getVarint64 input) e.setPrevLogNumber "previous log number" := rfl

theorem decodeField_nextFileNumber : decodeField e kNextFileNumber input
    = field (getVarint64 input) e.setNextFile "next file number" := rfl

theorem decodeField_lastSequence : decodeField e kLastSequence input
    = field (getVarint64 input) e.setLastSequence "last sequence number" := rfl

theorem decodeField_compactPointer : decodeField e kCompactPointer input
    = field (getDeletedFile input) (fun p => { e with deletedFiles := insert p e.deletedFiles })
        "deleted file" := rfl

theorem decodeField_newFile : decodeField e kNewFile input
    = field (getNewFile input) (fun p => { e with newFiles := e.newFiles ++ [p] })
        "new-file entry" := rfl

end

theorem decodeField_known {e : VersionEdit} {tag : U32} {input : Bytes} {st : VersionEdit × Bytes}
    (h : decodeField e tag input = .ok st) :
    tag = kComparator ∨ tag = kLogNumber ∨ tag = kPrevLogNumber ∨ tag = kNextFileNumber
      ∨ tag = kLastSequence ∨ tag = kCompactPointer ∨ tag = kNewFile := by
  by_contra hno
  simp only [not_or] at hno
  obtain ⟨h₁, h₂, h₃, h₄, h₅, h₆, h₇⟩ := hno
  rw [decodeField, if_neg h₁, if_neg h₂, if_neg h₃, if_neg h₄, if_neg h₅, if_neg h₆,
    if_neg h₇] at h
  cases h

/-- One turn of the loop of `decode_from`, and what follows the loop. -/
def decodeTurn (st : VersionEdit × Bytes) :
    Except Fault ((VersionEdit × Bytes) ⊕ (Status × VersionEdit)) :=
  match getVarint32 st.2 with
  | some (tag, input) =>
      match decodeField st.1 tag input with
      | .ok st' => .ok (.inl st')
      | .error msg => .ok (.inr (.corruption (text "version_edit") msg, st.1))
  | none =>
      if st.2.isEmpty then .ok (.inr (.ok, st.1))
      else .ok (.inr (.corruption (text "version_edit") (text "invalid tag"), st.1))

/-- `decode_from`: the status and the edit. Every further turn has taken a tag off the input. -/
def decodeFrom (src : Bytes) : Except Fault (Status × VersionEdit) :=
  Loop.run .endless decodeTurn (src.length + 1) ({}, src)

/-! ## Fields

What `encode_to` writes is a sequence of fields, and `decode_from` takes them one by one. -/

/-- A field that both `encode_to` and `decode_from` know. -/
inductive Field where
  | comparator (name : Bytes)
  | logNumber (num : U64)
  | prevLogNumber (num : U64)
  | nextFileNumber (num : U64)
  | lastSequence (seq : U64)
  | newFile (level : Nat) (f : FileMetaData)

namespace Field

def encode : Field → Bytes
  | comparator name => putVarint32 kComparator ++ putLengthPrefixedSlice name
  | logNumber num => putVarint32 kLogNumber ++ putVarint64 num
  | prevLogNumber num => putVarint32 kPrevLogNumber ++ putVarint64 num
  | nextFileNumber num => putVarint32 kNextFileNumber ++ putVarint64 num
  | lastSequence seq => putVarint32 kLastSequence ++ putVarint64 seq
  | newFile level f =>
      putVarint32 kNewFile ++ putVarint32 (BitVec.ofNat 32 level) ++ putVarint64 f.number
        ++ putVarint64 f.fileSize ++ putLengthPrefixedSlice f.smallest
        ++ putLengthPrefixedSlice f.largest

/-- What reading the field does to an edit. -/
def apply (e : VersionEdit) : Field → VersionEdit
  | comparator name => e.setComparatorName name
  | logNumber num => e.setLogNumber num
  | prevLogNumber num => e.setPrevLogNumber num
  | nextFileNumber num => e.setNextFile num
  | lastSequence seq => e.setLastSequence seq
  | newFile level f => { e with newFiles := e.newFiles ++ [(level, f)] }

end Field

/-- A key that can be written and read back. -/
def KeyOk (key : InternalKey) : Prop := key ≠ [] ∧ key.length < 2 ^ 32

/-- A new file as `add_file` makes it, at one of the levels. -/
structure NewFileOk (p : Nat × FileMetaData) : Prop where
  level : p.1 < kNumLevels
  refs : p.2.refs = 0
  allowedSeeks : p.2.allowedSeeks = 2 ^ 30
  smallest : KeyOk p.2.smallest
  largest : KeyOk p.2.largest

/-- A field that is read back as it was written. -/
def Field.Ok : Field → Prop
  | .comparator name => name.length < 2 ^ 32
  | .newFile level f => NewFileOk (level, f)
  | _ => True

theorem getInternalKey_put {key : InternalKey} (h : KeyOk key) (rest : Bytes) :
    getInternalKey (putLengthPrefixedSlice key ++ rest) = some (key, rest) := by
  rw [getInternalKey, getLengthPrefixedSlice_put h.2]
  simp [InternalKey.decodeFrom, h.1]

theorem getLevel_put {level : Nat} (h : level < kNumLevels) (rest : Bytes) :
    getLevel (putVarint32 (BitVec.ofNat 32 level) ++ rest) = some (level, rest) := by
  have hlevel : (BitVec.ofNat 32 level).toNat = level := by
    have : kNumLevels = 7 := rfl
    rw [BitVec.toNat_ofNat, Nat.mod_eq_of_lt (by omega)]
  rw [getLevel, getVarint32_putVarint32]
  simp only [hlevel, if_pos h]

theorem getNewFile_put {level : Nat} {f : FileMetaData} (h : NewFileOk (level, f)) (rest : Bytes) :
    getNewFile (putVarint32 (BitVec.ofNat 32 level) ++ (putVarint64 f.number
      ++ (putVarint64 f.fileSize ++ (putLengthPrefixedSlice f.smallest
        ++ (putLengthPrefixedSlice f.largest ++ rest))))) = some ((level, f), rest) := by
  have hf : FileMetaData.mk 0 (2 ^ 30) f.number f.fileSize f.smallest f.largest = f := by
    have hrefs := h.refs
    have hseeks := h.allowedSeeks
    cases f
    simp only at hrefs hseeks
    rw [hrefs, hseeks]
  simp only [getNewFile, getLevel_put h.level, getVarint64_putVarint64,
    getInternalKey_put h.smallest, getInternalKey_put h.largest, Option.bind_eq_bind,
    Option.bind_some, hf]
  rfl

/-- **One turn** takes one field off the input. -/
theorem decodeTurn_field {f : Field} (h : f.Ok) (e : VersionEdit) (rest : Bytes) :
    decodeTurn (e, f.encode ++ rest) = .ok (.inl (f.apply e, rest)) := by
  cases f with
  | comparator name =>
      simp only [Field.encode, List.append_assoc, decodeTurn, getVarint32_putVarint32,
        decodeField_comparator, getLengthPrefixedSlice_put h]
      rfl
  | logNumber num =>
      simp only [Field.encode, List.append_assoc, decodeTurn, getVarint32_putVarint32,
        decodeField_logNumber, getVarint64_putVarint64]
      rfl
  | prevLogNumber num =>
      simp only [Field.encode, List.append_assoc, decodeTurn, getVarint32_putVarint32,
        decodeField_prevLogNumber, getVarint64_putVarint64]
      rfl
  | nextFileNumber num =>
      simp only [Field.encode, List.append_assoc, decodeTurn, getVarint32_putVarint32,
        decodeField_nextFileNumber, getVarint64_putVarint64]
      rfl
  | lastSequence num =>
      simp only [Field.encode, List.append_assoc, decodeTurn, getVarint32_putVarint32,
        decodeField_lastSequence, getVarint64_putVarint64]
      rfl
  | newFile level f =>
      simp only [Field.encode, List.append_assoc, decodeTurn, getVarint32_putVarint32,
        decodeField_newFile, getNewFile_put h]
      rfl

/-- The loop, by induction on the fields. -/
theorem run_decodeTurn (fs : List Field) (h : ∀ f ∈ fs, f.Ok) (e : VersionEdit) (n : Nat)
    (hn : fs.length < n) :
    Loop.run .endless decodeTurn n (e, (fs.map Field.encode).flatten)
      = .ok (.ok, fs.foldl Field.apply e) := by
  induction fs generalizing e n with
  | nil =>
      obtain ⟨n, rfl⟩ : ∃ k, n = k + 1 := ⟨n - 1, by simp at hn; omega⟩
      exact Loop.run_inr _ rfl n
  | cons f fs ih =>
      obtain ⟨n, rfl⟩ : ∃ k, n = k + 1 := ⟨n - 1, by simp at hn; omega⟩
      rw [List.map_cons, List.flatten_cons,
        Loop.run_inl _ (decodeTurn_field (h f List.mem_cons_self) e _)]
      exact ih (fun g hg => h g (List.mem_cons_of_mem f hg)) _ n (by simp at hn; omega)

theorem Field.encode_length_pos (f : Field) : 0 < f.encode.length := by
  have hpos := putVarint32_length_pos
  cases f <;> simp only [Field.encode, List.length_append]
  case comparator => exact Nat.add_pos_left (hpos _) _
  case logNumber => exact Nat.add_pos_left (hpos _) _
  case prevLogNumber => exact Nat.add_pos_left (hpos _) _
  case nextFileNumber => exact Nat.add_pos_left (hpos _) _
  case lastSequence => exact Nat.add_pos_left (hpos _) _
  case newFile =>
      have := hpos kNewFile
      omega

/-- **Decoding written fields** applies them in order to an empty edit. -/
theorem decodeFrom_fields {fs : List Field} (h : ∀ f ∈ fs, f.Ok) :
    decodeFrom (fs.map Field.encode).flatten = .ok (.ok, fs.foldl Field.apply {}) := by
  apply run_decodeTurn fs h
  have hlen : ∀ gs : List Field, gs.length ≤ (gs.map Field.encode).flatten.length := by
    intro gs
    induction gs with
    | nil => exact Nat.zero_le _
    | cons f gs ih =>
        have := f.encode_length_pos
        rw [List.map_cons, List.flatten_cons, List.length_append, List.length_cons]
        omega
  have := hlen fs
  omega

/-! ## The fields of an edit -/

/-- An edit with valid files whose absent fields are as `clear` leaves them. -/
structure WellFormed (e : VersionEdit) : Prop where
  comparator : e.hasComparator = false → e.comparator = []
  comparator_length : e.comparator.length < 2 ^ 32
  logNumber : e.hasLogNumber = false → e.logNumber = 0
  prevLogNumber : e.hasPrevLogNumber = false → e.prevLogNumber = 0
  nextFileNumber : e.hasNextFileNumber = false → e.nextFileNumber = 0
  lastSequence : e.hasLastSequence = false → e.lastSequence = 0
  newFiles : ∀ p ∈ e.newFiles, NewFileOk p

/-- A field that is there when its flag is set. -/
def optional (present : Bool) (f : Field) : List Field := if present then [f] else []

@[simp] theorem mem_optional {present : Bool} {f g : Field} :
    g ∈ optional present f ↔ present = true ∧ g = f := by
  cases present <;> simp [optional]

@[simp] theorem foldl_optional (present : Bool) (f : Field) (e : VersionEdit) :
    (optional present f).foldl Field.apply e = if present then f.apply e else e := by
  cases present <;> rfl

/-- The fields that are there at most once. -/
def scalarFields (e : VersionEdit) : List Field :=
  optional e.hasComparator (.comparator e.comparator)
    ++ optional e.hasLogNumber (.logNumber e.logNumber)
    ++ optional e.hasPrevLogNumber (.prevLogNumber e.prevLogNumber)
    ++ optional e.hasNextFileNumber (.nextFileNumber e.nextFileNumber)
    ++ optional e.hasLastSequence (.lastSequence e.lastSequence)

/-- The fields that `encode_to` writes for an edit without compact pointers. -/
def fields (e : VersionEdit) : List Field :=
  e.scalarFields ++ e.newFiles.map fun p => .newFile p.1 p.2

theorem WellFormed.fields_ok {e : VersionEdit} (h : e.WellFormed) : ∀ f ∈ e.fields, f.Ok := by
  intro f hf
  simp only [fields, scalarFields, List.mem_append, List.mem_map, mem_optional] at hf
  rcases hf with ((((⟨-, rfl⟩ | ⟨-, rfl⟩) | ⟨-, rfl⟩) | ⟨-, rfl⟩) | ⟨-, rfl⟩) | ⟨p, hp, rfl⟩
  · exact h.comparator_length
  · trivial
  · trivial
  · trivial
  · trivial
  · exact h.newFiles p hp

theorem foldl_newFiles (ps : List (Nat × FileMetaData)) (e : VersionEdit) :
    (ps.map fun p => Field.newFile p.1 p.2).foldl Field.apply e
      = { e with newFiles := e.newFiles ++ ps } := by
  induction ps generalizing e with
  | nil => simp
  | cons p ps ih =>
      rw [List.map_cons, List.foldl_cons, ih]
      simp [Field.apply]

/-- The fields make up everything but the compact pointers and the deleted files. -/
theorem WellFormed.foldl_fields {e : VersionEdit} (h : e.WellFormed) :
    e.fields.foldl Field.apply {} = { e with compactPointers := [], deletedFiles := ∅ } := by
  have h₁ : (if e.hasComparator then Field.apply {} (.comparator e.comparator) else {})
      = ({ hasComparator := e.hasComparator, comparator := e.comparator } : VersionEdit) := by
    cases hb : e.hasComparator
    · simp [h.comparator hb]
    · rfl
  have h₂ : ∀ d : VersionEdit, d.hasLogNumber = false → d.logNumber = 0 →
      (if e.hasLogNumber then Field.apply d (.logNumber e.logNumber) else d)
        = { d with hasLogNumber := e.hasLogNumber, logNumber := e.logNumber } := by
    intro d hd hd'
    cases hb : e.hasLogNumber
    · rw [h.logNumber hb]
      cases d
      cases hd
      cases hd'
      rfl
    · rfl
  have h₃ : ∀ d : VersionEdit, d.hasPrevLogNumber = false → d.prevLogNumber = 0 →
      (if e.hasPrevLogNumber then Field.apply d (.prevLogNumber e.prevLogNumber) else d)
        = { d with hasPrevLogNumber := e.hasPrevLogNumber, prevLogNumber := e.prevLogNumber } := by
    intro d hd hd'
    cases hb : e.hasPrevLogNumber
    · rw [h.prevLogNumber hb]
      cases d
      cases hd
      cases hd'
      rfl
    · rfl
  have h₄ : ∀ d : VersionEdit, d.hasNextFileNumber = false → d.nextFileNumber = 0 →
      (if e.hasNextFileNumber then Field.apply d (.nextFileNumber e.nextFileNumber) else d)
        = { d with
            hasNextFileNumber := e.hasNextFileNumber
            nextFileNumber := e.nextFileNumber } := by
    intro d hd hd'
    cases hb : e.hasNextFileNumber
    · rw [h.nextFileNumber hb]
      cases d
      cases hd
      cases hd'
      rfl
    · rfl
  have h₅ : ∀ d : VersionEdit, d.hasLastSequence = false → d.lastSequence = 0 →
      (if e.hasLastSequence then Field.apply d (.lastSequence e.lastSequence) else d)
        = { d with hasLastSequence := e.hasLastSequence, lastSequence := e.lastSequence } := by
    intro d hd hd'
    cases hb : e.hasLastSequence
    · rw [h.lastSequence hb]
      cases d
      cases hd
      cases hd'
      rfl
    · rfl
  simp only [fields, scalarFields, List.foldl_append, foldl_optional, foldl_newFiles]
  rw [h₁, h₂ _ rfl rfl, h₃ _ rfl rfl, h₄ _ rfl rfl, h₅ _ rfl rfl]
  rfl

/-! ## What is read back -/

theorem encodeNewFile_eq {p : Nat × FileMetaData} (h : NewFileOk p) :
    encodeNewFile p = .ok (Field.newFile p.1 p.2).encode := by
  rw [encodeNewFile, InternalKey.encode_of_ne_nil h.smallest.1,
    InternalKey.encode_of_ne_nil h.largest.1]
  rfl

theorem encodeScalars_eq (e : VersionEdit) :
    e.encodeScalars = (e.scalarFields.map Field.encode).flatten := by
  have hoptional : ∀ (present : Bool) (f : Field),
      ((optional present f).map Field.encode).flatten = if present then f.encode else [] := by
    intro present f
    cases present <;> simp [optional]
  simp only [scalarFields, List.map_append, List.flatten_append, hoptional]
  rfl

theorem WellFormed.encodeTo_eq {e : VersionEdit} (h : e.WellFormed) (hc : e.compactPointers = []) :
    e.encodeTo = .ok (e.fields.map Field.encode).flatten := by
  have hnew : e.newFiles.mapM encodeNewFile
      = .ok (e.newFiles.map fun p => (Field.newFile p.1 p.2).encode) := by
    apply mapM_eq_ok
    intro p hp
    exact encodeNewFile_eq (h.newFiles p hp)
  rw [encodeTo, hc, hnew, List.mapM_nil, encodeScalars_eq, fields, List.map_append,
    List.flatten_append, List.map_map, pure_bind, ok_bind, List.flatten_nil, List.append_nil]
  rfl

/-- **Decoding an encoded edit** without compact pointers gives everything back but the
deleted files. -/
theorem WellFormed.decodeFrom_encodeTo {e : VersionEdit} (h : e.WellFormed)
    (hc : e.compactPointers = []) :
    ∃ bytes, e.encodeTo = .ok bytes ∧ decodeFrom bytes = .ok (.ok, { e with deletedFiles := ∅ }) := by
  refine ⟨_, h.encodeTo_eq hc, ?_⟩
  rw [decodeFrom_fields h.fields_ok, h.foldl_fields, ← hc]

/-- A field that is read is stored. -/
theorem field_ok {α : Type} {read : Option (α × Bytes)} {store : α → VersionEdit} {msg : String}
    {st : VersionEdit × Bytes} (h : field read store msg = .ok st) :
    ∃ a rest, read = some (a, rest) ∧ st.1 = store a := by
  unfold field at h
  cases read with
  | none => cases h
  | some r =>
      cases h
      exact ⟨r.1, r.2, rfl, rfl⟩

/-- What every field keeps holds of the edit that `decode_from` leaves, with every status. -/
theorem decodeFrom_invariant (Inv : VersionEdit → Prop) (hempty : Inv {})
    (hfield : ∀ e tag input st, Inv e → decodeField e tag input = .ok st → Inv st.1)
    {src : Bytes} {s : Status} {e : VersionEdit} (h : decodeFrom src = .ok (s, e)) : Inv e := by
  unfold decodeFrom at h
  refine Loop.run_of_invariant Fault.endless (fun st : VersionEdit × Bytes => Inv st.1)
    (fun r : Status × VersionEdit => Inv r.2) ?_ ?_ _ _ _ hempty h
  · intro st st' hst hturn
    unfold decodeTurn at hturn
    cases hget : getVarint32 st.2 with
    | none =>
        rw [hget] at hturn
        simp only at hturn
        split_ifs at hturn <;> cases hturn
    | some r =>
        rw [hget] at hturn
        simp only at hturn
        cases hdecode : decodeField st.1 r.1 r.2 with
        | error msg => rw [hdecode] at hturn; cases hturn
        | ok st'' =>
            rw [hdecode] at hturn
            cases hturn
            exact hfield _ _ _ _ hst hdecode
  · intro st r hst hturn
    unfold decodeTurn at hturn
    cases hget : getVarint32 st.2 with
    | none =>
        rw [hget] at hturn
        simp only at hturn
        split_ifs at hturn <;> cases hturn <;> exact hst
    | some r' =>
        rw [hget] at hturn
        simp only at hturn
        cases hdecode : decodeField st.1 r'.1 r'.2 with
        | error msg => rw [hdecode] at hturn; cases hturn; exact hst
        | ok st'' => rw [hdecode] at hturn; cases hturn

/-- **What one field can do** to the lists of the edit: no tag is read as a compact pointer, and
the fields before the files leave both lists of files alone. -/
theorem decodeField_lists {e : VersionEdit} {tag : U32} {input : Bytes} {st : VersionEdit × Bytes}
    (h : decodeField e tag input = .ok st) :
    st.1.compactPointers = e.compactPointers
      ∧ ((st.1.deletedFiles = e.deletedFiles ∧ st.1.newFiles = e.newFiles)
        ∨ (∃ p rest, getDeletedFile input = some (p, rest)
          ∧ st.1.deletedFiles = insert p e.deletedFiles ∧ st.1.newFiles = e.newFiles)
        ∨ ∃ p rest, getNewFile input = some (p, rest)
          ∧ st.1.deletedFiles = e.deletedFiles ∧ st.1.newFiles = e.newFiles ++ [p]) := by
  rcases decodeField_known h with rfl | rfl | rfl | rfl | rfl | rfl | rfl
  -- the five tags before those of files
  iterate 5
    obtain ⟨a, rest, -, hst⟩ := field_ok h
    rw [hst]
    exact ⟨rfl, .inl ⟨rfl, rfl⟩⟩
  · obtain ⟨p, rest, hread, hst⟩ := field_ok h
    rw [hst]
    exact ⟨rfl, .inr (.inl ⟨p, rest, hread, rfl, rfl⟩)⟩
  · obtain ⟨p, rest, hread, hst⟩ := field_ok h
    rw [hst]
    exact ⟨rfl, .inr (.inr ⟨p, rest, hread, rfl, rfl⟩)⟩

/-- No tag is read as a compact pointer. -/
theorem decodeFrom_compactPointers {src : Bytes} {s : Status} {e : VersionEdit}
    (h : decodeFrom src = .ok (s, e)) : e.compactPointers = [] := by
  refine decodeFrom_invariant (fun e => e.compactPointers = []) rfl ?_ h
  intro e tag input st he hfield
  rw [(decodeField_lists hfield).1]
  exact he

/-- The levels of an edit are below `config::kNumLevels`. -/
structure Levelled (e : VersionEdit) : Prop where
  deletedFiles : ∀ p ∈ e.deletedFiles, p.1 < kNumLevels
  newFiles : ∀ p ∈ e.newFiles, p.1 < kNumLevels

theorem lt_of_getLevel {input rest : Bytes} {level : Nat}
    (h : getLevel input = some (level, rest)) : level < kNumLevels := by
  unfold getLevel at h
  split at h
  · split_ifs at h with hlt
    cases h
    exact hlt
  · cases h

theorem lt_of_getDeletedFile {input rest : Bytes} {p : Nat × U64}
    (h : getDeletedFile input = some (p, rest)) : p.1 < kNumLevels := by
  obtain ⟨⟨level, input⟩, hlevel, h⟩ := Option.bind_eq_some_iff.mp h
  obtain ⟨⟨number, input⟩, -, h⟩ := Option.bind_eq_some_iff.mp h
  cases h
  exact lt_of_getLevel hlevel

theorem lt_of_getNewFile {input rest : Bytes} {p : Nat × FileMetaData}
    (h : getNewFile input = some (p, rest)) : p.1 < kNumLevels := by
  obtain ⟨⟨level, input⟩, hlevel, h⟩ := Option.bind_eq_some_iff.mp h
  -- the number, the size and the two keys
  iterate 4 obtain ⟨_, -, h⟩ := Option.bind_eq_some_iff.mp h
  cases h
  exact lt_of_getLevel hlevel

/-- `get_level` checks every level that is read. -/
theorem decodeFrom_levelled {src : Bytes} {s : Status} {e : VersionEdit}
    (h : decodeFrom src = .ok (s, e)) : e.Levelled := by
  refine decodeFrom_invariant Levelled ⟨by simp, by simp⟩ ?_ h
  intro e tag input st he hfield
  obtain ⟨hdel, hnew⟩ | ⟨p, rest, hread, hdel, hnew⟩ | ⟨p, rest, hread, hdel, hnew⟩ :=
    (decodeField_lists hfield).2
  · constructor
    · rw [hdel]
      exact he.deletedFiles
    · rw [hnew]
      exact he.newFiles
  · constructor
    · rw [hdel]
      intro q hq
      rcases Finset.mem_insert.mp hq with rfl | hq
      · exact lt_of_getDeletedFile hread
      · exact he.deletedFiles q hq
    · rw [hnew]
      exact he.newFiles
  · constructor
    · rw [hdel]
      exact he.deletedFiles
    · rw [hnew]
      intro q hq
      rcases List.mem_append.mp hq with hq | hq
      · exact he.newFiles q hq
      · rw [List.mem_singleton.mp hq]
        exact lt_of_getNewFile hread

end VersionEdit

end SimpleLeveldb
