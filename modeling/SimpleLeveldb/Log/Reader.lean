import SimpleLeveldb.Log.Format
import SimpleLeveldb.Env

set_option autoImplicit false

/-! # The log reader (`log_reader.h`, `log_reader.cc`)

`Reader.readPhysicalRecord` takes the next physical record out of the buffered block, refilling
the buffer from the file; `Reader.readRecord` puts the fragments of a record together. The
calls of `reporter_->corruption` are collected in the reader.
-/

namespace SimpleLeveldb.Log

/-- What a physical record may be instead of a record type. -/
def kEof : U32 := BitVec.ofNat 32 (kMaxRecordType + 1)
def kBadRecord : U32 := BitVec.ofNat 32 (kMaxRecordType + 2)

/-- `log::reader`. `buffer` is the part of the block in `backing_store_` that `buffer_` still
covers; `reporter` is `none` for a null `reporter_`, else the calls made so far. -/
structure Reader where
  file : SequentialFile
  reporter : Option (List (Nat × Status))
  checksum : Bool
  buffer : Bytes
  eof : Bool
  lastRecordOffset : U64
  endOfBufferOffset : U64
  initialOffset : U64
  resyncing : Bool

namespace Reader

def new (file : SequentialFile) (reporter : Option (List (Nat × Status))) (checksum : Bool)
    (initialOffset : U64) : Reader where
  file := file
  reporter := reporter
  checksum := checksum
  buffer := []
  eof := false
  lastRecordOffset := 0
  endOfBufferOffset := 0
  initialOffset := initialOffset
  resyncing := decide (0 < initialOffset)

def reportDrop (rd : Reader) (bytes : Nat) (reason : Status) : Reader :=
  match rd.reporter with
  | none => rd
  | some calls =>
      if rd.endOfBufferOffset - BitVec.ofNat 64 rd.buffer.length - BitVec.ofNat 64 bytes
          ≥ rd.initialOffset then
        { rd with reporter := some (calls ++ [(bytes, reason)]) }
      else rd

def reportCorruption (rd : Reader) (bytes : Nat) (reason : Bytes) : Reader :=
  rd.reportDrop bytes (.corruption reason)

/-- `char` to `uint32_t`: the sign is extended. -/
def charToU32 (c : Byte) : U32 := c.signExtend 32

/-- One turn of the loop of `read_physical_record`; `result` is the old value of `*result`. -/
def readPhysicalRecordTurn (result : Bytes) (rd : Reader) :
    Except Fault (Reader ⊕ (U32 × Bytes × Reader)) :=
  if rd.buffer.length < kHeaderSize then
    if !rd.eof then
      let (s, buffer, file) := rd.file.read kBlockSize
      let rd := { rd with
        file := file
        buffer := buffer
        endOfBufferOffset := rd.endOfBufferOffset + BitVec.ofNat 64 buffer.length }
      if !s.isOk then
        let rd := { rd with buffer := [] }.reportDrop kBlockSize s
        .ok (.inr (kEof, result, { rd with eof := true }))
      else if rd.buffer.length < kBlockSize then .ok (.inl { rd with eof := true })
      else .ok (.inl rd)
    else .ok (.inr (kEof, result, { rd with buffer := [] }))
  else
    let header := rd.buffer
    let a := charToU32 (header.getD 4 0#8) &&& 0xff#32
    let b := charToU32 (header.getD 5 0#8) &&& 0xff#32
    let type := charToU32 (header.getD 6 0#8)
    let length := (a ||| (b <<< 8)).toNat
    if rd.buffer.length < kHeaderSize + length then
      let dropSize := rd.buffer.length
      let rd := { rd with buffer := [] }
      if !rd.eof then
        .ok (.inr (kBadRecord, result, rd.reportCorruption dropSize (text "bad record length")))
      else .ok (.inr (kEof, result, rd))
    else if type.toNat = RecordType.kZeroType.toNat ∧ length = 0 then
      .ok (.inr (kBadRecord, result, { rd with buffer := [] }))
    else if rd.checksum ∧ Crc32c.value ((header.drop 6).take (1 + length))
        ≠ Crc32c.unmask (decodeFixed32 header) then
      let dropSize := rd.buffer.length
      let rd := { rd with buffer := [] }
      .ok (.inr (kBadRecord, result, rd.reportCorruption dropSize (text "checksum mismatch")))
    else
      let rd := { rd with buffer := rd.buffer.drop (kHeaderSize + length) }
      if rd.endOfBufferOffset - BitVec.ofNat 64 rd.buffer.length - BitVec.ofNat 64 kHeaderSize
          - BitVec.ofNat 64 length < rd.initialOffset then
        .ok (.inr (kBadRecord, [], rd))
      else .ok (.inr (type, (header.drop kHeaderSize).take length, rd))

/-- `read_physical_record`. The loop goes round again only after a refill. -/
def readPhysicalRecord (result : Bytes) (rd : Reader) : Except Fault (U32 × Bytes × Reader) :=
  Loop.run .endless (readPhysicalRecordTurn result) 3 rd

/-- The variables of the loop of `read_record`. -/
structure ReadState where
  rd : Reader
  scratch : Bytes
  inFragmentedRecord : Bool
  prospectiveRecordOffset : U64
  fragment : Bytes

/-- `resyncing_` after a physical record, and whether the loop goes on at once. -/
def resync (rd : Reader) (recordType : U32) : Reader × Bool :=
  if rd.resyncing then
    if recordType.toNat = RecordType.kMiddleType.toNat then (rd, true)
    else if recordType.toNat = RecordType.kLastType.toNat then
      ({ rd with resyncing := false }, true)
    else ({ rd with resyncing := false }, false)
  else (rd, false)

/-- The report of a record that a new one cuts off. -/
def reportPartial (st : ReadState) (reason : Bytes) : Reader :=
  if st.inFragmentedRecord then
    if !st.scratch.isEmpty then st.rd.reportCorruption st.scratch.length reason else st.rd
  else st.rd

/-- `switch ( record_type )`; `true` with the record leaves the loop, and so does `false`. -/
def dispatch (st : ReadState) (recordType : U32) (physicalRecordOffset : U64) :
    ReadState ⊕ (Bool × Bytes × Reader) :=
  if recordType = BitVec.ofNat 32 RecordType.kFullType.toNat then
    let rd := reportPartial st (text "partial record without end(1)")
    .inr (true, st.fragment, { rd with lastRecordOffset := physicalRecordOffset })
  else if recordType = BitVec.ofNat 32 RecordType.kFirstType.toNat then
    .inl { st with
      rd := reportPartial st (text "partial record without end(2)")
      prospectiveRecordOffset := physicalRecordOffset
      scratch := st.fragment
      inFragmentedRecord := true }
  else if recordType = BitVec.ofNat 32 RecordType.kMiddleType.toNat then
    if !st.inFragmentedRecord then
      .inl { st with
        rd := st.rd.reportCorruption st.fragment.length
          (text "missing start of fragmented record(1)") }
    else .inl { st with scratch := st.scratch ++ st.fragment }
  else if recordType = BitVec.ofNat 32 RecordType.kLastType.toNat then
    if !st.inFragmentedRecord then
      .inl { st with
        rd := st.rd.reportCorruption st.fragment.length
          (text "missing start of fragmented record(2)") }
    else
      .inr (true, st.scratch ++ st.fragment,
        { st.rd with lastRecordOffset := st.prospectiveRecordOffset })
  else if recordType = kEof then .inr (false, [], st.rd)
  else if recordType = kBadRecord then
    if st.inFragmentedRecord then
      .inl { st with
        rd := st.rd.reportCorruption st.scratch.length (text "error in middle of record")
        inFragmentedRecord := false
        scratch := [] }
    else .inl st
  else
    .inl { st with
      rd := st.rd.reportCorruption
        (st.fragment.length + (if st.inFragmentedRecord then st.scratch.length else 0))
        (text "unknown record type " ++ decimal recordType.toNat)
      inFragmentedRecord := false
      scratch := [] }

/-- One turn of the loop of `read_record`. -/
def readRecordTurn (st : ReadState) : Except Fault (ReadState ⊕ (Bool × Bytes × Reader)) := do
  let (recordType, fragment, rd) ← st.rd.readPhysicalRecord st.fragment
  let physicalRecordOffset := rd.endOfBufferOffset - BitVec.ofNat 64 rd.buffer.length
    - BitVec.ofNat 64 kHeaderSize - BitVec.ofNat 64 fragment.length
  let (rd, again) := rd.resync recordType
  let st := { st with rd := rd, fragment := fragment }
  if again then return .inl st
  return dispatch st recordType physicalRecordOffset

/-- `skip_to_initial_block` -/
def skipToInitialBlock (rd : Reader) : Bool × Reader :=
  let offsetInBlock := rd.initialOffset % BitVec.ofNat 64 kBlockSize
  let blockStartLocation := rd.initialOffset - offsetInBlock
  let blockStartLocation :=
    if offsetInBlock > BitVec.ofNat 64 (kBlockSize - 6) then
      blockStartLocation + BitVec.ofNat 64 kBlockSize
    else blockStartLocation
  let rd := { rd with endOfBufferOffset := blockStartLocation }
  if blockStartLocation > 0 then
    let (skipStatus, file) := rd.file.skip blockStartLocation.toNat
    let rd := { rd with file := file }
    if !skipStatus.isOk then (false, rd.reportDrop blockStartLocation.toNat skipStatus)
    else (true, rd)
  else (true, rd)

/-- What is left to read, in the buffer and in the file. -/
def unread (rd : Reader) : Nat := rd.buffer.length + rd.file.rest.length

/-- The loop of `read_record`. Every turn but the last takes bytes away from what is left to
read. -/
def readRecordLoop (rd : Reader) : Except Fault (Bool × Bytes × Reader) :=
  Loop.run .endless readRecordTurn (rd.unread + 1)
    { rd := rd, scratch := [], inFragmentedRecord := false, prospectiveRecordOffset := 0,
      fragment := [] }

/-- `read_record`: whether there is a record, and the record. -/
def readRecord (rd : Reader) : Except Fault (Bool × Bytes × Reader) :=
  if rd.lastRecordOffset < rd.initialOffset then
    let (skipped, rd) := rd.skipToInitialBlock
    if skipped then .ok (false, [], rd) else readRecordLoop rd
  else readRecordLoop rd

/-- `while ( reader.read_record( &record, &scratch ) )`: one turn, with the records so far. -/
def readAllTurn (st : List Bytes × Reader) :
    Except Fault ((List Bytes × Reader) ⊕ (List Bytes × Reader)) := do
  let (more, record, rd) ← st.2.readRecord
  if more then return .inl (st.1 ++ [record], rd)
  return .inr (st.1, rd)

/-- All records up to the first `false`. -/
def readAll (rd : Reader) : Except Fault (List Bytes × Reader) :=
  Loop.run .endless readAllTurn (rd.unread + 1) ([], rd)

end Reader

end SimpleLeveldb.Log
