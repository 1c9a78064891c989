import SimpleLeveldb.Version.VersionList
import SimpleLeveldb.Filename
import SimpleLeveldb.Log.Reader
import SimpleLeveldb.Log.Writer

set_option autoImplicit false

/-! # The version set (`version_set.h`, `version_set.cc`)

`logAnyApply` writes an edit to the manifest and installs a version for it; `recover` reads a
manifest back. They are modelled as the source has them: `save_to` has no body, so that a new
version has no files, and `~version` is run on a version that was never linked when
`log_any_apply` fails.
-/

namespace SimpleLeveldb

/-- The options that the version set and the recovery of a database read. -/
structure Options where
  createIfMissing : Bool := false
  errorIfExists : Bool := false
  maxFileSize : Nat := 2 * 1024 * 1024
  reuseLogs : Bool := false

/-- `version_set`; a null `descriptor_file_` or `descriptor_log_` is `none`. -/
structure VersionSet where
  dbname : Bytes
  options : Options
  icmp : InternalKeyComparator
  nextFileNumber : U64
  manifestFileNumber : U64
  lastSequence : U64
  logNumber : U64
  prevLogNumber : U64
  descriptorFile : Option Bytes
  descriptorLog : Option Log.Writer
  list : VersionList
  compactPointer : Level → Bytes

namespace VersionSet

/-- The constructor of `version_set`. -/
def new (dbname : Bytes) (options : Options) (icmp : InternalKeyComparator) :
    Except Fault VersionSet := do
  let list ← VersionList.construct
  return {
    dbname := dbname
    options := options
    icmp := icmp
    nextFileNumber := 2
    manifestFileNumber := 0
    lastSequence := 0
    logNumber := 0
    prevLogNumber := 0
    descriptorFile := none
    descriptorLog := none
    list := list
    compactPointer := fun _ => [] }

/-! ## `builder` -/

/-- `builder::level_state`. The set `added_files` is the list of its elements in the order of
`by_smallest_key`. -/
structure LevelState where
  deletedFiles : Finset U64 := ∅
  addedFiles : List FileMetaData := []

/-- `builder`, with `base_`. -/
structure Builder where
  base : VersionPtr
  levels : Level → LevelState := fun _ => {}

/-- `by_smallest_key` -/
def bySmallestKey (icmp : InternalKeyComparator) (f1 f2 : FileMetaData) : Except Fault Bool := do
  let r ← icmp.compareKeys f1.smallest f2.smallest
  if r ≠ 0 then return decide (r < 0) else return decide (f1.number < f2.number)

/-- `added_files->insert`: nothing is inserted when an equivalent file is there. -/
def insertFile (icmp : InternalKeyComparator) (f : FileMetaData) :
    List FileMetaData → Except Fault (List FileMetaData)
  | [] => return [f]
  | g :: gs => do
      if ← bySmallestKey icmp f g then return f :: g :: gs
      else if ← bySmallestKey icmp g f then return g :: (← insertFile icmp f gs)
      else return g :: gs

/-- `file->allowed_seeks`: the quotient is narrowed to `int32_t`. -/
def allowedSeeks (fileSize : U64) : Int :=
  let seeks := ((fileSize / 16384#64).setWidth 32).toInt
  if seeks < 100 then 100 else seeks

/-- `vset_->compact_pointer_[ level ] = key.encode().to_string()` -/
def applyCompactPointer (compactPointer : Level → Bytes) (p : Nat × InternalKey) :
    Except Fault (Level → Bytes) := do
  let key ← p.2.encode
  let level ← levelOf p.1
  return Function.update compactPointer level key

/-- The numbers of an entry of `deleted_files_` at a level. -/
def deletedAt (deleted : Finset (Nat × U64)) (level : Level) : Finset U64 :=
  (deleted.filter fun p => p.1 = level.val).image Prod.snd

/-- The loop over `deleted_files_`. -/
def applyDeletedFiles (levels : Level → LevelState) (deleted : Finset (Nat × U64)) :
    Except Fault (Level → LevelState) :=
  if ∀ p ∈ deleted, p.1 < kNumLevels then
    .ok fun level =>
      ⟨(levels level).deletedFiles ∪ deletedAt deleted level, (levels level).addedFiles⟩
  else .error .badAccess

/-- One turn of the loop over `new_files_`. -/
def applyNewFile (icmp : InternalKeyComparator) (levels : Level → LevelState)
    (p : Nat × FileMetaData) : Except Fault (Level → LevelState) := do
  let file := { p.2 with refs := 1, allowedSeeks := allowedSeeks p.2.fileSize }
  let level ← levelOf p.1
  let addedFiles ← insertFile icmp file (levels level).addedFiles
  return Function.update levels level
    ⟨(levels level).deletedFiles.erase file.number, addedFiles⟩

/-- `builder::apply`, with the `compact_pointer_` of `*vset_`, which it writes directly. -/
def Builder.apply (icmp : InternalKeyComparator) (compactPointer : Level → Bytes) (b : Builder)
    (edit : VersionEdit) : Except Fault ((Level → Bytes) × Builder) := do
  let compactPointer ← edit.compactPointers.foldlM applyCompactPointer compactPointer
  let levels ← applyDeletedFiles b.levels edit.deletedFiles
  let levels ← edit.newFiles.foldlM (applyNewFile icmp) levels
  return (compactPointer, { b with levels := levels })

/-- `builder::save_to` has no body. -/
def saveTo (_b : Builder) (_v : VersionPtr) (list : VersionList) : VersionList := list

/-- The constructor of `builder` takes a reference to the base version. -/
def newBuilder (list : VersionList) : Except Fault (Builder × VersionList) := do
  let base ← deref list.current
  return ({ base := base }, ← list.ref base)

/-- `~builder` gives it back. The files in `added_files` belong to the builder alone. -/
def deleteBuilder (b : Builder) (list : VersionList) : Except Fault VersionList := list.unRef b.base

/-! ## `finalize` -/

/-- `max_bytes_for_level` -/
def maxBytesForLevel (level : Nat) : ℚ := 10 * 1048576 * 10 ^ (level - 1)

/-- `total_file_size`, converted to `uint64_t`. -/
def totalFileSize (list : VersionList) (files : List FilePtr) : Except Fault U64 := do
  let sizes ← files.mapM fun f => do return (← list.readFile f).fileSize
  return sizes.sum

/-- The score of a level. -/
def levelScore (list : VersionList) (v : Version) (level : Level) : Except Fault ℚ :=
  if level.val = 0 then
    .ok (((v.files level).length : ℚ) / (kL0CompactionTrigger : ℚ))
  else do
    let bytes ← totalFileSize list (v.files level)
    return (bytes.toNat : ℚ) / maxBytesForLevel level.val

/-- One turn of the loop of `finalize`. The best score is compared with at levels above 0 only. -/
def finalizeTurn (list : VersionList) (v : Version) (best : Int × ℚ) (level : Level) :
    Except Fault (Int × ℚ) := do
  let score ← levelScore list v level
  if level.val ≠ 0 ∧ score > best.2 then return (level.val, score) else return best

/-- `finalize`, over the levels below the last. -/
def finalize (list : VersionList) (p : VersionPtr) : Except Fault VersionList := do
  let v ← list.readVersion p
  let levels := (List.finRange kNumLevels).filter fun level => level.val < kNumLevels - 1
  let (bestLevel, bestScore) ← levels.foldlM (finalizeTurn list v) (-1, -1)
  list.modifyVersion p fun v =>
    { v with compactionLevel := bestLevel, compactionScore := bestScore }

/-- `needs_compaction` -/
def needsCompaction (vs : VersionSet) : Except Fault Bool := do
  let v ← vs.list.readVersion (← deref vs.list.current)
  return decide (v.compactionScore ≥ 1) || v.fileToCompact.isSome

/-! ## Numbers -/

/-- `new_file_number` -/
def newFileNumber (vs : VersionSet) : U64 × VersionSet :=
  (vs.nextFileNumber, { vs with nextFileNumber := vs.nextFileNumber + 1 })

/-- `set_last_sequence` -/
def setLastSequence (vs : VersionSet) (s : U64) : Except Fault VersionSet := do
  require (vs.lastSequence ≤ s)
  return { vs with lastSequence := s }

/-- `mark_file_number_used` -/
def markFileNumberUsed (vs : VersionSet) (number : U64) : VersionSet :=
  if vs.nextFileNumber ≤ number then { vs with nextFileNumber := number + 1 } else vs

/-! ## `write_snap_shot` -/

/-- The loop over `compact_pointer_`. -/
def snapShotCompactPointer (vs : VersionSet) (edit : VersionEdit) (level : Level) : VersionEdit :=
  let cp := vs.compactPointer level
  if cp.isEmpty then edit else edit.setCompactPointer level.val (InternalKey.decodeFrom cp).2

/-- The loop over the files of a level of the current version. -/
def snapShotLevel (list : VersionList) (v : Version) (edit : VersionEdit) (level : Level) :
    Except Fault VersionEdit :=
  (v.files level).foldlM (fun edit f => do
    let m ← list.readFile f
    return edit.addFile level.val m.number m.fileSize m.smallest m.largest) edit

/-- The edit that `write_snap_shot` writes. -/
def snapShot (vs : VersionSet) : Except Fault VersionEdit := do
  let edit := ({} : VersionEdit).setComparatorName vs.icmp.userComparator.name
  let edit := (List.finRange kNumLevels).foldl vs.snapShotCompactPointer edit
  let v ← vs.list.readVersion (← deref vs.list.current)
  (List.finRange kNumLevels).foldlM (snapShotLevel vs.list v) edit

/-- `write_snap_shot` -/
def writeSnapShot (vs : VersionSet) (log : Log.Writer) (env : Env) :
    Except Fault (Status × Log.Writer × Env) := do
  let record ← (← vs.snapShot).encodeTo
  log.addRecord record env

/-! ## `log_any_apply` -/

/-- The fields of the edit that `log_any_apply` fills in. -/
def completeEdit (vs : VersionSet) (edit : VersionEdit) : Except Fault VersionEdit := do
  if edit.hasLogNumber then
    require (vs.logNumber < edit.logNumber)
    require (edit.logNumber < vs.nextFileNumber)
  let edit := if edit.hasLogNumber then edit else edit.setLogNumber vs.logNumber
  let edit := if edit.hasPrevLogNumber then edit else edit.setPrevLogNumber vs.prevLogNumber
  return (edit.setNextFile vs.nextFileNumber).setLastSequence vs.lastSequence

/-- The new version for an edit: the builder is made, applied, saved and destroyed. -/
def buildVersion (vs : VersionSet) (edit : VersionEdit) :
    Except Fault (VersionPtr × VersionSet) := do
  let (v, list) := vs.list.newVersion
  let (b, list) ← newBuilder list
  let (compactPointer, b) ← b.apply vs.icmp vs.compactPointer edit
  let list ← deleteBuilder b (saveTo b v list)
  let list ← finalize list v
  return (v, { vs with list := list, compactPointer := compactPointer })

/-- The manifest is created when there is none: its name is returned, and the empty string
otherwise. `uninit` is what the last entry of the writer's `type_crc_` happens to be. -/
def openManifest (vs : VersionSet) (uninit : U32) (env : Env) :
    Except Fault (Status × Bytes × VersionSet × Env) :=
  match vs.descriptorLog with
  | some _ => .ok (.ok, [], vs, env)
  | none => do
      require (vs.descriptorFile = none)
      let newManifestFile ← descriptorFileName vs.dbname vs.manifestFileNumber
      let (s, env) := env.newWritableFile newManifestFile
      if s.isOk then
        let vs := { vs with descriptorFile := some newManifestFile }
        let (s, log, env) ← vs.writeSnapShot (Log.Writer.new newManifestFile uninit) env
        return (s, newManifestFile, { vs with descriptorLog := some log }, env)
      else return (s, newManifestFile, vs, env)

/-- The record of the edit is appended to the manifest and synced. -/
def appendEdit (vs : VersionSet) (edit : VersionEdit) (env : Env) :
    Except Fault (Status × VersionSet × Env) := do
  let record ← edit.encodeTo
  let log ← deref vs.descriptorLog
  let (s, log, env) ← log.addRecord record env
  let vs := { vs with descriptorLog := some log }
  if s.isOk then
    let file ← deref vs.descriptorFile
    let (s, env) := env.sync file
    return (s, vs, env)
  else return (s, vs, env)

/-- `CURRENT` is switched to a manifest that has been created. -/
def switchCurrent (vs : VersionSet) (newManifestFile : Bytes) (env : Env) :
    Except Fault (Status × Env) :=
  if newManifestFile.isEmpty then .ok (.ok, env)
  else setCurrentFile vs.dbname vs.manifestFileNumber env

/-- The writes of `log_any_apply`, each made only when the ones before succeeded. -/
def writeEdit (vs : VersionSet) (edit : VersionEdit) (uninit : U32) (env : Env) :
    Except Fault (Status × Bytes × VersionSet × Env) := do
  let (s, newManifestFile, vs, env) ← vs.openManifest uninit env
  if !s.isOk then return (s, newManifestFile, vs, env)
  let (s, vs, env) ← vs.appendEdit edit env
  if !s.isOk then return (s, newManifestFile, vs, env)
  let (s, env) ← vs.switchCurrent newManifestFile env
  return (s, newManifestFile, vs, env)

/-- The end of `log_any_apply` with a status that is not OK. -/
def discardVersion (vs : VersionSet) (v : VersionPtr) (newManifestFile : Bytes) (env : Env) :
    Except Fault (VersionSet × Env) := do
  let list ← vs.list.deleteVersion v
  if newManifestFile.isEmpty then return ({ vs with list := list }, env)
  else
    return ({ vs with list := list, descriptorLog := none, descriptorFile := none },
      (env.removeFile newManifestFile).2)

/-- The end of `log_any_apply` with status OK. -/
def installVersion (vs : VersionSet) (v : VersionPtr) (edit : VersionEdit) :
    Except Fault VersionSet := do
  let list ← vs.list.appendVersion v
  return { vs with
    list := list
    logNumber := edit.logNumber
    prevLogNumber := edit.prevLogNumber }

/-- `log_any_apply`: the status, the edit as it is left, the version set and the environment. -/
def logAnyApply (vs : VersionSet) (edit : VersionEdit) (uninit : U32) (env : Env) :
    Except Fault (Status × VersionEdit × VersionSet × Env) := do
  let edit ← vs.completeEdit edit
  let (v, vs) ← vs.buildVersion edit
  let (s, newManifestFile, vs, env) ← vs.writeEdit edit uninit env
  if s.isOk then
    return (s, edit, ← vs.installVersion v edit, env)
  else
    let (vs, env) ← vs.discardVersion v newManifestFile env
    return (s, edit, vs, env)

/-! ## `recover` -/

/-- The variables of the loop of `recover`. -/
structure RecoverState where
  reader : Log.Reader
  s : Status
  vs : VersionSet
  b : Builder
  haveLogNumber : Bool := false
  havePrevLogNumber : Bool := false
  haveNextFile : Bool := false
  haveLastSequence : Bool := false
  nextFile : U64 := 0
  lastSequence : U64 := 0
  logNumber : U64 := 0
  prevLogNumber : U64 := 0

/-- `log_reporter`: the first report becomes the status. -/
def RecoverState.report (st : RecoverState) : RecoverState :=
  match st.reader.reporter with
  | some ((_, reason) :: _) => if st.s.isOk then { st with s := reason } else st
  | _ => st

/-- The numbers of an edit that has been read. -/
def RecoverState.fold (st : RecoverState) (edit : VersionEdit) : RecoverState :=
  let st := if edit.hasLogNumber then
    { st with logNumber := edit.logNumber, haveLogNumber := true } else st
  let st := if edit.hasPrevLogNumber then
    { st with prevLogNumber := edit.prevLogNumber, havePrevLogNumber := true } else st
  let st := if edit.hasNextFileNumber then
    { st with nextFile := edit.nextFileNumber, haveNextFile := true } else st
  if edit.hasLastSequence then
    { st with lastSequence := edit.lastSequence, haveLastSequence := true } else st

/-- An edit of the manifest is applied, as long as nothing went wrong. -/
def RecoverState.applyEdit (st : RecoverState) (s : Status) (edit : VersionEdit) :
    Except Fault ((Level → Bytes) × Builder) :=
  if s.isOk then st.b.apply st.vs.icmp st.vs.compactPointer edit
  else .ok (st.vs.compactPointer, st.b)

/-- What is done with a record of the manifest. -/
def recoverRecord (st : RecoverState) (record : Bytes) : Except Fault RecoverState := do
  let (s, edit) ← VersionEdit.decodeFrom record
  let name := st.vs.icmp.userComparator.name
  let s :=
    if s.isOk ∧ edit.hasComparator ∧ edit.comparator ≠ name then
      .invalidArgument (edit.comparator ++ text " dose not match exsisting comparator ") name
    else s
  let (compactPointer, b) ← st.applyEdit s edit
  let vs := { st.vs with compactPointer := compactPointer }
  return RecoverState.fold { st with s := s, vs := vs, b := b } edit

/-- One turn of the loop of `recover`. -/
def recoverTurn (st : RecoverState) : Except Fault (RecoverState ⊕ RecoverState) := do
  let (more, record, reader) ← st.reader.readRecord
  let st := RecoverState.report { st with reader := reader }
  if more ∧ st.s.isOk then return .inl (← recoverRecord st record) else return .inr st

/-- The status after the loop: every number must have been seen. -/
def RecoverState.check (st : RecoverState) : Status :=
  if st.s.isOk then
    if !st.haveNextFile then .corruption (text "no meta-nextfile entry in descriptor")
    else if !st.haveLogNumber then .corruption (text "no meta-lognumber entry in descriptor")
    else if !st.haveLastSequence then
      .corruption (text "no last-sequence-number entry in descriptor")
    else st.s
  else st.s

/-- `reuse_manifest` -/
def reuseManifest (vs : VersionSet) (dscname dscbase : Bytes) (uninit : U32) (env : Env) :
    Except Fault (Bool × VersionSet × Env) :=
  if !vs.options.reuseLogs then .ok (false, vs, env)
  else
    match parseFileName dscbase with
    | some (manifestNumber, .kDescriptorFile) => do
        let (s, manifestSize, env) := env.getFileSize dscname
        if !s.isOk ∨ vs.options.maxFileSize ≤ manifestSize then return (false, vs, env)
        require (vs.descriptorFile = none)
        require (vs.descriptorLog = none)
        let (r, env) := env.newAppendableFile dscname
        if !r.isOk then
          -- the assertion after a failed open asks for a file that is not there
          require (vs.descriptorFile ≠ none)
          return (false, vs, env)
        return (true, { vs with
          descriptorFile := some dscname
          descriptorLog := some (Log.Writer.newAt dscname manifestSize uninit)
          manifestFileNumber := manifestNumber }, env)
    | _ => .ok (false, vs, env)

/-- The end of `recover` when everything has been read: a version is installed, and the
numbers are set. -/
def installRecovered (vs : VersionSet) (st : RecoverState) (prevLogNumber : U64)
    (dscname current : Bytes) (saveManifest : Bool) (uninit : U32) (env : Env) :
    Except Fault (Bool × VersionSet × Env) := do
  let (v, list) := vs.list.newVersion
  let list ← finalize (saveTo st.b v list) v
  let list ← list.appendVersion v
  let vs := { vs with
    list := list
    manifestFileNumber := st.nextFile
    nextFileNumber := st.nextFile + 1
    lastSequence := st.lastSequence
    logNumber := st.logNumber
    prevLogNumber := prevLogNumber }
  let (reused, vs, env) ← vs.reuseManifest dscname current uninit env
  return (if reused then saveManifest else true, vs, env)

/-- The end of `recover`: with an error nothing is installed. -/
def finishRecover (vs : VersionSet) (st : RecoverState) (s : Status) (prevLogNumber : U64)
    (dscname current : Bytes) (saveManifest : Bool) (uninit : U32) (env : Env) :
    Except Fault (Bool × VersionSet × Env) :=
  if s.isOk then vs.installRecovered st prevLogNumber dscname current saveManifest uninit env
  else .ok (saveManifest, vs, env)

/-- `recover` after the manifest has been opened. -/
def recoverFrom (vs : VersionSet) (file : SequentialFile) (dscname current : Bytes)
    (saveManifest : Bool) (uninit : U32) (env : Env) :
    Except Fault (Status × Bool × VersionSet × Env) := do
  let (b, list) ← newBuilder vs.list
  let reader := Log.Reader.new file (some []) true 0
  let st : RecoverState := { reader := reader, s := .ok, vs := { vs with list := list }, b := b }
  let st ← Loop.run .endless recoverTurn (reader.unread + 1) st
  let s := st.check
  let prevLogNumber := if st.havePrevLogNumber then st.prevLogNumber else 0
  let vs := (st.vs.markFileNumberUsed prevLogNumber).markFileNumberUsed st.logNumber
  let (saveManifest, vs, env) ←
    vs.finishRecover st s prevLogNumber dscname current saveManifest uninit env
  let list ← deleteBuilder st.b vs.list
  return (s, saveManifest, { vs with list := list }, env)

/-- `recover`: the status, `*save_manifest`, the version set and the environment. -/
def recover (vs : VersionSet) (saveManifest : Bool) (uninit : U32) (env : Env) :
    Except Fault (Status × Bool × VersionSet × Env) := do
  let (s, current, env) ← env.readFileToString (currentFileName vs.dbname)
  if !s.isOk then return (s, saveManifest, vs, env)
  if current.getLast? ≠ some 10#8 then
    return (.corruption (text "CURRENT file does not end with newline"), saveManifest, vs, env)
  let current := current.dropLast
  let dscname := vs.dbname ++ text "/" ++ current
  let (s, file, env) := env.newSequentialFile dscname
  if !s.isOk then
    if s.isNotFound then
      return (.corruption (text "CURRENT points to a non-existent file") s.toText, saveManifest, vs,
        env)
    return (s, saveManifest, vs, env)
  vs.recoverFrom file dscname current saveManifest uninit env

/-- `add_live_files`: the numbers inserted into `*live`. -/
def addLiveFiles (vs : VersionSet) : Except Fault (List U64) := vs.list.addLiveFiles

end VersionSet

end SimpleLeveldb
