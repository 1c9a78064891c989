import SimpleLeveldb.DbImpl
import SimpleLeveldb.Lib.Prog

set_option autoImplicit false

/-! # The functions of the source, operation by operation

The functions that create, extend and read a manifest, as programs over the environment: a
program goes through the environments behind each of its operations, also when it ends with a
fault. Every program here has the outcome of the function that it is the program of
(`outcome_newDb`, `outcome_logAnyApply`, `outcome_recover` and those of the parts).
-/

namespace SimpleLeveldb.Steps

open Prog (op lift outcome_bind outcome_ret outcome_op outcome_lift)

/-! ## Outcomes of parts -/

theorem map_bind {α β γ : Type} {x : Except Fault α} {f : α → Except Fault β} {g : β → γ} :
    (x >>= f).map g = x >>= fun a => (f a).map g := by
  cases x <;> rfl

theorem bind_map {α β γ : Type} {x : Except Fault α} {g : α → β} {f : β → Except Fault γ} :
    (x.map g >>= f) = x >>= fun a => f (g a) := by
  cases x <;> rfl

/-! ## Statuses -/

/-- `if ( s.is_ok() ) { s = next; }` -/
def onOk (s : Status) (next : Prog Fault Env Status) : Prog Fault Env Status :=
  if s.isOk then next else return s

theorem outcome_onOk (s : Status) (env : Env) {next : Env → Status × Env} :
    (onOk s (op next)).outcome env = .ok (Env.andThen (s, env) next) := by
  unfold onOk Env.andThen
  split_ifs <;> rfl

/-- `if ( !s.is_ok() ) { env->remove_file( fname ); }` -/
def orRemove (s : Status) (fname : Bytes) : Prog Fault Env Status :=
  if s.isOk then return s
  else do
    let _ ← op (Env.removeFile fname)
    return s

theorem outcome_orRemove (s : Status) (fname : Bytes) (env : Env) :
    (orRemove s fname).outcome env
      = .ok (if s.isOk then (s, env) else (s, (env.removeFile fname).2)) := by
  unfold orRemove
  split_ifs <;> rfl

/-! ## Writing a record -/

/-- `emit_physical_record` -/
def emitPhysicalRecord (w : Log.Writer) (type : Log.RecordType) (ptr : Bytes) :
    Prog Fault Env (Status × Log.Writer) := do
  lift (require (ptr.length ≤ 0xffff))
  lift (require (w.blockOffset + Log.kHeaderSize + ptr.length ≤ Log.kBlockSize))
  let crc := Crc32c.extend (w.typeCrc.getD type.toNat 0#32) ptr
  let s ← op (Env.append w.dest (Log.header type crc ptr.length))
  let s ← onOk s (op (Env.append w.dest ptr))
  let s ← onOk s (op (Env.flush w.dest))
  return (s, { w with blockOffset := w.blockOffset + (Log.kHeaderSize + ptr.length) })

theorem outcome_emitPhysicalRecord (w : Log.Writer) (type : Log.RecordType) (ptr : Bytes)
    (env : Env) :
    (emitPhysicalRecord w type ptr).outcome env
      = (w.emitPhysicalRecord type ptr env).map fun r => ((r.1, r.2.1), r.2.2) := by
  rw [emitPhysicalRecord, Log.Writer.emitPhysicalRecord]
  by_cases h₁ : ptr.length ≤ 0xffff
  · by_cases h₂ : w.blockOffset + Log.kHeaderSize + ptr.length ≤ Log.kBlockSize
    · simp only [outcome_bind, outcome_lift, outcome_op, outcome_ret, outcome_onOk, require_of h₁,
        require_of h₂, Except.map, ok_bind]
      rfl
    · simp only [outcome_bind, outcome_lift, require_of h₁, require_of_not h₂, Except.map, ok_bind,
        error_bind]
  · simp only [outcome_bind, outcome_lift, require_of_not h₁, Except.map, error_bind]

/-- The start of a new block. -/
def switchBlock (w : Log.Writer) : Prog Fault Env Log.Writer :=
  let leftOver := Log.kBlockSize - w.blockOffset
  if leftOver < Log.kHeaderSize then do
    if 0 < leftOver then
      let _ ← op (Env.append w.dest ((zeros 6).take leftOver))
    return { w with blockOffset := 0 }
  else return w

theorem outcome_switchBlock (w : Log.Writer) (env : Env) :
    (switchBlock w).outcome env = .ok (w.switchBlock env) := by
  unfold switchBlock Log.Writer.switchBlock
  simp only
  split_ifs
  · simp only [outcome_bind, outcome_op, outcome_ret, ok_bind]
  · rfl
  · rfl

/-- One turn of the loop of `add_record`, with `begin` and `ptr`. -/
def addRecordTurn (st : Bool × Bytes × Log.Writer) :
    Prog Fault Env ((Bool × Bytes × Log.Writer) ⊕ (Status × Log.Writer)) := do
  let (atBegin, ptr, w) := st
  lift (require (w.blockOffset ≤ Log.kBlockSize))
  let w ← switchBlock w
  lift (require (w.blockOffset + Log.kHeaderSize ≤ Log.kBlockSize))
  let avail := Log.kBlockSize - w.blockOffset - Log.kHeaderSize
  let left := ptr.length
  let fragmentLength := if left < avail then left else avail
  let type := Log.Writer.fragmentType atBegin (left = fragmentLength)
  let (s, w) ← emitPhysicalRecord w type (ptr.take fragmentLength)
  let ptr := ptr.drop fragmentLength
  if s.isOk && 0 < ptr.length then return .inl (false, ptr, w)
  return .inr (s, w)

/-- `add_record` -/
def addRecord (w : Log.Writer) (sle : Bytes) : Prog Fault Env (Status × Log.Writer) :=
  Prog.loop .endless addRecordTurn (sle.length + 2) (true, sle, w)

theorem outcome_addRecordTurn (b : Bool) (ptr : Bytes) (w : Log.Writer) (env : Env) :
    (addRecordTurn (b, ptr, w)).outcome env
      = (Log.Writer.addRecordTurn ⟨b, ptr, w, env⟩).map fun r => match r with
        | .inl st => (.inl (st.atBegin, st.ptr, st.w), st.env)
        | .inr r => (.inr (r.1, r.2.1), r.2.2) := by
  rw [addRecordTurn, Log.Writer.addRecordTurn]
  simp only [outcome_bind, outcome_lift, outcome_switchBlock, outcome_emitPhysicalRecord, map_bind,
    bind_map, ok_bind]
  refine bind_congr fun _ => bind_congr fun _ => bind_congr fun r => ?_
  split_ifs <;> rfl

theorem outcome_addRecord (w : Log.Writer) (sle : Bytes) (env : Env) :
    (addRecord w sle).outcome env
      = (w.addRecord sle env).map fun r => ((r.1, r.2.1), r.2.2) := by
  have hrun : ∀ (n : Nat) (b : Bool) (ptr : Bytes) (w : Log.Writer) (env : Env),
      (Prog.loop .endless addRecordTurn n (b, ptr, w)).outcome env
        = (Loop.run .endless Log.Writer.addRecordTurn n ⟨b, ptr, w, env⟩).map
            fun r => ((r.1, r.2.1), r.2.2) := by
    intro n
    induction n with
    | zero => exact fun _ _ _ _ => rfl
    | succ n ih =>
        intro b ptr w env
        rw [Prog.loop, outcome_bind, outcome_addRecordTurn, Loop.run]
        cases Log.Writer.addRecordTurn ⟨b, ptr, w, env⟩ with
        | error e => rfl
        | ok r =>
            cases r with
            | inl st => exact ih _ _ _ _
            | inr r => rfl
  exact hrun _ _ _ _ _

/-! ## `CURRENT` -/

/-- `write_string_to_file_sync` -/
def writeStringToFileSync (data fname : Bytes) : Prog Fault Env Status := do
  let s ← op (Env.newWritableFile fname)
  if s.isOk then
    let s ← op (Env.append fname data)
    let s ← onOk s (op (Env.sync fname))
    let s ← onOk s (op (Env.close fname))
    orRemove s fname
  else return s

theorem outcome_writeStringToFileSync (data fname : Bytes) (env : Env) :
    (writeStringToFileSync data fname).outcome env
      = .ok (env.writeStringToFileSync data fname) := by
  rw [writeStringToFileSync, Env.writeStringToFileSync, Env.doWriteStringToFile]
  rcases hr : env.newWritableFile fname with ⟨s, env₁⟩
  simp only [outcome_bind, outcome_op, ok_bind, hr]
  by_cases hs : s.isOk = true
  · simp only [hs, if_true, outcome_bind, outcome_op, outcome_onOk, outcome_orRemove, ok_bind]
  · simp only [hs, Bool.false_eq_true, if_false, outcome_ret]

/-- `set_current_file` -/
def setCurrentFile (dbname : Bytes) (descriptorNumber : U64) : Prog Fault Env Status := do
  let manifest ← lift (descriptorFileName dbname descriptorNumber)
  lift (require ((dbname ++ text "/").isPrefixOf manifest))
  let contents := manifest.drop (dbname.length + 1)
  let tmp ← lift (tempFileName dbname descriptorNumber)
  let s ← writeStringToFileSync (contents ++ text "\n") tmp
  let s ← onOk s (op (Env.renameFile tmp (currentFileName dbname)))
  orRemove s tmp

theorem outcome_setCurrentFile (dbname : Bytes) (number : U64) (env : Env) :
    (setCurrentFile dbname number).outcome env = SimpleLeveldb.setCurrentFile dbname number env := by
  rw [setCurrentFile, SimpleLeveldb.setCurrentFile]
  simp only [outcome_bind, outcome_lift, outcome_writeStringToFileSync, outcome_onOk,
    outcome_orRemove, bind_map, ok_bind]
  refine bind_congr fun manifest => bind_congr fun _ => bind_congr fun tmp => ?_
  set r := Env.andThen _ _ with hr
  rw [Env.andThen] at hr
  rw [← hr]
  split_ifs <;> rfl

/-! ## `NewDB` -/

/-- `NewDB` -/
def newDb (db : DbImpl) (uninit : U32) : Prog Fault Env Status := do
  let manifest ← lift (descriptorFileName db.dbname 1)
  let s ← op (Env.newWritableFile manifest)
  if !s.isOk then return s
  let record ← lift (DbImpl.newDbEdit db.userComparator.name).encodeTo
  let (s, _) ← addRecord (Log.Writer.new manifest uninit) record
  let s ← onOk s (op (Env.sync manifest))
  let s ← onOk s (op (Env.close manifest))
  if s.isOk then setCurrentFile db.dbname 1 else orRemove s manifest

theorem outcome_newDb (db : DbImpl) (uninit : U32) (env : Env) :
    (newDb db uninit).outcome env = db.newDb uninit env := by
  rw [newDb, DbImpl.newDb]
  simp only [outcome_bind, outcome_lift, outcome_op, bind_map, ok_bind]
  refine bind_congr fun manifest => ?_
  by_cases hnew : (env.newWritableFile manifest).1.isOk = true
  · simp only [hnew, Bool.not_true, Bool.false_eq_true, if_false, outcome_bind, outcome_lift,
      outcome_addRecord, outcome_onOk, bind_map, ok_bind]
    refine bind_congr fun record => bind_congr fun r => ?_
    split_ifs with h
    · exact outcome_setCurrentFile _ _ _
    · rw [outcome_orRemove, if_neg h]
      rfl
  · simp only [hnew, Bool.not_false, if_true, outcome_ret]
    rfl

/-! ## `log_any_apply` -/

/-- `write_snap_shot` -/
def writeSnapShot (vs : VersionSet) (log : Log.Writer) : Prog Fault Env (Status × Log.Writer) := do
  let edit ← lift vs.snapShot
  let record ← lift edit.encodeTo
  addRecord log record

theorem outcome_writeSnapShot (vs : VersionSet) (log : Log.Writer) (env : Env) :
    (writeSnapShot vs log).outcome env
      = (vs.writeSnapShot log env).map fun r => ((r.1, r.2.1), r.2.2) := by
  rw [writeSnapShot, VersionSet.writeSnapShot]
  simp only [outcome_bind, outcome_lift, outcome_addRecord, map_bind, bind_map]

/-- The manifest is created when there is none. -/
def openManifest (vs : VersionSet) (uninit : U32) : Prog Fault Env (Status × Bytes × VersionSet) :=
  match vs.descriptorLog with
  | some _ => return (.ok, [], vs)
  | none => do
      lift (require (vs.descriptorFile = none))
      let newManifestFile ← lift (descriptorFileName vs.dbname vs.manifestFileNumber)
      let s ← op (Env.newWritableFile newManifestFile)
      if s.isOk then
        let vs := { vs with descriptorFile := some newManifestFile }
        let (s, log) ← writeSnapShot vs (Log.Writer.new newManifestFile uninit)
        return (s, newManifestFile, { vs with descriptorLog := some log })
      else return (s, newManifestFile, vs)

theorem outcome_openManifest (vs : VersionSet) (uninit : U32) (env : Env) :
    (openManifest vs uninit).outcome env
      = (vs.openManifest uninit env).map fun r => ((r.1, r.2.1, r.2.2.1), r.2.2.2) := by
  rw [openManifest, VersionSet.openManifest]
  cases vs.descriptorLog with
  | some log => rfl
  | none =>
      simp only [outcome_bind, outcome_lift, outcome_op, map_bind, bind_map, ok_bind]
      refine bind_congr fun _ => bind_congr fun name => ?_
      split_ifs
      · simp only [outcome_bind, outcome_writeSnapShot, outcome_ret, map_bind, bind_map]
        rfl
      · rfl

/-- The record of the edit is appended to the manifest and synced. -/
def appendEdit (vs : VersionSet) (edit : VersionEdit) : Prog Fault Env (Status × VersionSet) := do
  let record ← lift edit.encodeTo
  let log ← lift (deref vs.descriptorLog)
  let (s, log) ← addRecord log record
  let vs := { vs with descriptorLog := some log }
  if s.isOk then
    let file ← lift (deref vs.descriptorFile)
    let s ← op (Env.sync file)
    return (s, vs)
  else return (s, vs)

theorem outcome_appendEdit (vs : VersionSet) (edit : VersionEdit) (env : Env) :
    (appendEdit vs edit).outcome env
      = (vs.appendEdit edit env).map fun r => ((r.1, r.2.1), r.2.2) := by
  rw [appendEdit, VersionSet.appendEdit]
  simp only [outcome_bind, outcome_lift, outcome_addRecord, map_bind, bind_map]
  refine bind_congr fun record => bind_congr fun log => bind_congr fun r => ?_
  split_ifs
  · simp only [outcome_bind, outcome_lift, outcome_op, outcome_ret, map_bind, bind_map, ok_bind]
    rfl
  · rfl

/-- `CURRENT` is switched to a manifest that has been created. -/
def switchCurrent (vs : VersionSet) (newManifestFile : Bytes) : Prog Fault Env Status :=
  if newManifestFile.isEmpty then return .ok
  else setCurrentFile vs.dbname vs.manifestFileNumber

theorem outcome_switchCurrent (vs : VersionSet) (name : Bytes) (env : Env) :
    (switchCurrent vs name).outcome env = vs.switchCurrent name env := by
  unfold switchCurrent VersionSet.switchCurrent
  split_ifs
  · rfl
  · exact outcome_setCurrentFile _ _ _

/-- The writes of `log_any_apply`, each made only when the ones before succeeded. -/
def writeEdit (vs : VersionSet) (edit : VersionEdit) (uninit : U32) :
    Prog Fault Env (Status × Bytes × VersionSet) := do
  let (s, newManifestFile, vs) ← openManifest vs uninit
  if !s.isOk then return (s, newManifestFile, vs)
  let (s, vs) ← appendEdit vs edit
  if !s.isOk then return (s, newManifestFile, vs)
  let s ← switchCurrent vs newManifestFile
  return (s, newManifestFile, vs)

theorem outcome_writeEdit (vs : VersionSet) (edit : VersionEdit) (uninit : U32) (env : Env) :
    (writeEdit vs edit uninit).outcome env
      = (vs.writeEdit edit uninit env).map fun r => ((r.1, r.2.1, r.2.2.1), r.2.2.2) := by
  rw [writeEdit, VersionSet.writeEdit]
  simp only [outcome_bind, outcome_openManifest, map_bind, bind_map]
  refine bind_congr fun r => ?_
  split_ifs
  · rfl
  simp only [outcome_bind, outcome_appendEdit, map_bind, bind_map]
  refine bind_congr fun r' => ?_
  split_ifs
  · rfl
  simp only [outcome_bind, outcome_switchCurrent, outcome_ret, map_bind]
  rfl

/-- The end of `log_any_apply` with a status that is not OK. -/
def discardVersion (vs : VersionSet) (v : VersionPtr) (newManifestFile : Bytes) :
    Prog Fault Env VersionSet := do
  let list ← lift (vs.list.deleteVersion v)
  if newManifestFile.isEmpty then return { vs with list := list }
  else
    let _ ← op (Env.removeFile newManifestFile)
    return { vs with list := list, descriptorLog := none, descriptorFile := none }

theorem outcome_discardVersion (vs : VersionSet) (v : VersionPtr) (name : Bytes) (env : Env) :
    (discardVersion vs v name).outcome env = vs.discardVersion v name env := by
  rw [discardVersion, VersionSet.discardVersion]
  simp only [outcome_bind, outcome_lift, bind_map]
  refine bind_congr fun list => ?_
  split_ifs <;> rfl

/-- `log_any_apply` -/
def logAnyApply (vs : VersionSet) (edit : VersionEdit) (uninit : U32) :
    Prog Fault Env (Status × VersionEdit × VersionSet) := do
  let edit ← lift (vs.completeEdit edit)
  let (v, vs) ← lift (vs.buildVersion edit)
  let (s, newManifestFile, vs) ← writeEdit vs edit uninit
  if s.isOk then
    let vs ← lift (vs.installVersion v edit)
    return (s, edit, vs)
  else
    let vs ← discardVersion vs v newManifestFile
    return (s, edit, vs)

theorem outcome_logAnyApply (vs : VersionSet) (edit : VersionEdit) (uninit : U32) (env : Env) :
    (logAnyApply vs edit uninit).outcome env
      = (vs.logAnyApply edit uninit env).map fun r => ((r.1, r.2.1, r.2.2.1), r.2.2.2) := by
  rw [logAnyApply, VersionSet.logAnyApply]
  simp only [outcome_bind, outcome_lift, outcome_writeEdit, map_bind, bind_map]
  refine bind_congr fun edit => bind_congr fun built => bind_congr fun r => ?_
  split_ifs
  · simp only [outcome_bind, outcome_lift, outcome_ret, map_bind, bind_map]
    rfl
  · simp only [outcome_bind, outcome_discardVersion, outcome_ret, map_bind]
    rfl

/-! ## `recover` -/

/-- `new_sequential_file` -/
def newSequentialFile (fname : Bytes) : Prog Fault Env (Status × SequentialFile) :=
  op fun env =>
    let (s, file, env) := env.newSequentialFile fname
    ((s, file), env)

theorem outcome_newSequentialFile (fname : Bytes) (env : Env) :
    (newSequentialFile fname).outcome env
      = .ok (((env.newSequentialFile fname).1, (env.newSequentialFile fname).2.1),
          (env.newSequentialFile fname).2.2) := rfl

/-- `read_file_to_string` -/
def readFileToString (fname : Bytes) : Prog Fault Env (Status × Bytes) := do
  let (s, file) ← newSequentialFile fname
  if !s.isOk then return (s, [])
  lift (Loop.run .endless Env.readFileTurn (file.rest.length + file.script.length + 2) ([], file))

theorem outcome_readFileToString (fname : Bytes) (env : Env) :
    (readFileToString fname).outcome env
      = (env.readFileToString fname).map fun r => ((r.1, r.2.1), r.2.2) := by
  rw [readFileToString, Env.readFileToString]
  simp only [outcome_bind, outcome_newSequentialFile, ok_bind]
  split_ifs
  · rfl
  · simp only [outcome_lift, map_bind]
    cases Loop.run _ _ _ _ <;> rfl

/-- `reuse_manifest` -/
def reuseManifest (vs : VersionSet) (dscname dscbase : Bytes) (uninit : U32) :
    Prog Fault Env (Bool × VersionSet) :=
  if !vs.options.reuseLogs then return (false, vs)
  else
    match parseFileName dscbase with
    | some (manifestNumber, .kDescriptorFile) => do
        let (s, manifestSize) ← op fun env =>
          let (s, size, env) := env.getFileSize dscname
          ((s, size), env)
        if !s.isOk ∨ vs.options.maxFileSize ≤ manifestSize then return (false, vs)
        lift (require (vs.descriptorFile = none))
        lift (require (vs.descriptorLog = none))
        let r ← op (Env.newAppendableFile dscname)
        if !r.isOk then
          lift (require (vs.descriptorFile ≠ none))
          return (false, vs)
        return (true, { vs with
          descriptorFile := some dscname
          descriptorLog := some (Log.Writer.newAt dscname manifestSize uninit)
          manifestFileNumber := manifestNumber })
    | _ => return (false, vs)

theorem outcome_reuseManifest (vs : VersionSet) (dscname dscbase : Bytes) (uninit : U32)
    (env : Env) :
    (reuseManifest vs dscname dscbase uninit).outcome env
      = (vs.reuseManifest dscname dscbase uninit env).map fun r => ((r.1, r.2.1), r.2.2) := by
  unfold reuseManifest VersionSet.reuseManifest
  split_ifs
  · rfl
  rcases parseFileName dscbase with _ | ⟨number, type⟩
  · rfl
  cases type with
  | kDescriptorFile =>
      simp only [outcome_bind, outcome_op, ok_bind]
      split_ifs with hsize hopen
      · rfl
      all_goals
        simp only [outcome_bind, outcome_lift, outcome_op, map_bind, bind_map, ok_bind]
        refine bind_congr fun _ => bind_congr fun _ => ?_
      · simp only [if_pos hopen, outcome_bind, outcome_lift, outcome_ret, bind_map]
        rfl
      · rw [if_neg hopen]
        rfl
  | _ => rfl

/-- The end of `recover` when everything has been read. -/
def installRecovered (vs : VersionSet) (st : VersionSet.RecoverState) (prevLogNumber : U64)
    (dscname current : Bytes) (saveManifest : Bool) (uninit : U32) :
    Prog Fault Env (Bool × VersionSet) := do
  let (v, list) := vs.list.newVersion
  let list ← lift (VersionSet.finalize (VersionSet.saveTo st.b v list) v)
  let list ← lift (list.appendVersion v)
  let vs := { vs with
    list := list
    manifestFileNumber := st.nextFile
    nextFileNumber := st.nextFile + 1
    lastSequence := st.lastSequence
    logNumber := st.logNumber
    prevLogNumber := prevLogNumber }
  let (reused, vs) ← reuseManifest vs dscname current uninit
  return (if reused then saveManifest else true, vs)

/-- The end of `recover`. -/
def finishRecover (vs : VersionSet) (st : VersionSet.RecoverState) (s : Status)
    (prevLogNumber : U64) (dscname current : Bytes) (saveManifest : Bool) (uninit : U32) :
    Prog Fault Env (Bool × VersionSet) :=
  if s.isOk then installRecovered vs st prevLogNumber dscname current saveManifest uninit
  else return (saveManifest, vs)

theorem outcome_finishRecover (vs : VersionSet) (st : VersionSet.RecoverState) (s : Status)
    (prevLogNumber : U64) (dscname current : Bytes) (saveManifest : Bool) (uninit : U32)
    (env : Env) :
    (finishRecover vs st s prevLogNumber dscname current saveManifest uninit).outcome env
      = (vs.finishRecover st s prevLogNumber dscname current saveManifest uninit env).map
          fun r => ((r.1, r.2.1), r.2.2) := by
  unfold finishRecover VersionSet.finishRecover
  split_ifs
  · rw [installRecovered, VersionSet.installRecovered]
    simp only [outcome_bind, outcome_lift, outcome_reuseManifest, outcome_ret, map_bind, bind_map]
    rfl
  · rfl

/-- `recover` after the manifest has been opened. -/
def recoverFrom (vs : VersionSet) (file : SequentialFile) (dscname current : Bytes)
    (saveManifest : Bool) (uninit : U32) : Prog Fault Env (Status × Bool × VersionSet) := do
  let (b, list) ← lift (VersionSet.newBuilder vs.list)
  let reader := Log.Reader.new file (some []) true 0
  let st : VersionSet.RecoverState :=
    { reader := reader, s := .ok, vs := { vs with list := list }, b := b }
  let st ← lift (Loop.run .endless VersionSet.recoverTurn (reader.unread + 1) st)
  let s := st.check
  let prevLogNumber := if st.havePrevLogNumber then st.prevLogNumber else 0
  let vs := (st.vs.markFileNumberUsed prevLogNumber).markFileNumberUsed st.logNumber
  let (saveManifest, vs) ←
    finishRecover vs st s prevLogNumber dscname current saveManifest uninit
  let list ← lift (VersionSet.deleteBuilder st.b vs.list)
  return (s, saveManifest, { vs with list := list })

/-- `recover` -/
def recover (vs : VersionSet) (saveManifest : Bool) (uninit : U32) :
    Prog Fault Env (Status × Bool × VersionSet) := do
  let (s, current) ← readFileToString (currentFileName vs.dbname)
  if !s.isOk then return (s, saveManifest, vs)
  if current.getLast? ≠ some 10#8 then
    return (.corruption (text "CURRENT file does not end with newline"), saveManifest, vs)
  let current := current.dropLast
  let dscname := vs.dbname ++ text "/" ++ current
  let (s, file) ← newSequentialFile dscname
  if !s.isOk then
    if s.isNotFound then
      return (.corruption (text "CURRENT points to a non-existent file") s.toText, saveManifest, vs)
    return (s, saveManifest, vs)
  recoverFrom vs file dscname current saveManifest uninit

theorem outcome_recover (vs : VersionSet) (saveManifest : Bool) (uninit : U32) (env : Env) :
    (recover vs saveManifest uninit).outcome env
      = (vs.recover saveManifest uninit env).map fun r => ((r.1, r.2.1, r.2.2.1), r.2.2.2) := by
  rw [recover, VersionSet.recover]
  simp only [outcome_bind, outcome_readFileToString, map_bind, bind_map]
  refine bind_congr fun r => ?_
  split_ifs with hread hline hopen hmissing
  · rfl
  · rfl
  all_goals
    rw [outcome_bind, outcome_newSequentialFile, ok_bind]
  · rw [if_pos hopen, if_pos hmissing]
    rfl
  · rw [if_pos hopen, if_neg hmissing]
    rfl
  · rw [if_neg hopen, recoverFrom, VersionSet.recoverFrom]
    simp only [outcome_bind, outcome_lift, outcome_finishRecover, outcome_ret, map_bind, bind_map]
    rfl

end SimpleLeveldb.Steps
