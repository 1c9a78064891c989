import SimpleLeveldb.Version.VersionSet

set_option autoImplicit false

/-! # The database (`db_impl.h`, `db_impl.cc`)

Making a new database, recovering one, and removing the files that are no longer needed.
`RecoverLogFile` is modelled as the source has it: a second copy of `Recover`, which takes the
database lock again and calls itself for each log.
-/

namespace SimpleLeveldb

/-- `db_impl`, as far as the functions below use it. A null `db_lock_` is `none`. -/
structure DbImpl where
  dbname : Bytes
  options : Options
  userComparator : Comparator
  dbLock : Option Bytes
  versions : VersionSet
  pendingOutputs : List U64
  bgError : Status

namespace DbImpl

/-! ## `NewDB` -/

/-- The edit that a new manifest starts with. -/
def newDbEdit (name : Bytes) : VersionEdit :=
  (((({} : VersionEdit).setComparatorName name).setLogNumber 0).setNextFile 2).setLastSequence 0

/-- `NewDB`. `uninit` is what the last entry of the writer's `type_crc_` happens to be. -/
def newDb (db : DbImpl) (uninit : U32) (env : Env) : Except Fault (Status × Env) := do
  let manifest ← descriptorFileName db.dbname 1
  let (s, env) := env.newWritableFile manifest
  if !s.isOk then return (s, env)
  let record ← (newDbEdit db.userComparator.name).encodeTo
  let (s, _, env) ← (Log.Writer.new manifest uninit).addRecord record env
  let r := Env.andThen (s, env) (Env.sync manifest)
  let r := Env.andThen r (Env.close manifest)
  if r.1.isOk then setCurrentFile db.dbname 1 r.2
  else return (r.1, (r.2.removeFile manifest).2)

/-! ## `RemoveObsoleteFiles` -/

/-- `switch ( type )`: whether a file is kept. -/
def keep (db : DbImpl) (live : List U64) (number : U64) : FileType → Bool
  | .kLogFile => decide (db.versions.logNumber ≤ number) || number == db.versions.prevLogNumber
  | .kTableFile => live.contains number
  | .kDescriptorFile => decide (db.versions.manifestFileNumber ≤ number)
  | .kTempFile => live.contains number
  | .kCurrentFile => true
  | .kDBLockFile => true
  | .kInfoLogFile => true

/-- `files_to_delete`: the names that parse and are not kept. -/
def filesToDelete (db : DbImpl) (live : List U64) (filenames : List Bytes) : List Bytes :=
  filenames.filter fun filename =>
    match parseFileName filename with
    | some (number, type) => !db.keep live number type
    | none => false

/-- `RemoveObsoleteFiles`: the environment it leaves. -/
def removeObsoleteFiles (db : DbImpl) (env : Env) : Except Fault Env := do
  if !db.bgError.isOk then return env
  let live ← db.versions.addLiveFiles
  let (_, filenames, env) := env.getChildren db.dbname
  return (db.filesToDelete (db.pendingOutputs ++ live) filenames).foldl
    (fun env filename => (env.removeFile (db.dbname ++ text "/" ++ filename)).2) env

/-! ## `Recover` and `RecoverLogFile` -/

/-- A database that is missing is created, if the options allow it. -/
def ensureDb (db : DbImpl) (uninit : U32) (env : Env) : Except Fault (Status × Env) :=
  if !env.fileExists (currentFileName db.dbname) then
    if db.options.createIfMissing then db.newDb uninit env
    else .ok (.invalidArgument db.dbname (text "does not exist (create_if_missing is false)"), env)
  else if db.options.errorIfExists then
    .ok (.invalidArgument db.dbname (text "exists (error_if_exists is true)"), env)
  else .ok (.ok, env)

/-- What both functions begin with: the lock is taken, a missing database is created, and the
version set is recovered. -/
def openVersions (db : DbImpl) (saveManifest : Bool) (uninit : U32) (env : Env) :
    Except Fault (Status × Bool × DbImpl × Env) := do
  let (_, env) := env.createDir db.dbname
  require (db.dbLock = none)
  let (s, env) := env.lockFile (lockFileName db.dbname)
  if !s.isOk then return (s, saveManifest, db, env)
  let db := { db with dbLock := some (lockFileName db.dbname) }
  let (s, env) ← db.ensureDb uninit env
  if !s.isOk then return (s, saveManifest, db, env)
  let (s, saveManifest, versions, env) ← db.versions.recover saveManifest uninit env
  return (s, saveManifest, { db with versions := versions }, env)

/-- The number of a log file that must be recovered. -/
def relevantLog (minLog prevLog : U64) (filename : Bytes) : Option U64 :=
  match parseFileName filename with
  | some (number, .kLogFile) =>
      if minLog ≤ number ∨ number = prevLog then some number else none
  | _ => none

/-- The live numbers that are still missing after a file of the listing. -/
def eraseNumber (expected : List U64) (filename : Bytes) : List U64 :=
  match parseFileName filename with
  | some (number, _) => expected.filter (fun n => n ≠ number)
  | none => expected

/-- The status for files that are missing, with the lowest number of one. -/
def missingFiles (db : DbImpl) (expected : List U64) : Except Fault Status := do
  let first := expected.foldl (fun a b => if b < a then b else a) (expected.headD 0)
  return .corruption (decimal expected.dedup.length ++ text " missing files; e.g.")
    (← tableFileName db.dbname first)

/-- The loop of `Recover` over the listing: missing files are looked for after every name. -/
def scanListing (db : DbImpl) (minLog prevLog : U64) :
    List Bytes → List U64 → List U64 → Except Fault (Status × List U64)
  | [], _, logs => .ok (.ok, logs)
  | filename :: filenames, expected, logs =>
      let expected := eraseNumber expected filename
      let logs := logs ++ (relevantLog minLog prevLog filename).toList
      if expected.isEmpty then scanListing db minLog prevLog filenames expected logs
      else do return (← db.missingFiles expected, logs)

/-- The loop of `RecoverLogFile` over the listing: missing files are looked for at its end. -/
def scanListingOnce (db : DbImpl) (minLog prevLog : U64) (filenames : List Bytes)
    (expected : List U64) : Except Fault (Status × List U64) :=
  let expected := filenames.foldl eraseNumber expected
  let logs := filenames.filterMap (relevantLog minLog prevLog)
  if expected.isEmpty then .ok (.ok, logs) else do return (← db.missingFiles expected, logs)

/-- What a recovery returns: the status, `*save_manifest`, the database, the environment and
the logs that were handled, in order. -/
abbrev Recovered := Status × Bool × DbImpl × Env × List U64

/-- The loop over the sorted logs. -/
def recoverLogs (recoverLogFile : Bool → DbImpl → Env → Except Fault Recovered) :
    List U64 → Bool → DbImpl → Env → Except Fault Recovered
  | [], saveManifest, db, env => .ok (.ok, saveManifest, db, env, [])
  | log :: logs, saveManifest, db, env => do
      let (s, saveManifest, db, env, inner) ← recoverLogFile saveManifest db env
      if !s.isOk then return (s, saveManifest, db, env, inner)
      let db := { db with versions := db.versions.markFileNumberUsed log }
      let (s, saveManifest, db, env, handled) ←
        recoverLogs recoverLogFile logs saveManifest db env
      return (s, saveManifest, db, env, inner ++ log :: handled)

/-- `max_sequence` raises the last sequence number. -/
def raiseLastSequence (versions : VersionSet) (maxSequence : U64) : Except Fault VersionSet :=
  if versions.lastSequence < maxSequence then versions.setLastSequence maxSequence
  else .ok versions

/-- The body that both functions share, with their loop over the listing and what they call
for a log. The sequence number that the logs are to deliver stays 0. -/
def recoverWith
    (scan : DbImpl → U64 → U64 → List Bytes → List U64 → Except Fault (Status × List U64))
    (recoverLogFile : Bool → DbImpl → Env → Except Fault Recovered) (uninit : U32)
    (saveManifest : Bool) (db : DbImpl) (env : Env) : Except Fault Recovered := do
  let (s, saveManifest, db, env) ← db.openVersions saveManifest uninit env
  if !s.isOk then return (s, saveManifest, db, env, [])
  let (s, filenames, env) := env.getChildren db.dbname
  if !s.isOk then return (s, saveManifest, db, env, [])
  let expected ← db.versions.addLiveFiles
  let (s, logs) ← scan db db.versions.logNumber db.versions.prevLogNumber filenames expected
  if !s.isOk then return (s, saveManifest, db, env, [])
  let maxSequence : U64 := 0
  let (s, saveManifest, db, env, handled) ←
    recoverLogs recoverLogFile (logs.mergeSort fun a b => decide (a ≤ b)) saveManifest db env
  if !s.isOk then return (s, saveManifest, db, env, handled)
  let versions ← raiseLastSequence db.versions maxSequence
  return (.ok, saveManifest, { db with versions := versions }, env, handled)

/-- `RecoverLogFile`, to a given depth of the calls. It does not use the log's number. -/
def recoverLogFile (uninit : U32) : Nat → Bool → DbImpl → Env → Except Fault Recovered
  | 0, _, _, _ => .error .endless
  | depth + 1, saveManifest, db, env =>
      recoverWith scanListingOnce (recoverLogFile uninit depth) uninit saveManifest db env

/-- `Recover` -/
def recover (uninit : U32) (depth : Nat) (saveManifest : Bool) (db : DbImpl) (env : Env) :
    Except Fault Recovered :=
  recoverWith (fun db minLog prevLog filenames expected =>
    scanListing db minLog prevLog filenames expected []) (recoverLogFile uninit depth) uninit
    saveManifest db env

end DbImpl

end SimpleLeveldb
