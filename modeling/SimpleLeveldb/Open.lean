import SimpleLeveldb.Current
import SimpleLeveldb.FileGrammar
import SimpleLeveldb.Recovery
import SimpleLeveldb.Version.RecoverNumbers

set_option autoImplicit false

/-! # Opening a database (`db::Open`)

`Open` constructs the database object, recovers the version set, creates a new log, saves an edit with
its number when the manifest is not used again, and removes the files that are obsolete then. The
files that it needs, the new log and the manifest that `CURRENT` names, are not among these
(`sparesNeeded`).

The constructor of `version_set` follows a null link, so that no `Open` gets to `Recover`
(`openDb_nullLink`). What is behind the constructor is `openConstructed`, which starts from an object
whose versions are linked.
-/

namespace SimpleLeveldb

/-- The variables of `Open`, with `log_file_` and `logfile_number_` of the database. -/
structure Opening where
  db : DbImpl
  saveManifest : Bool
  edit : VersionEdit := {}
  logFile : Option Bytes := none
  logfileNumber : U64 := 0

namespace Opening

/-- The new log: a number for it is taken, and its file is created. -/
def createLog (st : Opening) (env : Env) : Except Fault (Status × Opening × Env) := do
  let (newLoggerNumber, versions) := st.db.versions.newFileNumber
  let st := { st with db := { st.db with versions := versions } }
  let name ← logFileName st.db.dbname newLoggerNumber
  let (s, env) := env.newWritableFile name
  if s.isOk then
    return (s, { st with
      edit := st.edit.setLogNumber newLoggerNumber
      logFile := some name
      logfileNumber := newLoggerNumber }, env)
  else return (s, st, env)

/-- The edit with the number of the log is saved, if `save_manifest` is set. -/
def saveEdit (st : Opening) (uninit : U32) (env : Env) : Except Fault (Status × Opening × Env) :=
  if st.saveManifest then do
    let edit := (st.edit.setPrevLogNumber 0).setLogNumber st.logfileNumber
    let (s, edit, versions, env) ← st.db.versions.logAnyApply edit uninit env
    return (s, { st with edit := edit, db := { st.db with versions := versions } }, env)
  else .ok (.ok, st, env)

/-- `Open` between `Recover` and `RemoveObsoleteFiles`. -/
def prepare (st : Opening) (uninit : U32) (env : Env) : Except Fault (Status × Opening × Env) := do
  let (s, st, env) ← st.createLog env
  if !s.isOk then return (s, st, env)
  st.saveEdit uninit env

end Opening

/-- `Open` behind `new db_impl`, up to the scheduling of a compaction. -/
def DbImpl.openConstructed (db : DbImpl) (uninit : U32) (depth : Nat) (env : Env) :
    Except Fault (Status × DbImpl × Env) := do
  let (s, saveManifest, db, env, _) ← DbImpl.recover uninit depth false db env
  if !s.isOk then return (s, db, env)
  let (s, st, env) ← Opening.prepare { db := db, saveManifest := saveManifest } uninit env
  if !s.isOk then return (s, st.db, env)
  let env ← st.db.removeObsoleteFiles env
  return (.ok, st.db, env)

/-- `Open`, where `db` has the members of the new object but for `versions_`, which the constructor
makes. -/
def DbImpl.openDb (db : DbImpl) (uninit : U32) (depth : Nat) (env : Env) :
    Except Fault (Status × DbImpl × Env) := do
  let versions ← VersionSet.new db.dbname db.options db.versions.icmp
  DbImpl.openConstructed { db with versions := versions } uninit depth env

/-- **No `Open` gets past the constructor.** -/
theorem DbImpl.openDb_nullLink (db : DbImpl) (uninit : U32) (depth : Nat) (env : Env) :
    db.openDb uninit depth env = .error .nullLink := by
  rw [openDb, VersionSet.new, VersionList.construct_nullLink]
  rfl

namespace VersionSet

/-- A call of `log_any_apply` that creates the manifest and succeeds: `CURRENT` names it then. -/
theorem writeEdit_switches {vs vs' : VersionSet} {edit : VersionEdit} {uninit : U32}
    {env env' : Env} {m : Bytes} (hlog : vs.descriptorLog = none)
    (h : vs.writeEdit edit uninit env = .ok (.ok, m, vs', env')) :
    Steps.Switched vs.dbname vs.manifestFileNumber env' := by
  unfold writeEdit at h
  obtain ⟨⟨s₁, name₁, vs₁, env₁⟩, hopen, h⟩ := bind_eq_ok.mp h
  have hsame₁ := openManifest_same hopen
  have hname : name₁.isEmpty = false := by
    unfold openManifest at hopen
    rw [hlog] at hopen
    obtain ⟨_, -, hopen⟩ := bind_eq_ok.mp hopen
    obtain ⟨name, hname, hopen⟩ := bind_eq_ok.mp hopen
    obtain ⟨_, -, hname⟩ := bind_eq_ok.mp hname
    cases hname
    simp only at hopen
    split_ifs at hopen
    · obtain ⟨_, -, hopen⟩ := bind_eq_ok.mp hopen
      cases hopen
      simp [text]
    · cases hopen
      simp [text]
  simp only at h
  split_ifs at h with hs₁
  · cases h
    cases hs₁
  · obtain ⟨⟨s₂, vs₂, env₂⟩, happend, h⟩ := bind_eq_ok.mp h
    have hsame₂ := hsame₁.trans (appendEdit_same happend)
    simp only at h
    split_ifs at h with hs₂
    · cases h
      cases hs₂
    · obtain ⟨⟨s₃, env₃⟩, hswitch, h⟩ := bind_eq_ok.mp h
      cases h
      unfold switchCurrent at hswitch
      rw [if_neg (by rw [hname]; exact Bool.false_ne_true), ← Steps.outcome_setCurrentFile] at hswitch
      obtain ⟨log, file, rfl⟩ := hsame₂
      exact ((Steps.keeps_setCurrentFile _ _ _).of_outcome hswitch).2 rfl

theorem logAnyApply_switches {vs vs' : VersionSet} {edit edit' : VersionEdit} {uninit : U32}
    {env env' : Env} (hlog : vs.descriptorLog = none) (hhas : edit.hasLogNumber = true)
    (h : vs.logAnyApply edit uninit env = .ok (.ok, edit', vs', env')) :
    vs'.logNumber = edit.logNumber ∧ vs'.manifestFileNumber = vs.manifestFileNumber
      ∧ Steps.Switched vs.dbname vs.manifestFileNumber env' := by
  unfold logAnyApply at h
  obtain ⟨edit₁, hcomplete, h⟩ := bind_eq_ok.mp h
  obtain ⟨⟨v, vs₁⟩, hbuild, h⟩ := bind_eq_ok.mp h
  obtain ⟨⟨s, m, vs₂, env₂⟩, hwrite, h⟩ := bind_eq_ok.mp h
  obtain ⟨list, cp, hvs₁⟩ := buildVersion_same hbuild
  have hedit : edit₁.logNumber = edit.logNumber := by
    unfold completeEdit at hcomplete
    simp only [hhas, if_true] at hcomplete
    obtain ⟨_, -, hcomplete⟩ := bind_eq_ok.mp hcomplete
    obtain ⟨_, -, hcomplete⟩ := bind_eq_ok.mp hcomplete
    cases hcomplete
    split_ifs <;> rfl
  simp only at h
  split_ifs at h with hok
  · obtain ⟨vs₃, hinstall, h⟩ := bind_eq_ok.mp h
    cases h
    obtain ⟨list', -, hinstall⟩ := bind_eq_ok.mp hinstall
    cases hinstall
    subst hvs₁
    have hswitched := writeEdit_switches (by exact hlog) hwrite
    obtain ⟨log, file, rfl⟩ := writeEdit_same hwrite
    exact ⟨hedit, rfl, hswitched⟩
  · obtain ⟨_, -, h⟩ := bind_eq_ok.mp h
    cases h
    exact absurd rfl hok

/-! ## Where `CURRENT` points -/

theorem reuseManifest_others {vs vs' : VersionSet} {dscname dscbase : Bytes} {uninit : U32}
    {env env' : Env} {reused : Bool}
    (h : vs.reuseManifest dscname dscbase uninit env = .ok (reused, vs', env')) :
    Env.Others [dscname] env env' := by
  have hsize : Env.Others [dscname] env (env.getFileSize dscname).2.2 :=
    (Env.others_getFileSize _ _).mono (List.nil_subset _)
  rcases reuseManifest_cases h with ⟨-, -, -, rfl | rfl⟩ | ⟨number, -, -, -, rfl, -⟩
  · exact Env.Others.refl _ _
  · exact hsize
  · exact hsize.trans (Env.grows_newAppendableFile dscname (env.getFileSize dscname).2.2).others

theorem finishRecover_others {vs vs' : VersionSet} {st : RecoverState} {s : Status}
    {prevLogNumber : U64} {dscname current : Bytes} {saveManifest saveManifest' : Bool}
    {uninit : U32} {env env' : Env}
    (h : vs.finishRecover st s prevLogNumber dscname current saveManifest uninit env
      = .ok (saveManifest', vs', env')) : Env.Others [dscname] env env' := by
  unfold finishRecover at h
  split_ifs at h
  · unfold installRecovered at h
    obtain ⟨_, -, h⟩ := bind_eq_ok.mp h
    obtain ⟨_, -, h⟩ := bind_eq_ok.mp h
    obtain ⟨⟨reused, vs₁, env₁⟩, hreuse, h⟩ := bind_eq_ok.mp h
    cases h
    exact reuseManifest_others hreuse
  · cases h
    exact Env.Others.refl _ _

/-- Opening the manifest reads `CURRENT`, and changes no file. -/
theorem Opens.current_eq {vs : VersionSet} {env env' : Env} {current : Bytes}
    {file : SequentialFile} (h : vs.Opens env current file env') :
    env.current vs.dbname = some (current ++ [10#8]) ∧ Env.Others [] env env' := by
  obtain ⟨env₁, hread, hopen⟩ := h
  obtain ⟨hfiles, f, hf, hdata⟩ := Env.readFileToString_ok hread
  constructor
  · rw [Env.current, hf, Option.map_some, hdata]
  · have hothers := Env.others_newSequentialFile (vs.dbname ++ text "/" ++ current) env₁
    rw [hopen] at hothers
    intro g hg
    rw [hothers g hg, hfiles]

/-- `recover` changes no file but the manifest that it reads. -/
theorem ReadsManifest.others {vs vs' : VersionSet} {saveManifest saveManifest' : Bool}
    {uninit : U32} {env env₂ env' : Env} {s s' : Status} {current : Bytes}
    {edits : List VersionEdit} (hreads : vs.ReadsManifest env current env₂ edits s')
    (h : vs.recover saveManifest uninit env = .ok (s, saveManifest', vs', env')) :
    Env.Others [vs.dbname ++ text "/" ++ current] env env' := by
  rcases recover_cases h with ⟨-, -, -, hnot⟩ | ⟨current₁, env₃, edits₁, st, hfin⟩
  · obtain ⟨file, hopen, -⟩ := hreads
    exact absurd hopen (hnot _ _ _)
  · obtain ⟨rfl, rfl, -, -⟩ := hreads.unique hfin.reads
    obtain ⟨file, hopen, -⟩ := hreads
    obtain ⟨b, list, vs₁, list', -, -, hfinish, -, -⟩ := hfin.rest
    exact (hopen.current_eq.2.mono (List.nil_subset _)).trans (finishRecover_others hfinish)

end VersionSet

namespace Opening

/-- What `Open` does between `Recover` and the clean-up, when it comes to that. -/
structure Prepared (st : Opening) (uninit : U32) (env : Env) (st' : Opening) (env₁ env' : Env) :
    Prop where
  dbname : st'.db.dbname = st.db.dbname
  logFile : st'.logFile = some
    (st.db.dbname ++ text "/" ++ logBaseName st.db.versions.nextFileNumber)
  created : Env.Others [st.db.dbname ++ text "/" ++ logBaseName st.db.versions.nextFileNumber]
    env env₁
  kept : st.saveManifest = false → st'.db.versions = st.db.versions.newFileNumber.2 ∧ env' = env₁
  saved : st.saveManifest = true → ∃ edit edit', edit.hasLogNumber = true
    ∧ edit.logNumber = st.db.versions.nextFileNumber
    ∧ st.db.versions.newFileNumber.2.logAnyApply edit uninit env₁
      = .ok (.ok, edit', st'.db.versions, env')

theorem prepared_of_ok {st st' : Opening} {uninit : U32} {env env' : Env}
    (h : st.prepare uninit env = .ok (.ok, st', env')) :
    ∃ env₁, Prepared st uninit env st' env₁ env' := by
  unfold prepare at h
  obtain ⟨⟨s, st₁, env₁⟩, hcreate, h⟩ := bind_eq_ok.mp h
  obtain ⟨name, hname, hcreate⟩ := bind_eq_ok.mp hcreate
  obtain ⟨_, -, hname⟩ := bind_eq_ok.mp hname
  cases hname
  have hothers := Env.others_newWritableFile
    (makeFileName st.db.dbname st.db.versions.nextFileNumber "log") env
  have hlog : makeFileName st.db.dbname st.db.versions.nextFileNumber "log"
      = st.db.dbname ++ text "/" ++ logBaseName st.db.versions.nextFileNumber :=
    makeFileName_eq _ _ _
  rw [hlog] at hothers hcreate
  simp only at h hcreate
  split_ifs at hcreate with hok
  · cases hcreate
    rw [if_neg (by rw [hok]; exact Bool.false_ne_true)] at h
    refine ⟨(env.newWritableFile
      (st.db.dbname ++ text "/" ++ logBaseName st.db.versions.nextFileNumber)).2, ?_⟩
    unfold saveEdit at h
    split_ifs at h with hsave
    · obtain ⟨⟨s₂, edit, versions, env₂⟩, happly, h⟩ := bind_eq_ok.mp h
      cases h
      refine ⟨rfl, rfl, hothers, fun hfalse => absurd (hfalse.symm.trans hsave) Bool.false_ne_true,
        fun _ => ⟨_, edit, rfl, rfl, happly⟩⟩
    · cases h
      refine ⟨rfl, rfl, hothers, fun _ => ⟨rfl, rfl⟩, fun htrue => absurd htrue hsave⟩
  · cases hcreate
    rw [if_pos (by simpa using hok)] at h
    exact absurd ((Status.isOk_iff _).mpr (congrArg Prod.fst (Except.ok.inj h))) hok

end Opening

/-! ## The clean-up -/

namespace DbImpl

/-- The names of the files that `RemoveObsoleteFiles` removes, for a listing of the directory. -/
def removed (db : DbImpl) (live : List U64) (filenames : List Bytes) : List Bytes :=
  (db.filesToDelete live filenames).map fun filename => db.dbname ++ text "/" ++ filename

theorem mem_removed {db : DbImpl} {live : List U64} {filenames : List Bytes} {name : Bytes} :
    db.dbname ++ text "/" ++ name ∈ db.removed live filenames
      ↔ name ∈ filenames ∧ ∃ number type, parseFileName name = some (number, type)
        ∧ db.keep live number type = false := by
  unfold removed filesToDelete
  simp only [List.mem_map, List.mem_filter, inDirectory_inj, exists_eq_right]
  refine and_congr_right fun _ => ?_
  rcases parseFileName name with _ | ⟨number, type⟩
  · simp
  · simp

/-- A name that is kept is not removed. -/
theorem not_mem_removed {db : DbImpl} {live : List U64} {filenames : List Bytes} {name : Bytes}
    {number : U64} {type : FileType} (hparse : parseFileName name = some (number, type))
    (hkeep : db.keep live number type = true) :
    db.dbname ++ text "/" ++ name ∉ db.removed live filenames := by
  intro hmem
  obtain ⟨-, number', type', hparse', hkeep'⟩ := mem_removed.mp hmem
  rw [hparse] at hparse'
  cases hparse'
  rw [hkeep] at hkeep'
  cases hkeep'

/-- `RemoveObsoleteFiles` removes these files, and changes no other. -/
theorem removeObsoleteFiles_others {db : DbImpl} {env env' : Env}
    (h : db.removeObsoleteFiles env = .ok env') :
    ∃ live filenames, Env.Others (db.removed live filenames) env env' := by
  unfold removeObsoleteFiles at h
  split_ifs at h
  · cases h
    exact ⟨[], [], Env.Others.refl _ _⟩
  · obtain ⟨live, -, h⟩ := bind_eq_ok.mp h
    cases h
    refine ⟨db.pendingOutputs ++ live, (env.getChildren db.dbname).2.1, fun g hg => ?_⟩
    rw [Env.lookup_foldl_removeFile fun filename => db.dbname ++ text "/" ++ filename]
    · exact Env.lookup_getChildren db.dbname g env
    · rintro filename hmem rfl
      exact hg (List.mem_map_of_mem hmem)

/-! ## What is spared -/

/-- After `recover` has accepted a manifest, `Open` comes to the clean-up: the listing of the
directory and whatever else comes between changes no file. -/
def ComesToCleanUp (db : DbImpl) (uninit : U32) (env : Env) (st : Opening) (env' : Env) : Prop :=
  ∃ saveManifest versions env₁ env₂,
    db.versions.recover false uninit env = .ok (.ok, saveManifest, versions, env₁)
      ∧ Env.Others [] env₁ env₂
      ∧ Opening.prepare { db := { db with versions := versions }, saveManifest := saveManifest }
        uninit env₂ = .ok (.ok, st, env')

/-- The log number that the manifest records last is below the next-file number that it records
last, which is not one of the two largest numbers. -/
def LogBelowNext (vs : VersionSet) (env : Env) : Prop :=
  ∀ current env₂ edits, vs.ReadsManifest env current env₂ edits .ok →
    ((VersionSet.lastRecorded VersionEdit.recordedLogNumber edits).getD 0).toNat
        < ((VersionSet.lastRecorded VersionEdit.recordedNextFile edits).getD 0).toNat
      ∧ ((VersionSet.lastRecorded VersionEdit.recordedNextFile edits).getD 0).toNat < 2 ^ 64 - 2

/-- The files with the names `removed` are none that the open database needs: not the manifest
that `CURRENT` names, not the new log, not one of the files with a fixed name, and not a file
whose name is not recognised. -/
structure SparesNeeded (st : Opening) (env : Env) (removed : List Bytes) : Prop where
  manifest : ∃ c, env.current st.db.dbname = some c ∧ manifestPath st.db.dbname c ∉ removed
  logFile : ∃ log, st.logFile = some log ∧ log ∉ removed
  fixed : ∀ name ∈ [text "CURRENT", text "LOCK", text "LOG", text "LOG.old"],
    st.db.dbname ++ text "/" ++ name ∉ removed
  recognised : ∀ name, st.db.dbname ++ text "/" ++ name ∈ removed → (parseFileName name).isSome

/-- The clean-up spares what is needed when the numbers of the manifest and of the new log are not
below the ones that the version set has. -/
theorem sparesNeeded_of_numbers {st : Opening} {env : Env} {manifest log : U64} {current : Bytes}
    (hcurrent : env.current st.db.dbname = some (current ++ [10#8]))
    (hparse : parseFileName current = some (manifest, .kDescriptorFile))
    (hmanifest : st.db.versions.manifestFileNumber ≤ manifest)
    (hfile : st.logFile = some (st.db.dbname ++ text "/" ++ logBaseName log))
    (hlog : st.db.versions.logNumber ≤ log) (live : List U64) (filenames : List Bytes) :
    SparesNeeded st env (st.db.removed live filenames) := by
  refine ⟨⟨_, hcurrent, ?_⟩, ⟨_, hfile, ?_⟩, ?_, ?_⟩
  · rw [manifestPath, List.dropLast_concat]
    exact not_mem_removed hparse (decide_eq_true hmanifest)
  · refine not_mem_removed (parseFileName_logBaseName log) ?_
    rw [keep, decide_eq_true hlog, Bool.true_or]
  · intro name hname
    simp only [List.mem_cons, List.not_mem_nil, or_false] at hname
    rcases hname with rfl | rfl | rfl | rfl
    · exact not_mem_removed (show parseFileName (text "CURRENT") = some (0, .kCurrentFile) by decide) rfl
    · exact not_mem_removed (show parseFileName (text "LOCK") = some (0, .kDBLockFile) by decide) rfl
    · exact not_mem_removed (show parseFileName (text "LOG") = some (0, .kInfoLogFile) by decide) rfl
    · exact not_mem_removed (show parseFileName (text "LOG.old") = some (0, .kInfoLogFile) by decide)
        rfl
  · intro name hmem
    obtain ⟨-, number, type, hparse, -⟩ := mem_removed.mp hmem
    rw [hparse]
    rfl

theorem parseFileName_of_reusedNumber {vs : VersionSet} {dscname dscbase : Bytes} {env : Env}
    {number : U64} (h : vs.reusedNumber dscname dscbase env = some number) :
    parseFileName dscbase = some (number, .kDescriptorFile) := by
  unfold VersionSet.reusedNumber at h
  generalize parseFileName dscbase = parsed at h ⊢
  rcases parsed with _ | ⟨n, type⟩
  · cases h
  cases type with
  | kDescriptorFile =>
      simp only at h
      split_ifs at h
      cases h
      rfl
  | _ => cases h

/-- **The clean-up spares what it needs.** -/
theorem sparesNeeded {db : DbImpl} {uninit : U32} {env env' : Env} {st : Opening}
    (hname : db.versions.dbname = db.dbname) (hclosed : db.versions.descriptorLog = none)
    (hbelow : LogBelowNext db.versions env) (h : db.ComesToCleanUp uninit env st env')
    (live : List U64) (filenames : List Bytes) :
    SparesNeeded st env' (st.db.removed live filenames) := by
  obtain ⟨saveManifest, versions, env₁, env₂, hrecover, hsame, hprepare⟩ := h
  obtain ⟨current, env₃, edits, hreads, hrec⟩ := VersionSet.recovered_of_ok hrecover
  obtain ⟨env₄, hp⟩ := Opening.prepared_of_ok hprepare
  obtain ⟨hlt, hmax⟩ := hbelow current env₃ edits hreads
  obtain ⟨next, hnext⟩ := Option.isSome_iff_exists.mp hrec.nextFile
  have hnumber := hrec.nextFileNumber
  have hmanifest := hrec.manifestFileNumber
  have hsave := hrec.saveManifest
  rw [hnext, Option.getD_some] at hlt hmax hnumber hmanifest
  rw [hrec.logNumber, Option.getD_some] at hlt
  have hdbname : st.db.dbname = db.dbname := hp.dbname
  have hfile := hp.logFile
  simp only [hnumber] at hfile
  rw [← hdbname] at hfile
  cases hreused : db.versions.reusedNumber (db.versions.dbname ++ text "/" ++ current) current env₃ with
  | none =>
      -- a manifest is created: its number is the recorded one, and the new log is recorded in it
      rw [hreused] at hmanifest hsave
      obtain ⟨edit, edit', hhas, hedit, happly⟩ := hp.saved hsave
      have hnone : versions.newFileNumber.2.descriptorLog = none :=
        (hrec.descriptorLog hreused).trans hclosed
      obtain ⟨hlog, hman, f, hf, hdata⟩ := VersionSet.logAnyApply_switches hnone hhas happly
      have hdir : versions.newFileNumber.2.dbname = st.db.dbname :=
        hrec.dbname.trans (hname.trans hdbname.symm)
      rw [show versions.newFileNumber.2.manifestFileNumber = next from hmanifest] at hman hdata
      rw [hdir] at hf
      have hcurrent : env'.current st.db.dbname = some (descriptorBaseName next ++ [10#8]) := by
        rw [Env.current, hf, Option.map_some, hdata]
        rfl
      refine sparesNeeded_of_numbers hcurrent (parseFileName_descriptorBaseName next) ?_ hfile ?_
        live filenames
      · exact BitVec.le_of_eq hman
      · exact BitVec.le_of_eq (hlog.trans (hedit.trans hnumber))
  | some number =>
      -- the manifest that was read is used again, and `CURRENT` still names it
      rw [hreused] at hmanifest hsave
      obtain ⟨hversions, rfl⟩ := hp.kept hsave
      have hparse := parseFileName_of_reusedNumber hreused
      have hread : Env.Others [db.dbname ++ text "/" ++ current] env env₁ := by
        rw [← hname]
        exact hreads.others hrecover
      obtain ⟨file, hopen, -⟩ := hreads
      have hcurrent : env'.current st.db.dbname = some (current ++ [10#8]) := by
        have hkept : env'.files.lookup (currentFileName db.dbname)
            = env.files.lookup (currentFileName db.dbname) := by
          rw [hp.created _ (mt List.mem_singleton.mp (logFile_ne_current _ _).symm),
            hsame _ List.not_mem_nil, hread _ (mt List.mem_singleton.mp ?_)]
          rw [currentFileName_eq, inDirectory_inj]
          rintro rfl
          rw [show parseFileName (text "CURRENT") = some (0, .kCurrentFile) by decide] at hparse
          cases hparse
        rw [hdbname, Env.current, hkept, ← hname]
        exact hopen.current_eq.1
      refine sparesNeeded_of_numbers hcurrent hparse ?_ hfile ?_ live filenames
      · rw [hversions]
        exact BitVec.le_of_eq hmanifest
      · rw [hversions, BitVec.le_def, BitVec.toNat_add]
        show versions.logNumber.toNat ≤ _
        rw [Nat.mod_eq_of_lt (by rw [show (1 : U64).toNat = 1 from rfl]; omega)]
        omega

/-- Decides whether `Open` comes to the clean-up from here. -/
def reachesCleanUp (db : DbImpl) (env : Env) : Bool :=
  match db.versions.recover false 0 env with
  | .ok (s, saveManifest, versions, env₁) => s.isOk
      && match Opening.prepare { db := { db with versions := versions }, saveManifest := saveManifest }
        0 env₁ with
      | .ok (s, _, _) => s.isOk
      | .error _ => false
  | .error _ => false

theorem exists_comesToCleanUp {db : DbImpl} {env : Env} (h : reachesCleanUp db env = true) :
    ∃ st env', db.ComesToCleanUp 0 env st env' := by
  unfold reachesCleanUp at h
  split at h
  swap
  · cases h
  rename_i s saveManifest versions env₁ hrecover
  obtain ⟨hs, h⟩ := Bool.and_eq_true_iff.mp h
  cases (Status.isOk_iff s).mp hs
  split at h
  swap
  · cases h
  rename_i s st env' hprepare
  cases (Status.isOk_iff s).mp h
  exact ⟨st, env', saveManifest, versions, env₁, env₁, hrecover, Env.Others.refl _ _, hprepare⟩

theorem logBelowNext_seven :
    LogBelowNext VersionSet.oneVersionSet (VersionSet.withManifest (VersionSet.numbersEdit 4 7 0)) := by
  intro current env₂ edits hreads
  obtain ⟨saveManifest', vs', env', hrecover, hnext, hlog⟩ := VersionSet.exists_recover_ok
    (show VersionSet.succeedsWith VersionSet.oneVersionSet
      (VersionSet.withManifest (VersionSet.numbersEdit 4 7 0)) = some (8, 4) by decide +kernel)
  obtain ⟨current', env₂', edits', hreads', hset⟩ := VersionSet.recovered_of_ok hrecover
  obtain ⟨-, -, rfl, -⟩ := hreads'.unique hreads
  have hseven := hset.nextFileNumber
  rw [hnext] at hseven
  rw [hset.logNumber, hlog, Option.getD_some,
    show (VersionSet.lastRecorded VersionEdit.recordedNextFile edits).getD 0 = 7 by bv_omega]
  decide

/-- A manifest with the log number 4 and the next-file number 7. -/
theorem sparesNeeded_seven : ∃ st env',
    newDatabase.ComesToCleanUp 0 (VersionSet.withManifest (VersionSet.numbersEdit 4 7 0)) st env'
      ∧ ∀ live filenames, SparesNeeded st env' (st.db.removed live filenames) := by
  obtain ⟨st, env', h⟩ := exists_comesToCleanUp
    (show reachesCleanUp newDatabase (VersionSet.withManifest (VersionSet.numbersEdit 4 7 0)) = true
      by decide +kernel)
  exact ⟨st, env', h, sparesNeeded rfl rfl logBelowNext_seven h⟩

/-! ## `Open` -/

/-- A recovery that succeeds has come to the logs. -/
theorem opened_of_recover {db db' : DbImpl} {uninit : U32} {depth : Nat}
    {saveManifest saveManifest' : Bool} {env env' : Env} {handled : List U64}
    (h : recover uninit depth saveManifest db env = .ok (.ok, saveManifest', db', env', handled)) :
    ∃ saveManifest₁ db₁ env₁, Opened db saveManifest uninit env saveManifest₁ db₁ env₁ := by
  unfold recover recoverWith at h
  obtain ⟨⟨s₁, saveManifest₁, db₁, env₁⟩, hopen, h⟩ := bind_eq_ok.mp h
  rcases hlisting : env₁.getChildren db₁.dbname with ⟨s₂, filenames, env₂⟩
  simp only [hlisting] at h
  split_ifs at h with hok₁ hok₂
  · cases h
    simp at hok₁
  · cases h
    simp at hok₂
  obtain ⟨live, hlive, h⟩ := bind_eq_ok.mp h
  obtain ⟨⟨s₃, logs⟩, hscan, h⟩ := bind_eq_ok.mp h
  simp only at h
  split_ifs at h with hok₃
  · cases h
    simp at hok₃
  simp only [Bool.not_eq_true', Bool.not_eq_false, Status.isOk_iff] at hok₁ hok₂ hok₃
  subst hok₁ hok₂ hok₃
  refine ⟨saveManifest₁, db₁, env₁, hopen, ?_, live, logs, hlive, ?_⟩
  · rw [hlisting]
  · rw [hlisting]
    exact hscan

/-- It has found no log then: the first one would have ended the program. -/
theorem recover_eq_of_ok {db db' : DbImpl} {uninit : U32} {depth : Nat}
    {saveManifest saveManifest' : Bool} {env env' : Env} {handled : List U64}
    (h : recover uninit depth saveManifest db env = .ok (.ok, saveManifest', db', env', handled)) :
    ∃ env₁, db.openVersions saveManifest uninit env = .ok (.ok, saveManifest', db', env₁)
      ∧ env' = (env₁.getChildren db'.dbname).2.2 := by
  obtain ⟨saveManifest₁, db₁, env₁, hopened⟩ := opened_of_recover h
  by_cases hnil : db₁.logsToHandle env₁ = []
  · rw [hopened.recover_of_nil hnil] at h
    cases h
    exact ⟨env₁, hopened.versions, rfl⟩
  · cases depth with
    | zero =>
        obtain ⟨log, logs, hlogs⟩ := List.exists_cons_of_ne_nil hnil
        rw [hopened.recover_eq, hlogs, recoverLogs, recoverLogFile] at h
        cases h
    | succ depth =>
        rw [hopened.recover_of_log hnil] at h
        cases h

theorem recover_of_openVersions {db db' : DbImpl} {saveManifest saveManifest' : Bool}
    {uninit : U32} {env env' : Env}
    (h : db.openVersions saveManifest uninit env = .ok (.ok, saveManifest', db', env')) :
    ∃ lock versions env₁,
      db.versions.recover saveManifest uninit env₁ = .ok (.ok, saveManifest', versions, env')
        ∧ db' = { db with dbLock := lock, versions := versions } := by
  unfold openVersions at h
  rcases hcreate : env.createDir db.dbname with ⟨s₀, env₀⟩
  rw [hcreate] at h
  obtain ⟨_, -, h⟩ := bind_eq_ok.mp h
  rcases hrequest : env₀.lockFile (lockFileName db.dbname) with ⟨s, env₁⟩
  rw [hrequest] at h
  simp only at h
  split_ifs at h with hok
  · cases h
    simp at hok
  obtain ⟨⟨s₁, env₂⟩, -, h⟩ := bind_eq_ok.mp h
  simp only at h
  split_ifs at h with hok₁
  · cases h
    simp at hok₁
  obtain ⟨⟨s₂, save₂, versions, env₃⟩, hrecover, h⟩ := bind_eq_ok.mp h
  cases h
  exact ⟨_, versions, env₂, hrecover, rfl⟩

/-- An `Open` that succeeds comes to the clean-up. -/
theorem comesToCleanUp_of_openConstructed {db db' : DbImpl} {uninit : U32} {depth : Nat}
    {env env' : Env}
    (h : db.openConstructed uninit depth env = .ok (.ok, db', env')) :
    ∃ lock env₁ env₂ st, ComesToCleanUp { db with dbLock := lock } uninit env₁ st env₂ ∧ st.db = db'
      ∧ st.db.removeObsoleteFiles env₂ = .ok env' := by
  unfold openConstructed at h
  obtain ⟨⟨s, saveManifest, db₁, env₁, handled⟩, hrecover, h⟩ := bind_eq_ok.mp h
  simp only at h
  split_ifs at h with hok
  · cases h
    simp at hok
  obtain ⟨⟨s₁, st, env₂⟩, hprepare, h⟩ := bind_eq_ok.mp h
  simp only at h
  split_ifs at h with hok₁
  · cases h
    simp at hok₁
  obtain ⟨env₃, hclean, h⟩ := bind_eq_ok.mp h
  cases h
  simp only [Bool.not_eq_true', Bool.not_eq_false, Status.isOk_iff] at hok hok₁
  subst hok hok₁
  obtain ⟨env₄, hopen, rfl⟩ := recover_eq_of_ok hrecover
  obtain ⟨lock, versions, env₅, hversions, rfl⟩ := recover_of_openVersions hopen
  exact ⟨lock, env₅, env₂, st, ⟨saveManifest, versions, env₄, _, hversions,
    fun g _ => Env.lookup_getChildren db.dbname g env₄, hprepare⟩, rfl, hclean⟩

end DbImpl

end SimpleLeveldb
