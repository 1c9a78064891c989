import SimpleLeveldb.Listing
import SimpleLeveldb.OpenRuns
import SimpleLeveldb.Version.Liveness

set_option autoImplicit false

/-! # Making a database

When nothing fails, what `Open` does behind its constructor makes a database in a directory without
`CURRENT` if no name in the directory is that of a log, and ends the program if there is one
(`openConstructed_creates`).
-/

namespace SimpleLeveldb

/-! ## Environments in which nothing fails -/

namespace Env

variable {env : Env}

theorem Healthy.act (h : env.Healthy) {f : Env → Status × Env}
    (hf : ∀ env : Env, env.Healthy → (f env).2.Healthy) : (env.act f).2.Healthy := by
  rw [act_of_allOk h.allOk]
  exact hf _ ⟨h.allOk.tail, h.reads⟩

/-- Other files, of which the reads succeed -/
theorem Healthy.withFiles (h : env.Healthy) {files : AList fun _ : Bytes => File}
    (hfiles : ∀ g f, files.lookup g = some f → f.readScript = []) :
    ({ env with files := files } : Env).Healthy :=
  ⟨h.allOk, fun e he => hfiles e.1 e.2 (AList.mem_lookup_iff.mpr he)⟩

theorem Healthy.insert (h : env.Healthy) {files : AList fun _ : Bytes => File} (fname : Bytes)
    {file : File} (hfile : file.readScript = [])
    (hfiles : ∀ g f, files.lookup g = some f → f.readScript = []) :
    ({ env with files := files.insert fname file } : Env).Healthy := by
  refine h.withFiles fun g f hf => ?_
  by_cases hg : g = fname
  · subst hg
    rw [AList.lookup_insert] at hf
    cases hf
    exact hfile
  · rw [AList.lookup_insert_ne hg] at hf
    exact hfiles g f hf

theorem Healthy.lookup_erase (h : env.Healthy) {fname g : Bytes} {f : File}
    (hf : (env.files.erase fname).lookup g = some f) : f.readScript = [] := by
  by_cases hg : g = fname
  · subst hg
    rw [AList.lookup_erase] at hf
    cases hf
  · rw [AList.lookup_erase_ne hg] at hf
    exact h.readScript hf

theorem Healthy.modify (h : env.Healthy) (fname : Bytes) {f : File → File}
    (hf : ∀ file, (f file).readScript = file.readScript) : (env.modify fname f).Healthy := by
  unfold Env.modify
  cases hfile : env.files.lookup fname with
  | none => exact h
  | some file => exact h.insert fname ((hf file).trans (h.readScript hfile)) fun _ _ => h.readScript

theorem Healthy.newWritableFile (h : env.Healthy) (fname : Bytes) :
    (env.newWritableFile fname).2.Healthy :=
  h.act fun _ h => h.insert fname rfl fun _ _ => h.readScript

theorem Healthy.newAppendableFile (h : env.Healthy) (fname : Bytes) :
    (env.newAppendableFile fname).2.Healthy := by
  refine h.act fun env h => ?_
  simp only
  split_ifs
  · exact h
  · exact h.insert fname rfl fun _ _ => h.readScript

theorem Healthy.append (h : env.Healthy) (fname data : Bytes) :
    (env.append fname data).2.Healthy :=
  h.act fun _ h => h.modify fname fun _ => rfl

theorem Healthy.sync (h : env.Healthy) (fname : Bytes) : (env.sync fname).2.Healthy :=
  h.act fun _ h => h.modify fname fun _ => rfl

theorem Healthy.flush (h : env.Healthy) (fname : Bytes) : (env.flush fname).2.Healthy :=
  h.act fun _ h => h

theorem Healthy.close (h : env.Healthy) (fname : Bytes) : (env.close fname).2.Healthy :=
  h.act fun _ h => h

theorem Healthy.removeFile (h : env.Healthy) (fname : Bytes) : (env.removeFile fname).2.Healthy :=
  h.act fun _ h => h.withFiles fun _ _ => h.lookup_erase

theorem Healthy.renameFile (h : env.Healthy) (src target : Bytes) :
    (env.renameFile src target).2.Healthy := by
  refine h.act fun env h => ?_
  cases hfile : env.files.lookup src with
  | none => exact h
  | some file => exact h.insert target (h.readScript hfile) fun _ _ => h.lookup_erase

theorem Healthy.newSequentialFile (h : env.Healthy) (fname : Bytes) :
    (env.newSequentialFile fname).2.2.Healthy := by
  have hact : (env.act fun env =>
      (if fname ∈ env.files then .ok else .notFound fname, env)).2.Healthy := h.act fun _ h => h
  rw [Env.newSequentialFile]
  simp only
  split <;> exact hact

theorem Healthy.getFileSize (h : env.Healthy) (fname : Bytes) :
    (env.getFileSize fname).2.2.Healthy :=
  h.act (f := fun env => (if fname ∈ env.files then .ok else .notFound fname, env)) fun _ h => h

theorem Healthy.getChildren (h : env.Healthy) (dir : Bytes) :
    (env.getChildren dir).2.2.Healthy :=
  h.act (f := fun env => (.ok, env)) fun _ h => h

theorem Healthy.createDir (h : env.Healthy) (dirname : Bytes) : (env.createDir dirname).2.Healthy :=
  h.act fun _ h => h

/-- A lock that this process does not hold is acquired. -/
theorem Healthy.lockFile (h : env.Healthy) {fname : Bytes} (hfree : fname ∉ env.locked) :
    (env.lockFile fname).1 = .ok ∧ (env.lockFile fname).2.Healthy := by
  have hok : ({ env with lockRequests := env.lockRequests + 1 } : Env).AllOk := h.allOk
  rw [Env.lockFile, act_of_allOk hok, if_neg hfree]
  exact ⟨rfl, h.allOk.tail, h.reads⟩

end Env

/-! ## Programs in such environments -/

namespace Steps

open Prog (Preserves op lift)

theorem preserves_onOk {Inv : Env → Prop} {next : Prog Fault Env Status} (s : Status)
    (h : Preserves Inv next) : Preserves Inv (onOk s next) :=
  Preserves.ite h (Preserves.ret _)

theorem preserves_orRemove (s : Status) (fname : Bytes) :
    Preserves Env.Healthy (orRemove s fname) :=
  Preserves.ite (Preserves.ret _)
    ((Preserves.op fun _ h => h.removeFile fname).bind fun _ => Preserves.ret _)

theorem preserves_addRecord (w : Log.Writer) (sle : Bytes) :
    Preserves Env.Healthy (addRecord w sle) := by
  have happend : ∀ (dest data : Bytes), Preserves Env.Healthy
      (op (Env.append dest data) : Prog Fault Env Status) :=
    fun dest data => Preserves.op fun _ h => h.append dest data
  have hswitch : ∀ w, Preserves Env.Healthy (switchBlock w) := by
    intro w
    refine Preserves.ite ?_ (Preserves.ret _)
    exact Preserves.ite ((happend _ _).bind fun _ => Preserves.ret _) (Preserves.ret _)
  have hemit : ∀ w type ptr, Preserves Env.Healthy (emitPhysicalRecord w type ptr) := by
    intro w type ptr
    refine (Preserves.lift _).bind fun _ => (Preserves.lift _).bind fun _ => ?_
    refine (happend _ _).bind fun s => ?_
    refine (preserves_onOk s (happend _ _)).bind fun s => ?_
    exact (preserves_onOk s (Preserves.op fun _ h => h.flush w.dest)).bind fun _ => Preserves.ret _
  refine Preserves.loop (fun st => ?_) _ _
  obtain ⟨b, ptr, w⟩ := st
  refine (Preserves.lift _).bind fun _ => (hswitch w).bind fun w => (Preserves.lift _).bind fun _ => ?_
  exact (hemit _ _ _).bind fun _ => Preserves.ite (Preserves.ret _) (Preserves.ret _)

theorem preserves_setCurrentFile (dbname : Bytes) (number : U64) :
    Preserves Env.Healthy (setCurrentFile dbname number) := by
  have hwrite : ∀ data fname, Preserves Env.Healthy (writeStringToFileSync data fname) := by
    intro data fname
    refine (Preserves.op fun _ h => h.newWritableFile fname).bind fun s =>
      Preserves.ite ?_ (Preserves.ret _)
    refine (Preserves.op fun _ h => h.append fname data).bind fun s => ?_
    refine (preserves_onOk s (Preserves.op fun _ h => h.sync fname)).bind fun s => ?_
    exact (preserves_onOk s (Preserves.op fun _ h => h.close fname)).bind fun s =>
      preserves_orRemove s fname
  refine (Preserves.lift _).bind fun manifest => (Preserves.lift _).bind fun _ =>
    (Preserves.lift _).bind fun tmp => (hwrite _ tmp).bind fun s => ?_
  exact (preserves_onOk s (Preserves.op fun _ h => h.renameFile _ _)).bind fun s =>
    preserves_orRemove s tmp

theorem preserves_newDb (db : DbImpl) (uninit : U32) : Preserves Env.Healthy (newDb db uninit) := by
  refine (Preserves.lift _).bind fun manifest => ?_
  refine (Preserves.op fun _ h => h.newWritableFile manifest).bind fun s =>
    Preserves.ite (Preserves.ret _) ?_
  refine (Preserves.lift _).bind fun record => (preserves_addRecord _ record).bind fun r => ?_
  refine (preserves_onOk _ (Preserves.op fun _ h => h.sync manifest)).bind fun s => ?_
  exact (preserves_onOk s (Preserves.op fun _ h => h.close manifest)).bind fun s =>
    Preserves.ite (preserves_setCurrentFile _ _) (preserves_orRemove s manifest)

theorem preserves_reuseManifest (vs : VersionSet) (dscname dscbase : Bytes) (uninit : U32) :
    Preserves Env.Healthy (reuseManifest vs dscname dscbase uninit) := by
  refine Preserves.ite (Preserves.ret _) ?_
  split
  · refine (Preserves.op fun _ h => h.getFileSize dscname).bind fun r => ?_
    simp only
    split_ifs
    · exact Preserves.ret _
    refine (Preserves.lift _).bind fun _ => (Preserves.lift _).bind fun _ => ?_
    refine (Preserves.op fun _ h => h.newAppendableFile dscname).bind fun r => ?_
    split_ifs
    · exact (Preserves.lift _).bind fun _ => Preserves.ret _
    · exact Preserves.ret _
  · exact Preserves.ret _

theorem preserves_recover (vs : VersionSet) (saveManifest : Bool) (uninit : U32) :
    Preserves Env.Healthy (recover vs saveManifest uninit) := by
  have hopen : ∀ fname, Preserves Env.Healthy (newSequentialFile fname) :=
    fun fname => Preserves.op fun _ h => h.newSequentialFile fname
  have hfinish : ∀ vs st s prev dscname current save, Preserves Env.Healthy
      (finishRecover vs st s prev dscname current save uninit) := by
    intro vs st s prev dscname current save
    refine Preserves.ite ?_ (Preserves.ret _)
    refine (Preserves.lift _).bind fun _ => (Preserves.lift _).bind fun _ => ?_
    exact (preserves_reuseManifest _ _ _ _).bind fun _ => Preserves.ret _
  have hread : Preserves Env.Healthy (readFileToString (currentFileName vs.dbname)) :=
    (hopen _).bind fun r => Preserves.ite (Preserves.ret _) (Preserves.lift _)
  refine hread.bind fun r => Preserves.ite (Preserves.ret _) (Preserves.ite (Preserves.ret _) ?_)
  refine (hopen _).bind fun r => Preserves.ite
    (Preserves.ite (Preserves.ret _) (Preserves.ret _)) ?_
  refine (Preserves.lift _).bind fun _ => (Preserves.lift _).bind fun _ => ?_
  exact (hfinish _ _ _ _ _ _ _).bind fun _ => (Preserves.lift _).bind fun _ => Preserves.ret _

end Steps

open Env (Healthy)
open Journal (HasNumbers Readable)

/-! ## `NewDB` and `recover` -/

namespace DbImpl

variable {env : Env}

/-- The files that `NewDB` writes -/
def newDbNames (dbname : Bytes) : List Bytes :=
  [dbname ++ text "/" ++ descriptorBaseName 1, makeFileName dbname 1 "dbtmp", currentFileName dbname]

/-- **`NewDB` succeeds** when nothing fails. -/
theorem newDb_of_healthy (db : DbImpl) (uninit : U32) (h : env.Healthy) :
    ∃ env', db.newDb uninit env = .ok (.ok, env')
    ∧ env'.Healthy ∧ Env.Others (newDbNames db.dbname) env env' := by
  obtain ⟨record, hrecord⟩ : ∃ record, (newDbEdit db.userComparator.name).encodeTo = .ok record :=
    ⟨_, rfl⟩
  set manifest := db.dbname ++ text "/" ++ descriptorBaseName 1
  have hname : descriptorFileName db.dbname 1 = .ok manifest := rfl
  have hnew := (Env.performs_newWritableFile manifest env).ok_iff.mpr (h.allOk.passes _)
  have h₁ := h.newWritableFile manifest
  obtain ⟨r, w, hadd, hperforms, -⟩ :=
    (Log.Writer.new manifest uninit).addRecord_performs (Nat.zero_le _) record
      (env.newWritableFile manifest).2
  have h₂ : r.2.Healthy :=
    (Steps.preserves_addRecord _ record).of_outcome h₁ (by rw [Steps.outcome_addRecord, hadd]; rfl)
  have hr : r.1 = .ok := hperforms.ok_iff.mpr (h₁.allOk.passes _)
  have hsync := (Env.performs_sync manifest r.2).ok_iff.mpr (h₂.allOk.passes _)
  have hclose := (Env.performs_close manifest (r.2.sync manifest).2).ok_iff.mpr
    ((h₂.sync manifest).allOk.passes _)
  obtain ⟨r', hcurrent, hswitch⟩ := setCurrentFile_performs db.dbname
    (show (0 : U64) < 1 by decide) ((r.2.sync manifest).2.close manifest).2
  have hr' : r'.1 = .ok := hswitch.ok_iff.mpr (((h₂.sync manifest).close manifest).allOk.passes _)
  have hrun : db.newDb uninit env = .ok (.ok, r'.2) := by
    rw [newDb, hname]
    simp only [ok_bind, hnew, hrecord, hadd, Env.andThen, hr, hsync, hclose, Status.isOk_ok, if_true,
      Bool.not_true, Bool.false_eq_true, if_false, hcurrent]
    exact congrArg Except.ok (Prod.ext hr' rfl)
  refine ⟨r'.2, hrun, (Steps.preserves_newDb db uninit).of_outcome h
    ((Steps.outcome_newDb db uninit env).trans hrun), ?_⟩
  have hmanifest : [manifest] ⊆ newDbNames db.dbname := by simp [newDbNames, manifest]
  have hadded : Env.Others [manifest] env r.2 :=
    (Env.others_newWritableFile manifest env).trans (Log.Writer.addRecord_others rfl hadd).1
  have hclosed := (hadded.trans (Env.others_sync manifest r.2)).trans
    ((Env.others_close manifest _).mono (List.nil_subset _))
  exact (hclosed.mono hmanifest).trans
    ((setCurrentFile_others hcurrent).mono (List.subset_cons_self _ _))

end DbImpl

/-- What has been stored can be recovered when nothing fails. -/
theorem Journal.Kept.exists_recover {dbname name : Bytes} {env : Env} {applied : List VersionEdit}
    (h : Journal.Kept False dbname name ⟨env, none, applied⟩) (happlied : applied ≠ [])
    (hall : ∀ e ∈ applied, Readable name e) (hhealthy : env.Healthy) {vs : VersionSet}
    (hfresh : vs.Fresh dbname name) (saveManifest : Bool) (uninit : U32) :
    ∃ saveManifest' vs' env', vs.recover saveManifest uninit env
      = .ok (.ok, saveManifest', vs', env') ∧ env'.Healthy
      ∧ ∃ number, Env.Others [dbname ++ text "/" ++ descriptorBaseName number] env env' := by
  cases h.stored with
  | nothing hnil _ _ => exact absurd hnil happlied
  | manifest number records tail read hdisk hdecode hreflects _ _ =>
      obtain ⟨l, hl⟩ := hfresh.list
      obtain ⟨hkeys, hcomplete⟩ := Journal.complete_of_reflects hreflects hall
      rw [← hfresh.comparator] at hcomplete
      have hfile : vs.descriptorFile = none := by
        rw [hfresh.file, hfresh.closed]
        rfl
      obtain ⟨saveManifest', vs', env', hrec⟩ := hdisk.accepts hhealthy hfresh.dbname_eq hl.listed
        hl.ne_nil hfile hfresh.closed hdecode hkeys hcomplete saveManifest uninit
      have hhealthy' := (Steps.preserves_recover vs saveManifest uninit).of_outcome hhealthy
        (by rw [Steps.outcome_recover, hrec]; rfl)
      refine ⟨saveManifest', vs', env', hrec, hhealthy', number, ?_⟩
      obtain ⟨current, env₂, edits, hreads, -⟩ := VersionSet.recovered_of_ok hrec
      have hothers := hreads.others hrec
      rw [hfresh.dbname_eq, (hdisk.reads hfresh.dbname_eq hdecode hreads).1] at hothers
      exact hothers

/-! ## `log_any_apply` -/

namespace VersionSet

variable {dbname name : Bytes} {vs : VersionSet} {env : Env} {edit edit' : VersionEdit}

/-- The operations of a call that makes a manifest -/
theorem exists_writeOps_of_none (hlog : vs.descriptorLog = none) (hfile : vs.descriptorFile = none)
    (hnumber : 0 < vs.manifestFileNumber) {record : Bytes} (hrecord : edit.encodeTo = .ok record)
    {snap : VersionEdit} (hsnap : vs.snapShot = .ok snap) {first : Bytes}
    (hfirst : snap.encodeTo = .ok first) : ∃ ops, vs.writeOps edit = .ok ops := by
  rw [writeOps, hrecord, hlog]
  simp only [ok_bind, require_of hfile, descriptorFileName, require_of hnumber, hsnap, hfirst]
  exact ⟨_, rfl⟩

/-- **A call for an edit without files** makes a manifest when nothing fails, if the numbers of the
edit are as the assertions want them. -/
theorem Bare.logAnyApply_of_healthy (h : Bare dbname name vs) (hlog : vs.descriptorLog = none)
    (hnumber : 0 < vs.manifestFileNumber) (hcomplete : vs.completeEdit edit = .ok edit')
    (hcp : edit'.compactPointers = []) (hnew : edit'.newFiles = []) (hdeleted : edit'.deletedFiles = ∅)
    (hhealthy : env.Healthy) (uninit : U32) :
    ∃ edit' vs' env' l, vs.logAnyApply edit uninit env = .ok (.ok, edit', vs', env')
      ∧ Ready vs' l := by
  obtain ⟨l, hl⟩ := h.list
  have hc : vs.list.current = some (l.getLast hl.ne_nil) := by
    rw [hl.listed.current]
    exact List.getLast?_eq_some_getLast hl.ne_nil
  obtain ⟨built, -, hall⟩ := buildVersion_eq hl.listed hc
  -- nothing is asserted about an edit without files
  obtain ⟨b, happly⟩ : ∃ b, Builder.apply vs.icmp vs.compactPointer { base := l.getLast hl.ne_nil }
      edit' = .ok (vs.compactPointer, b) := by
    rw [Builder.apply, hcp, hnew, hdeleted, applyDeletedFiles, if_pos (by simp)]
    exact ⟨_, rfl⟩
  have hbuild := hall edit'
  rw [happly] at hbuild
  obtain ⟨-, -, -, hbare⟩ := h.buildVersion hl hcp hbuild
  obtain ⟨record, hrecord⟩ : ∃ record, edit'.encodeTo = .ok record := by
    rw [VersionEdit.encodeTo, hcp, hnew]
    exact ⟨_, rfl⟩
  obtain ⟨snap, hsnap⟩ : ∃ snap, (({} : VersionEdit).setComparatorName name).encodeTo = .ok snap :=
    ⟨_, rfl⟩
  have hfile : vs.descriptorFile = none := by
    rw [h.file, hlog]
    rfl
  obtain ⟨ops, hops⟩ : ∃ ops, vs.operations edit = .ok ops := by
    rw [VersionSet.operations, hcomplete, ok_bind, hbuild]
    exact exists_writeOps_of_none hlog hfile hnumber hrecord hbare.snapShot hsnap
  exact logAnyApply_of_passes (h.ready hl) hops uninit (hhealthy.allOk.passes ops)

end VersionSet

/-! ## `Open` -/

namespace DbImpl

variable {db db' : DbImpl} {uninit : U32} {env env' : Env} {name : Bytes} {applied : List VersionEdit}
  {saveManifest saveManifest' : Bool}

/-- A process that can open the database `db`: it has the comparator `name`, nothing fails, and nobody
holds the lock. -/
structure Starts (db : DbImpl) (name : Bytes) (env : Env) : Prop where
  fresh : db.versions.Fresh db.dbname name
  healthy : env.Healthy
  dbLock : db.dbLock = none
  unlocked : lockFileName db.dbname ∉ env.locked

/-- The logs of a directory are left as they are. -/
def SameLogs (dbname : Bytes) (env env' : Env) : Prop :=
  ∀ name number, parseFileName name = some (number, .kLogFile) →
    env'.files.lookup (dbname ++ text "/" ++ name) = env.files.lookup (dbname ++ text "/" ++ name)

/-- There is a log in the directory. -/
def HasLogFile (dbname : Bytes) (env : Env) : Prop :=
  ∃ name ∈ env.children dbname, ∃ number, parseFileName name = some (number, .kLogFile)

theorem SameLogs.trans {dbname : Bytes} {env₁ env₂ env₃ : Env} (h₁ : SameLogs dbname env₁ env₂)
    (h₂ : SameLogs dbname env₂ env₃) : SameLogs dbname env₁ env₃ :=
  fun name number hlog => (h₂ name number hlog).trans (h₁ name number hlog)

/-- A file that is not a log by its name -/
theorem SameLogs.of_others {dbname : Bytes} {names : List Bytes} (h : Env.Others names env env')
    (hnames : ∀ file ∈ names, ∃ base number type, file = dbname ++ text "/" ++ base
      ∧ parseFileName base = some (number, type) ∧ type ≠ .kLogFile) : SameLogs dbname env env' := by
  refine fun name number hlog => h _ fun hmem => ?_
  obtain ⟨base, number', type, hfile, hparse, hne⟩ := hnames _ hmem
  rw [inDirectory_inj] at hfile
  rw [← hfile, hlog] at hparse
  cases hparse
  exact hne rfl

theorem SameLogs.hasLogFile {dbname : Bytes} (h : SameLogs dbname env env') :
    HasLogFile dbname env' ↔ HasLogFile dbname env := by
  refine exists_congr fun name => ?_
  rw [Env.mem_children_iff, Env.mem_children_iff, ← AList.lookup_isSome, ← AList.lookup_isSome]
  constructor
  · rintro ⟨hmem, number, hlog⟩
    exact ⟨(h name number hlog) ▸ hmem, number, hlog⟩
  · rintro ⟨hmem, number, hlog⟩
    exact ⟨(h name number hlog).symm ▸ hmem, number, hlog⟩

theorem sameLogs_descriptorFile {dbname : Bytes} {number : U64}
    (h : Env.Others [dbname ++ text "/" ++ descriptorBaseName number] env env') :
    SameLogs dbname env env' :=
  SameLogs.of_others h fun _ hmem => ⟨_, _, _, List.mem_singleton.mp hmem,
    parseFileName_descriptorBaseName number, nofun⟩

/-- `NewDB` makes no log. -/
theorem sameLogs_newDb {dbname : Bytes} (h : Env.Others (newDbNames dbname) env env') :
    SameLogs dbname env env' := by
  refine SameLogs.of_others h fun file hmem => ?_
  simp only [newDbNames, List.mem_cons, List.not_mem_nil, or_false] at hmem
  rcases hmem with rfl | rfl | rfl
  · exact ⟨_, _, _, rfl, parseFileName_descriptorBaseName 1, nofun⟩
  · exact ⟨_, 1, .kTempFile, makeFileName_eq _ _ _, by decide +kernel, nofun⟩
  · exact ⟨_, 0, .kCurrentFile, currentFileName_eq _, by decide, nofun⟩

/-- What `ensureDb` leaves -/
structure Ensured (db : DbImpl) (uninit : U32) (name : Bytes) (env : Env)
    (applied : List VersionEdit) (env' : Env) : Prop where
  returns : db.ensureDb uninit env = .ok (.ok, env')
  healthy : env'.Healthy
  kept : Journal.Kept False db.dbname name ⟨env', none, applied⟩
  sameLogs : SameLogs db.dbname env env'

/-- The version set is opened, when there is a database by then. -/
theorem Starts.openVersions (h : Starts db name env) (happlied : applied ≠ [])
    (hall : ∀ e ∈ applied, Readable name e) (saveManifest : Bool)
    (hensure : ∀ env₀ : Env, env₀.files = env.files → env₀.Healthy →
      ∃ env', Ensured db uninit name env₀ applied env') :
    ∃ saveManifest' db' env', db.openVersions saveManifest uninit env
      = .ok (.ok, saveManifest', db', env') ∧ env'.Healthy ∧ db'.versions.Bare db.dbname name
      ∧ SameLogs db.dbname env env' := by
  have hcreated := h.healthy.createDir db.dbname
  have hunlocked : lockFileName db.dbname ∉ (env.createDir db.dbname).2.locked := by
    rw [Env.createDir, Env.act_of_allOk h.healthy.allOk]
    exact h.unlocked
  obtain ⟨hok, hlocked⟩ := hcreated.lockFile hunlocked
  have hfiles := (Env.lockFile_files (lockFileName db.dbname) (env.createDir db.dbname).2).trans
    (Env.createDir_files db.dbname env)
  obtain ⟨env₁, hens⟩ := hensure _ hfiles hlocked
  obtain ⟨save', vs', env₂, hrecover, hhealthy, number, hothers⟩ :=
    hens.kept.exists_recover happlied hall hens.healthy h.fresh saveManifest uninit
  refine ⟨save', { db with dbLock := some (lockFileName db.dbname), versions := vs' }, env₂, ?_,
    hhealthy, (h.fresh.toBare.recover False applied hrecover).1,
    SameLogs.trans (fun _ _ _ => congrArg (AList.lookup _) hfiles)
      (hens.sameLogs.trans (sameLogs_descriptorFile hothers))⟩
  have hensure' : ({ db with dbLock := some (lockFileName db.dbname) } : DbImpl).ensureDb uninit
      ((env.createDir db.dbname).2.lockFile (lockFileName db.dbname)).2 = .ok (.ok, env₁) :=
    hens.returns
  rw [DbImpl.openVersions]
  simp only [require_of h.dbLock, ok_bind, hok, Status.isOk_ok, Bool.not_true, Bool.false_eq_true,
    if_false, hensure', hrecover]
  rfl

theorem addLiveFiles_of_bare {vs : VersionSet} {dbname : Bytes} (h : vs.Bare dbname name) :
    vs.addLiveFiles = .ok [] := by
  obtain ⟨l, hl⟩ := h.list
  have hnumbers : l.flatMap vs.list.numbersOf = [] := by
    rw [List.flatMap_eq_nil_iff]
    intro p hp
    rw [VersionList.numbersOf, hl.filesOf p hp, List.map_nil]
  rw [VersionSet.addLiveFiles, hl.listed.toLinked.addLiveFiles, hnumbers]

/-- **`Recover` comes to the logs** when nothing fails. -/
theorem Starts.opened (h : Starts db name env) (uninit : U32) (happlied : applied ≠ [])
    (hall : ∀ e ∈ applied, Readable name e)
    (hensure : ∀ env₀ : Env, env₀.files = env.files → env₀.Healthy →
      ∃ env', Ensured db uninit name env₀ applied env') :
    ∃ saveManifest' db' env', Opened db false uninit env saveManifest' db' env' ∧ env'.Healthy
      ∧ SameLogs db.dbname env env' := by
  obtain ⟨save', db', env', hopen, hhealthy, hbare, hsame⟩ := h.openVersions happlied hall false hensure
  have hlisted : (env'.getChildren db'.dbname).1 = .ok := by
    rw [Env.getChildren, Env.act_of_allOk hhealthy.allOk]
  obtain ⟨logs, hscan⟩ := scanListing_nil db' db'.versions.logNumber db'.versions.prevLogNumber
    (env'.getChildren db'.dbname).2.1 []
  exact ⟨save', db', env', ⟨hopen, hlisted, [], logs, addLiveFiles_of_bare hbare, hscan⟩, hhealthy,
    hsame⟩

end DbImpl

namespace DbImpl

variable {db db' : DbImpl} {uninit : U32} {env env' : Env} {name : Bytes} {saveManifest : Bool}

/-- Without `CURRENT` a database is made. -/
theorem exists_ensured_new (hname : db.userComparator.name = name) (hshort : ShortName name)
    (hcreate : db.options.createIfMissing = true) (habsent : env.current db.dbname = none)
    (hhealthy : env.Healthy) (uninit : U32) :
    ∃ env', Ensured db uninit name env [newDbEdit name] env' := by
  obtain ⟨env', hnew, hhealthy', hothers⟩ := newDb_of_healthy db uninit hhealthy
  have hempty : Journal.Kept False db.dbname name ⟨env, none, []⟩ := Journal.kept_nothing habsent
  have hmade := hempty.newDb ⟨rfl, hname, habsent⟩
    (fun record hrecord => allFit_newDbEdit (hname ▸ hshort) hrecord) hnew
  simp only [Status.isOk_ok, if_true, List.nil_append, hname] at hmade
  refine ⟨env', ?_, hhealthy', hmade, sameLogs_newDb hothers⟩
  rw [ensureDb, fileExists_currentFileName, habsent]
  simpa only [Option.isSome_none, Bool.not_false, if_true, hcreate] using hnew

/-- With `CURRENT` the database is there. -/
theorem exists_ensured_old (hexists : db.options.errorIfExists = false) {applied : List VersionEdit}
    (hkept : Journal.Kept False db.dbname name ⟨env, none, applied⟩) (happlied : applied ≠ [])
    (hhealthy : env.Healthy) (uninit : U32) : ∃ env', Ensured db uninit name env applied env' := by
  have hcurrent : (env.current db.dbname).isSome = true := by
    cases hkept.stored with
    | nothing hnil _ _ => exact absurd hnil happlied
    | manifest number records tail read hdisk _ _ _ _ =>
        have hc : env.current db.dbname = _ := hdisk.current
        rw [hc, Option.isSome_some]
  refine ⟨env, ?_, hhealthy, hkept, fun _ _ _ => rfl⟩
  rw [ensureDb, fileExists_currentFileName, hcurrent, hexists]
  rfl

/-- As long as the recorded log number is 0, every log is one that `Recover` must handle. -/
theorem logsToHandle_eq_nil_iff_hasLogFile (hnumber : db.versions.logNumber = 0)
    (hlisted : (env.getChildren db.dbname).1 = .ok) :
    db.logsToHandle env = [] ↔ ¬ HasLogFile db.dbname env := by
  rw [logsToHandle_eq_nil_iff, Env.getChildren_of_ok hlisted, HasLogFile, hnumber]
  have hrelevant : ∀ name, relevantLog 0 db.versions.prevLogNumber name = none
      ↔ ¬ ∃ number, parseFileName name = some (number, .kLogFile) := by
    intro name
    rw [relevantLog]
    split
    · rename_i number hparse
      have hle : (0 : U64) ≤ number := Nat.zero_le _
      rw [if_pos (.inl hle)]
      simp [hparse]
    · rename_i hnone
      simp only [true_iff]
      rintro ⟨number, hlog⟩
      exact hnone number hlog
  simp only [hrelevant]
  constructor
  · rintro h ⟨name, hmem, hlog⟩
    exact h name hmem hlog
  · exact fun h name hmem hlog => h ⟨name, hmem, hlog⟩

end DbImpl

namespace DbImpl

variable {db db' : DbImpl} {uninit : U32} {env env' : Env} {name : Bytes} {saveManifest : Bool}

theorem exists_removeObsoleteFiles {l : List VersionPtr} (h : VersionList.Listed db.versions.list l)
    (env : Env) : ∃ env', db.removeObsoleteFiles env = .ok env' := by
  rw [removeObsoleteFiles]
  split_ifs
  · exact ⟨env, rfl⟩
  · rw [VersionSet.addLiveFiles, h.toLinked.addLiveFiles]
    exact ⟨_, rfl⟩

/-- **Between the recovery and the clean-up** nothing fails: the log gets the number 3, which is a new
one and is above the one that the first edit records. -/
theorem exists_prepare (hbare : db.versions.Bare db.dbname name)
    (hnumbers : HasNumbers db.versions (newDbEdit name)) (hhealthy : env.Healthy)
    (hmanifest : saveManifest = true →
      db.versions.descriptorLog = none ∧ 0 < db.versions.manifestFileNumber) (uninit : U32) :
    ∃ st env' l, Opening.prepare { db := db, saveManifest := saveManifest } uninit env
      = .ok (.ok, st, env') ∧ VersionList.Listed st.db.versions.list l := by
  have hthree : db.versions.nextFileNumber = 3 := hnumbers.nextFileNumber
  have hzero : db.versions.logNumber = 0 := hnumbers.logNumber
  set logName := makeFileName db.dbname 3 "log"
  have hname : logFileName db.dbname 3 = .ok logName := rfl
  have hnew := (Env.performs_newWritableFile logName env).ok_iff.mpr (hhealthy.allOk.passes _)
  have hhealthy₁ := hhealthy.newWritableFile logName
  have hbare₁ : VersionSet.Bare db.dbname name db.versions.newFileNumber.2 :=
    ⟨hbare.dbname_eq, hbare.comparator, hbare.compactPointer, hbare.list, hbare.file, hbare.log⟩
  set versions := db.versions.newFileNumber.2 with hversions
  set edit : VersionEdit := ((({} : VersionEdit).setLogNumber 3).setPrevLogNumber 0).setLogNumber 3
  have hcreate : Opening.createLog { db := db, saveManifest := saveManifest } env
      = .ok (.ok, ⟨{ db with versions := versions }, saveManifest, ({} : VersionEdit).setLogNumber 3,
        some logName, 3⟩, (env.newWritableFile logName).2) := by
    rw [Opening.createLog]
    simp only [VersionSet.newFileNumber, hthree, hname, ok_bind, hnew, Status.isOk_ok, if_true]
    rw [hversions, VersionSet.newFileNumber, hthree]
    rfl
  rw [Opening.prepare, hcreate, ok_bind]
  simp only [Status.isOk_ok, Bool.not_true, Bool.false_eq_true, if_false, Opening.saveEdit]
  cases saveManifest with
  | false =>
      obtain ⟨l, hl⟩ := hbare₁.list
      exact ⟨_, _, l, rfl, hl.listed⟩
  | true =>
      obtain ⟨hlog, hnumber⟩ := hmanifest rfl
      have hbelow : versions.logNumber < 3 := by
        show db.versions.logNumber < 3
        rw [hzero]
        decide
      have hnext : (3 : U64) < versions.nextFileNumber := by
        show (3 : U64) < db.versions.nextFileNumber + 1
        rw [hthree]
        decide
      have hcomplete : versions.completeEdit edit
          = .ok ((edit.setNextFile versions.nextFileNumber).setLastSequence versions.lastSequence) := by
        rw [VersionSet.completeEdit]
        simp only [edit, VersionEdit.setLogNumber, VersionEdit.setPrevLogNumber, if_true,
          require_of hbelow, require_of hnext, ok_bind]
        rfl
      obtain ⟨edit', vs', env', l, happly, hready⟩ := hbare₁.logAnyApply_of_healthy hlog hnumber
        hcomplete rfl rfl rfl hhealthy₁ uninit
      refine ⟨⟨{ db with versions := vs' }, true, edit', some logName, 3⟩, env', l, ?_,
        hready.listed⟩
      simp only [if_true]
      rw [show versions.logAnyApply edit uninit _ = _ from happly]
      rfl

end DbImpl

namespace DbImpl

variable {db db' : DbImpl} {uninit : U32} {env env' : Env} {name : Bytes}

/-- **Opening a directory in which there is no database**, behind the constructor and when nothing
fails: without a log a database is made, and with one the program ends. -/
theorem openConstructed_creates (h : Starts db name env) (hname : db.userComparator.name = name)
    (hshort : ShortName name) (hcreate : db.options.createIfMissing = true)
    (habsent : env.current db.dbname = none) (uninit : U32) (depth : Nat) :
    (¬ HasLogFile db.dbname env →
        ∃ db' env', db.openConstructed uninit (depth + 1) env = .ok (.ok, db', env'))
      ∧ (HasLogFile db.dbname env →
        db.openConstructed uninit (depth + 1) env = .error .assertion) := by
  obtain ⟨save', db', env', hopened, hhealthy, hsame⟩ := h.opened uninit (List.cons_ne_nil _ [])
    (by simpa using Journal.readable_newDbEdit name) fun env₀ hfiles hhealthy₀ =>
      exists_ensured_new hname hshort hcreate ((congrArg (Option.map File.data)
        (congrArg (AList.lookup _) hfiles)).trans habsent) hhealthy₀ uninit
  have hdbname : db'.dbname = db.dbname := (openVersions_spec hopened.versions).2.1
  obtain ⟨hkept, hnumbers⟩ := kept_openVersions h.fresh hname hshort habsent hopened.versions
  have hlogs := logsToHandle_eq_nil_iff_hasLogFile hnumbers.logNumber hopened.listing
  rw [hdbname, hsame.hasLogFile] at hlogs
  constructor
  · intro hnone
    obtain ⟨lock, _, _, -, -, hrecover, -⟩ := openVersions_steps hopened.versions
    have hbare : db'.versions.Bare db'.dbname name := by
      rw [hdbname]
      exact hkept.bare _ rfl
    have hmanifest : save' = true →
        db'.versions.descriptorLog = none ∧ 0 < db'.versions.manifestFileNumber := by
      intro hsave
      rcases recover_manifest h.fresh.closed hrecover with ⟨-, hlog, hnext⟩ | ⟨hsave', -⟩
      · refine ⟨hlog, ?_⟩
        have hthree : db'.versions.nextFileNumber = 3 := hnumbers.nextFileNumber
        rw [hthree] at hnext
        bv_omega
      · rw [hsave] at hsave'
        cases hsave'
    obtain ⟨st, env₂, l, hprepare, hlisted⟩ :=
      exists_prepare hbare hnumbers (hhealthy.getChildren db'.dbname) hmanifest uninit
    obtain ⟨env₃, hclean⟩ := exists_removeObsoleteFiles hlisted env₂
    refine ⟨st.db, env₃, ?_⟩
    rw [openConstructed, hopened.recover_of_nil (hlogs.mpr hnone)]
    simp only [ok_bind, Status.isOk_ok, Bool.not_true, Bool.false_eq_true, if_false, hprepare, hclean]
    rfl
  · intro hlog
    rw [openConstructed, hopened.recover_of_log fun hnil => hlogs.mp hnil hlog]
    rfl

theorem makingDb_starts (hok : ∀ s ∈ env.script, s = .ok)
    (hreads : ∀ e ∈ env.files.entries, e.2.readScript = []) (hlocked : env.locked = []) :
    Starts makingDb (text "order") env where
  fresh := Journal.freshVersionSet_fresh
  healthy := ⟨hok, hreads⟩
  dbLock := rfl
  unlocked := by
    rw [hlocked]
    exact List.not_mem_nil

/-- An empty directory, and one with a log. -/
theorem openConstructed_creates_making :
    (∃ db' env', makingDb.openConstructed 0 1 { files := ∅ } = .ok (.ok, db', env'))
      ∧ makingDb.openConstructed 0 1 withLog = .error .assertion := by
  have hnone : ¬ HasLogFile makingDb.dbname { files := ∅ } := by
    rintro ⟨name, hmem, -⟩
    cases hmem
  have hlog : HasLogFile makingDb.dbname withLog := by
    refine ⟨text "000003.log", ?_, 3, ?_⟩ <;> decide +kernel
  have hshort : ShortName (text "order") := show _ ≤ _ by decide
  constructor
  · exact (openConstructed_creates (makingDb_starts (by simp) (by decide) rfl) rfl hshort rfl
      (by decide) 0 0).1 hnone
  · exact (openConstructed_creates (makingDb_starts (by simp [withLog]) (by decide +kernel) rfl) rfl
      hshort rfl (by decide +kernel) 0 0).2 hlog

/-- **Opening the database again**, behind the constructor, ends the program when nothing fails. -/
theorem openConstructed_again (hfresh : db.versions.Fresh db.dbname name)
    (hname : db.userComparator.name = name) (hshort : ShortName name)
    (habsent : env.current db.dbname = none) {depth : Nat}
    (hrun : db.openConstructed uninit depth env = .ok (.ok, db', env')) {env₂ : Env}
    (hsame : env'.SameFiles env₂) {db₂ : DbImpl} (hdbname : db₂.dbname = db.dbname)
    (h₂ : Starts db₂ name env₂) (hexists : db₂.options.errorIfExists = false) (uninit₂ : U32)
    (depth₂ : Nat) : db₂.openConstructed uninit₂ (depth₂ + 1) env₂ = .error .assertion := by
  have hlog := (hasLog_openConstructed hfresh hname hshort habsent hrun).sameFiles hsame
  rw [← hdbname] at hlog
  obtain ⟨applied, last, hkept, hlast, -, hall⟩ := hlog.kept
  have happlied : applied ≠ [] := by
    rintro rfl
    cases hlast
  obtain ⟨save', db₃, env₃, hopened, -, -⟩ := h₂.opened uninit₂ happlied hall
    fun env₀ hfiles hhealthy₀ => exists_ensured_old hexists
      (hkept.same fun g _ => congrArg (AList.lookup g) hfiles) happlied hhealthy₀ uninit₂
  rw [openConstructed, hopened.recover_of_log (hlog.logsToHandle_ne_nil h₂.fresh hopened)]
  rfl

/-- The database of an empty directory. -/
theorem openConstructed_again_making : ∃ db' env',
    makingDb.openConstructed 0 1 { files := ∅ } = .ok (.ok, db', env') ∧ env'.SameFiles (madeFiles [])
      ∧ makingDb.openConstructed 0 1 (madeFiles []) = .error .assertion := by
  obtain ⟨db', env', hrun, hsame⟩ := exists_madeResult
  refine ⟨db', env', hrun, hsame _, ?_⟩
  exact openConstructed_again Journal.freshVersionSet_fresh rfl (show _ ≤ _ by decide) (by decide)
    hrun (hsame _) rfl (makingDb_starts (by simp [madeFiles]) (by decide +kernel) rfl) rfl 0 0

end DbImpl

end SimpleLeveldb
