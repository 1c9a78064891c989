import SimpleLeveldb.DbImpl
import SimpleLeveldb.Version.Atomic

set_option autoImplicit false

/-! # Recovering the logs of a database

`Recover` takes the database lock, recovers the version set and looks for the logs that are not
in the table files yet. For each of them it calls `RecoverLogFile`, which begins by asserting
that the lock is not taken.
-/

namespace SimpleLeveldb

/-! ## Who requests the lock -/

theorem Log.Writer.emitPhysicalRecord_lockRequests {w w' : Log.Writer} {t : Log.RecordType}
    {ptr : Bytes} {env env' : Env} {s : Status}
    (h : w.emitPhysicalRecord t ptr env = .ok (s, w', env')) :
    env'.lockRequests = env.lockRequests := by
  unfold emitPhysicalRecord at h
  obtain ⟨_, -, h⟩ := bind_eq_ok.mp h
  obtain ⟨_, -, h⟩ := bind_eq_ok.mp h
  cases h
  exact Env.andThen_lockRequests (Env.andThen_lockRequests (by simp) (by simp)) (by simp)

theorem Log.Writer.switchBlock_lockRequests (w : Log.Writer) (env : Env) :
    (w.switchBlock env).2.lockRequests = env.lockRequests := by
  unfold switchBlock
  simp only
  split_ifs <;> simp

theorem Log.Writer.addRecord_lockRequests {w w' : Log.Writer} {sle : Bytes} {env env' : Env}
    {s : Status} (h : w.addRecord sle env = .ok (s, w', env')) :
    env'.lockRequests = env.lockRequests := by
  have hturn : ∀ st r, addRecordTurn st = .ok r →
      (Sum.elim (fun st => st.env.lockRequests) (fun r => r.2.2.lockRequests) r)
        = st.env.lockRequests := by
    intro st r hr
    unfold addRecordTurn at hr
    obtain ⟨_, -, hr⟩ := bind_eq_ok.mp hr
    have hswitch := switchBlock_lockRequests st.w st.env
    rcases hsw : st.w.switchBlock st.env with ⟨w₀, env₀⟩
    rw [hsw] at hr hswitch
    obtain ⟨_, -, hr⟩ := bind_eq_ok.mp hr
    obtain ⟨⟨s₁, w₁, env₁⟩, hemit, hr⟩ := bind_eq_ok.mp hr
    have henv := (emitPhysicalRecord_lockRequests hemit).trans hswitch
    simp only at hr
    split_ifs at hr <;> cases hr <;> exact henv
  unfold addRecord at h
  exact Loop.run_of_invariant .endless (fun st : AddState => st.env.lockRequests = env.lockRequests)
    (fun r : Status × Log.Writer × Env => r.2.2.lockRequests = env.lockRequests)
    (fun st st' hst hst' => (hturn st _ hst').trans hst)
    (fun st r hst hr => (hturn st _ hr).trans hst) _ _ _ rfl h

theorem setCurrentFile_lockRequests {dbname : Bytes} {number : U64} {env env' : Env} {s : Status}
    (h : setCurrentFile dbname number env = .ok (s, env')) :
    env'.lockRequests = env.lockRequests := by
  unfold setCurrentFile at h
  obtain ⟨manifest, -, h⟩ := bind_eq_ok.mp h
  obtain ⟨_, -, h⟩ := bind_eq_ok.mp h
  obtain ⟨tmp, -, h⟩ := bind_eq_ok.mp h
  simp only at h
  split_ifs at h <;> cases h <;> simp

namespace DbImpl

theorem newDb_lockRequests {db : DbImpl} {uninit : U32} {env env' : Env} {s : Status}
    (h : db.newDb uninit env = .ok (s, env')) : env'.lockRequests = env.lockRequests := by
  unfold newDb at h
  obtain ⟨manifest, -, h⟩ := bind_eq_ok.mp h
  have hnew := Env.newWritableFile_lockRequests manifest env
  simp only at h
  split_ifs at h
  · cases h
    exact hnew
  obtain ⟨record, -, h⟩ := bind_eq_ok.mp h
  obtain ⟨⟨s₁, w, env₁⟩, hadd, h⟩ := bind_eq_ok.mp h
  have hclose : ∀ r : Status × Env, r = Env.andThen
      (Env.andThen (s₁, env₁) (Env.sync manifest)) (Env.close manifest) →
      r.2.lockRequests = env.lockRequests := by
    rintro r rfl
    refine Env.andThen_lockRequests (Env.andThen_lockRequests ?_ (by simp)) (by simp)
    exact (Log.Writer.addRecord_lockRequests hadd).trans hnew
  simp only at h
  split_ifs at h
  · exact (setCurrentFile_lockRequests h).trans (hclose _ rfl)
  · cases h
    rw [Env.removeFile_lockRequests]
    exact hclose _ rfl

end DbImpl

namespace VersionSet

theorem reuseManifest_lockRequests {vs vs' : VersionSet} {dscname dscbase : Bytes} {uninit : U32}
    {env env' : Env} {reused : Bool}
    (h : vs.reuseManifest dscname dscbase uninit env = .ok (reused, vs', env')) :
    env'.lockRequests = env.lockRequests := by
  have hsize := Env.getFileSize_lockRequests dscname env
  unfold reuseManifest at h
  split_ifs at h
  · cases h
    rfl
  split at h
  swap
  · cases h
    rfl
  simp only at h
  split_ifs at h
  · cases h
    exact hsize
  · obtain ⟨_, -, h⟩ := bind_eq_ok.mp h
    obtain ⟨_, -, h⟩ := bind_eq_ok.mp h
    obtain ⟨_, -, h⟩ := bind_eq_ok.mp h
    cases h
    simp
  · obtain ⟨_, -, h⟩ := bind_eq_ok.mp h
    obtain ⟨_, -, h⟩ := bind_eq_ok.mp h
    cases h
    simp

theorem finishRecover_lockRequests {vs vs' : VersionSet} {st : RecoverState} {s : Status}
    {prevLogNumber : U64} {dscname current : Bytes} {saveManifest saveManifest' : Bool}
    {uninit : U32} {env env' : Env}
    (h : vs.finishRecover st s prevLogNumber dscname current saveManifest uninit env
      = .ok (saveManifest', vs', env')) : env'.lockRequests = env.lockRequests := by
  unfold finishRecover at h
  split_ifs at h
  · unfold installRecovered at h
    obtain ⟨_, -, h⟩ := bind_eq_ok.mp h
    obtain ⟨_, -, h⟩ := bind_eq_ok.mp h
    obtain ⟨⟨reused, vs₁, env₁⟩, hreuse, h⟩ := bind_eq_ok.mp h
    cases h
    exact reuseManifest_lockRequests hreuse
  · cases h
    rfl

theorem recover_lockRequests {vs vs' : VersionSet} {saveManifest saveManifest' : Bool}
    {uninit : U32} {env env' : Env} {s : Status}
    (h : vs.recover saveManifest uninit env = .ok (s, saveManifest', vs', env')) :
    env'.lockRequests = env.lockRequests := by
  unfold recover at h
  obtain ⟨⟨s₁, current, env₁⟩, hread, h⟩ := bind_eq_ok.mp h
  have henv₁ : env₁.lockRequests = env.lockRequests := by
    unfold Env.readFileToString at hread
    simp only at hread
    split_ifs at hread
    · cases hread
      simp
    · obtain ⟨_, -, hread⟩ := bind_eq_ok.mp hread
      cases hread
      simp
  have hopen := Env.newSequentialFile_lockRequests (vs.dbname ++ text "/" ++ current.dropLast) env₁
  simp only at h
  split_ifs at h
  · cases h
    exact henv₁
  · cases h
    exact henv₁
  · cases h
    exact hopen.trans henv₁
  · cases h
    exact hopen.trans henv₁
  · unfold recoverFrom at h
    obtain ⟨⟨b, list⟩, -, h⟩ := bind_eq_ok.mp h
    obtain ⟨st, -, h⟩ := bind_eq_ok.mp h
    obtain ⟨⟨save₂, vs₂, env₂⟩, hfinish, h⟩ := bind_eq_ok.mp h
    obtain ⟨list', -, h⟩ := bind_eq_ok.mp h
    cases h
    exact (finishRecover_lockRequests hfinish).trans (hopen.trans henv₁)

end VersionSet

namespace DbImpl

/-! ## Opening the version set -/

/-- `RecoverLogFile` cannot begin while the lock is taken. -/
theorem openVersions_of_locked {db : DbImpl} (h : db.dbLock ≠ none) (saveManifest : Bool)
    (uninit : U32) (env : Env) :
    db.openVersions saveManifest uninit env = .error .assertion := by
  rw [openVersions]
  simp only [require_of_not h, error_bind]

theorem ensureDb_lockRequests {db : DbImpl} {uninit : U32} {env env' : Env} {s : Status}
    (h : db.ensureDb uninit env = .ok (s, env')) : env'.lockRequests = env.lockRequests := by
  unfold ensureDb at h
  split_ifs at h
  · exact newDb_lockRequests h
  all_goals
    cases h
    rfl

/-- After a successful start the lock is taken, and was requested once. -/
theorem openVersions_spec {db db' : DbImpl} {saveManifest saveManifest' : Bool} {uninit : U32}
    {env env' : Env}
    (h : db.openVersions saveManifest uninit env = .ok (.ok, saveManifest', db', env')) :
    db'.dbLock = some (lockFileName db.dbname) ∧ db'.dbname = db.dbname
      ∧ env'.lockRequests = env.lockRequests + 1 := by
  unfold openVersions at h
  have hlock := Env.lockFile_lockRequests (lockFileName db.dbname) (env.createDir db.dbname).2
  rw [Env.createDir_lockRequests] at hlock
  rcases hcreate : env.createDir db.dbname with ⟨s₀, env₀⟩
  rw [hcreate] at h hlock
  obtain ⟨_, -, h⟩ := bind_eq_ok.mp h
  rcases hrequest : env₀.lockFile (lockFileName db.dbname) with ⟨s, env₀'⟩
  rw [hrequest] at h hlock
  simp only at h
  split_ifs at h with hok
  · cases h
    simp at hok
  obtain ⟨⟨s₁, env₁⟩, hensure, h⟩ := bind_eq_ok.mp h
  have henv₁ := (ensureDb_lockRequests hensure).trans hlock
  simp only at h
  split_ifs at h with hok₁
  · cases h
    simp at hok₁
  obtain ⟨⟨s₂, save₂, versions, env₂⟩, hrecover, h⟩ := bind_eq_ok.mp h
  cases h
  exact ⟨rfl, rfl, (VersionSet.recover_lockRequests hrecover).trans henv₁⟩

/-! ## The listing -/

theorem missingFiles_ne_ok {db : DbImpl} {expected : List U64} {s : Status}
    (h : db.missingFiles expected = .ok s) : s ≠ .ok := by
  obtain ⟨_, -, h⟩ := bind_eq_ok.mp h
  cases h
  exact nofun

/-- When no live table file is missing, the loop of `Recover` collects the relevant logs. -/
theorem scanListing_ok {db : DbImpl} {minLog prevLog : U64} (filenames : List Bytes)
    {expected logs logs' : List U64}
    (h : db.scanListing minLog prevLog filenames expected logs = .ok (.ok, logs')) :
    logs' = logs ++ filenames.filterMap (relevantLog minLog prevLog) := by
  induction filenames generalizing expected logs with
  | nil =>
      cases h
      simp
  | cons filename filenames ih =>
      rw [scanListing] at h
      split_ifs at h
      · rw [ih h, List.append_assoc]
        cases hrel : relevantLog minLog prevLog filename <;> simp [hrel]
      · obtain ⟨s, hs, h⟩ := bind_eq_ok.mp h
        cases h
        exact absurd rfl (missingFiles_ne_ok hs)

/-- The logs that `Recover` must handle once the version set is recovered, in increasing
order. -/
def logsToHandle (db : DbImpl) (env : Env) : List U64 :=
  ((env.getChildren db.dbname).2.1.filterMap
    (relevantLog db.versions.logNumber db.versions.prevLogNumber)).mergeSort
    fun a b => decide (a ≤ b)

theorem logsToHandle_eq_nil_iff {db : DbImpl} {env : Env} :
    db.logsToHandle env = [] ↔ ∀ name ∈ (env.getChildren db.dbname).2.1,
      relevantLog db.versions.logNumber db.versions.prevLogNumber name = none := by
  rw [logsToHandle, ← List.length_eq_zero_iff, List.length_mergeSort, List.length_eq_zero_iff,
    List.filterMap_eq_nil_iff]

/-! ## `Recover` -/

/-- What `Recover` finds when it comes to the logs: the manifest was accepted, the directory
was listed, and no live table file is missing. -/
structure Opened (db : DbImpl) (saveManifest : Bool) (uninit : U32) (env : Env)
    (saveManifest' : Bool) (db' : DbImpl) (env' : Env) : Prop where
  versions : db.openVersions saveManifest uninit env = .ok (.ok, saveManifest', db', env')
  listing : (env'.getChildren db'.dbname).1 = .ok
  complete : ∃ live logs, db'.versions.addLiveFiles = .ok live
    ∧ db'.scanListing db'.versions.logNumber db'.versions.prevLogNumber
      (env'.getChildren db'.dbname).2.1 live [] = .ok (.ok, logs)

variable {db db' : DbImpl} {saveManifest saveManifest' : Bool} {uninit : U32} {env env' : Env}

/-- From there on only the logs are left. -/
theorem Opened.recover_eq (h : Opened db saveManifest uninit env saveManifest' db' env')
    (depth : Nat) :
    recover uninit depth saveManifest db env
      = (recoverLogs (recoverLogFile uninit depth) (db'.logsToHandle env') saveManifest' db'
          (env'.getChildren db'.dbname).2.2 >>= fun (s, saveManifest, db, env, handled) => do
            if !s.isOk then return (s, saveManifest, db, env, handled)
            let versions ← raiseLastSequence db.versions 0
            return (.ok, saveManifest, { db with versions := versions }, env, handled)) := by
  obtain ⟨live, logs, hlive, hscan⟩ := h.complete
  have hlogs := scanListing_ok _ hscan
  rw [List.nil_append] at hlogs
  rw [recover, recoverWith, h.versions]
  simp only [ok_bind, Status.isOk_ok, Bool.not_true, Bool.false_eq_true, if_false, h.listing,
    hlive, hscan]
  rw [hlogs]
  rfl

/-- Without a log `Recover` returns. -/
theorem Opened.recover_of_nil (h : Opened db saveManifest uninit env saveManifest' db' env')
    (hnil : db'.logsToHandle env' = []) (depth : Nat) :
    recover uninit depth saveManifest db env
      = .ok (.ok, saveManifest', db', (env'.getChildren db'.dbname).2.2, []) := by
  have hraise : raiseLastSequence db'.versions 0 = .ok db'.versions :=
    if_neg (by simp)
  rw [h.recover_eq, hnil, recoverLogs]
  simp only [ok_bind, Status.isOk_ok, Bool.not_true, Bool.false_eq_true, if_false, hraise]
  rfl

/-- **The first log ends the program**: the assertion at the start of `RecoverLogFile` fails. -/
theorem Opened.recover_of_log (h : Opened db saveManifest uninit env saveManifest' db' env')
    (hlog : db'.logsToHandle env' ≠ []) (depth : Nat) :
    recover uninit (depth + 1) saveManifest db env = .error .assertion := by
  obtain ⟨log, logs, hlogs⟩ := List.exists_cons_of_ne_nil hlog
  have hlocked : db'.dbLock ≠ none := by
    rw [(openVersions_spec h.versions).1]
    exact nofun
  rw [h.recover_eq, hlogs, recoverLogs, recoverLogFile, recoverWith,
    openVersions_of_locked hlocked]
  rfl

/-- `Recover` handles the logs `logs` once each, in this order, and returns; the lock is
requested once. -/
def HandlesLogs (db : DbImpl) (saveManifest : Bool) (uninit : U32) (env : Env)
    (logs : List U64) : Prop :=
  ∃ depth s saveManifest' db' env',
    recover uninit depth saveManifest db env = .ok (s, saveManifest', db', env', logs)
      ∧ env'.lockRequests = env.lockRequests + 1

theorem Opened.not_handlesLogs (h : Opened db saveManifest uninit env saveManifest' db' env')
    (hlog : db'.logsToHandle env' ≠ []) :
    ¬ HandlesLogs db saveManifest uninit env (db'.logsToHandle env') := by
  rintro ⟨depth, s, save, db₂, env₂, hrun, -⟩
  cases depth with
  | zero =>
      obtain ⟨log, logs, hlogs⟩ := List.exists_cons_of_ne_nil hlog
      rw [h.recover_eq, hlogs, recoverLogs, recoverLogFile] at hrun
      cases hrun
  | succ depth =>
      rw [h.recover_of_log hlog] at hrun
      cases hrun

/-- **`Recover` handles the logs exactly when there are none**: no file of the listing is a log
with a number from `log_number()` on, or with `prev_log_number()`. -/
theorem handlesLogs_iff (h : Opened db saveManifest uninit env saveManifest' db' env') :
    HandlesLogs db saveManifest uninit env (db'.logsToHandle env')
      ↔ ∀ name ∈ (env'.getChildren db'.dbname).2.1,
        relevantLog db'.versions.logNumber db'.versions.prevLogNumber name = none := by
  rw [← logsToHandle_eq_nil_iff]
  constructor
  · intro hhandles
    by_contra hlog
    exact h.not_handlesLogs hlog hhandles
  · intro hnil
    refine ⟨0, .ok, saveManifest', db', (env'.getChildren db'.dbname).2.2, ?_, ?_⟩
    · rw [h.recover_of_nil hnil, hnil]
    · rw [Env.getChildren_lockRequests, (openVersions_spec h.versions).2.2]

/-- Decides whether `Recover` comes to the logs, and finds those with the numbers `logs`. -/
def opens (db : DbImpl) (saveManifest : Bool) (uninit : U32) (env : Env) (logs : List U64) : Bool :=
  match db.openVersions saveManifest uninit env with
  | .ok (.ok, _, db', env') =>
      match db'.versions.addLiveFiles with
      | .ok live => decide ((env'.getChildren db'.dbname).1 = .ok
          ∧ db'.scanListing db'.versions.logNumber db'.versions.prevLogNumber
            (env'.getChildren db'.dbname).2.1 live [] = .ok (.ok, logs))
      | .error _ => false
  | _ => false

theorem exists_opened {logs : List U64} (h : opens db saveManifest uninit env logs = true) :
    ∃ saveManifest' db' env', Opened db saveManifest uninit env saveManifest' db' env'
      ∧ db'.logsToHandle env' = logs.mergeSort fun a b => decide (a ≤ b) := by
  unfold opens at h
  split at h
  · rename_i save db₁ env₁ hopen
    split at h
    · rename_i live hlive
      have h := of_decide_eq_true h
      refine ⟨save, db₁, env₁, ⟨hopen, h.1, live, logs, hlive, h.2⟩, ?_⟩
      rw [logsToHandle, scanListing_ok _ h.2, List.nil_append]
    · cases h
  · cases h

/-- A database that does not exist yet. -/
def newDatabase : DbImpl where
  dbname := text "db"
  options := { createIfMissing := true }
  userComparator := VersionSet.oneVersionSet.icmp.userComparator
  dbLock := none
  versions := VersionSet.oneVersionSet
  pendingOutputs := []
  bgError := .ok

/-- The characterisation in an empty directory. -/
theorem handlesLogs_iff_newDatabase : ∃ saveManifest' db' env',
    Opened newDatabase false 0 { files := ∅ } saveManifest' db' env'
      ∧ (HandlesLogs newDatabase false 0 { files := ∅ } (db'.logsToHandle env')
        ↔ ∀ name ∈ (env'.getChildren db'.dbname).2.1,
          relevantLog db'.versions.logNumber db'.versions.prevLogNumber name = none) := by
  obtain ⟨save, db', env', h, -⟩ := exists_opened
    (show opens newDatabase false 0 { files := ∅ } [] = true by decide +kernel)
  exact ⟨save, db', env', h, handlesLogs_iff h⟩

/-- A directory with an empty log. -/
def withLog : Env where
  files := AList.insert (text "db/000003.log") { data := [] } ∅

/-- The log 3 is not handled. -/
theorem not_handlesLogs_withLog : ∃ saveManifest' db' env',
    Opened newDatabase false 0 withLog saveManifest' db' env'
      ∧ ¬ HandlesLogs newDatabase false 0 withLog (db'.logsToHandle env') := by
  obtain ⟨save, db', env', h, hlogs⟩ := exists_opened
    (show opens newDatabase false 0 withLog [3] = true by decide +kernel)
  refine ⟨save, db', env', h, ?_⟩
  refine h.not_handlesLogs ?_
  rw [hlogs, List.mergeSort_singleton]
  exact List.cons_ne_nil _ _

end DbImpl

end SimpleLeveldb
