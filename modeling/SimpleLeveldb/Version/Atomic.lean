import SimpleLeveldb.Outcomes
import SimpleLeveldb.Version.Install

set_option autoImplicit false

/-! # Calls of `log_any_apply` that fail

A call fails exactly when one of the operations of the environment that it makes does
(`logAnyApply_of_passes`). It then destroys a version that was never linked, and `~version`
follows its null link (`logAnyApply_of_not_passes`).
-/

namespace SimpleLeveldb.VersionSet

open VersionList (Linked Listed)
open Env (Performs Passes)

/-! ## The operations of a call -/

/-- A version set between calls: the versions are listed, one of them is current, and a log
writer comes with its file. -/
structure Ready (vs : VersionSet) (l : List VersionPtr) : Prop where
  listed : Listed vs.list l
  ne_nil : l ≠ []
  writer : ∀ log, vs.descriptorLog = some log →
    log.blockOffset ≤ Log.kBlockSize ∧ ∃ file, vs.descriptorFile = some file

/-- The operations of `write_edit`, as long as none fails. -/
def writeOps (vs : VersionSet) (edit : VersionEdit) : Except Fault (List Bool) := do
  let record ← edit.encodeTo
  match vs.descriptorLog with
  | some log =>
      return (Log.Writer.recordOps (record.length + 2) log.blockOffset record.length).1 ++ [true]
  | none => do
      require (vs.descriptorFile = none)
      let _ ← descriptorFileName vs.dbname vs.manifestFileNumber
      let snap ← (← vs.snapShot).encodeTo
      let first := Log.Writer.recordOps (snap.length + 2) 0 snap.length
      let second := Log.Writer.recordOps (record.length + 2) first.2 record.length
      return [true] ++ first.1 ++ (second.1 ++ [true]) ++ [true, true, true, true, true]

/-- The operations of a call of `log_any_apply`, as long as none fails: the manifest is created
and the snapshot written, when there is no manifest; the record of the edit is written and
synced; and `CURRENT` is switched to a new manifest. An error stands for an assertion of the
call that fails. -/
def operations (vs : VersionSet) (edit : VersionEdit) : Except Fault (List Bool) := do
  let edit ← vs.completeEdit edit
  let (_, vs) ← vs.buildVersion edit
  vs.writeOps edit

/-! ## Writing -/

theorem writeSnapShot_performs {vs : VersionSet} {snap : VersionEdit} {record : Bytes}
    (hsnap : vs.snapShot = .ok snap) (hrecord : snap.encodeTo = .ok record) (log : Log.Writer)
    (ho : log.blockOffset ≤ Log.kBlockSize) (env : Env) :
    ∃ (r : Status × Env) (log' : Log.Writer), vs.writeSnapShot log env = .ok (r.1, log', r.2)
      ∧ Performs (Log.Writer.recordOps (record.length + 2) log.blockOffset record.length).1 env r
      ∧ log'.blockOffset ≤ Log.kBlockSize
      ∧ (r.1 = .ok → log'.blockOffset
        = (Log.Writer.recordOps (record.length + 2) log.blockOffset record.length).2) := by
  rw [writeSnapShot, hsnap, ok_bind, hrecord, ok_bind]
  exact log.addRecord_performs ho record env

/-- The record of an edit is written by a log writer that is there. -/
theorem appendEdit_performs {vs : VersionSet} {edit : VersionEdit} {record : Bytes}
    (hrecord : edit.encodeTo = .ok record) {log : Log.Writer} (hlog : vs.descriptorLog = some log)
    (ho : log.blockOffset ≤ Log.kBlockSize) {file : Bytes} (hfile : vs.descriptorFile = some file)
    (env : Env) :
    ∃ (r : Status × Env) (log' : Log.Writer),
      vs.appendEdit edit env = .ok (r.1, { vs with descriptorLog := some log' }, r.2)
      ∧ log'.blockOffset ≤ Log.kBlockSize
      ∧ Performs ((Log.Writer.recordOps (record.length + 2) log.blockOffset record.length).1
          ++ [true]) env r := by
  obtain ⟨r, log', hadd, hr, ho', -⟩ := log.addRecord_performs ho record env
  rw [appendEdit, hrecord, hlog]
  simp only [deref, ok_bind, hadd, hfile]
  by_cases hok : r.1 = .ok
  · rw [if_pos ((Status.isOk_iff _).mpr hok)]
    exact ⟨_, log', rfl, ho', hr.trans (fun _ => Env.performs_sync file r.2)
      fun hne => absurd hok hne⟩
  · rw [if_neg (mt (Status.isOk_iff _).mp hok)]
    exact ⟨r, log', rfl, ho', hr.trans (fun he => absurd he hok) fun hne => hne⟩

/-- What `write_edit` changes, besides the environment. -/
structure Written (vs vs' : VersionSet) : Prop where
  same : ∃ log file, vs' = { vs with descriptorLog := log, descriptorFile := file }
  writer : ∀ log, vs'.descriptorLog = some log →
    log.blockOffset ≤ Log.kBlockSize ∧ ∃ file, vs'.descriptorFile = some file

/-- With a manifest: the record of the edit is all that is written. -/
theorem writeEdit_performs_some {vs : VersionSet} {edit : VersionEdit} {log : Log.Writer}
    (hlog : vs.descriptorLog = some log) (ho : log.blockOffset ≤ Log.kBlockSize) {file : Bytes}
    (hfile : vs.descriptorFile = some file) {ops : List Bool} (hops : vs.writeOps edit = .ok ops)
    (uninit : U32) (env : Env) :
    ∃ (r : Status × Env) (name : Bytes) (vs' : VersionSet),
      vs.writeEdit edit uninit env = .ok (r.1, name, vs', r.2)
      ∧ Performs ops env r ∧ Written vs vs' := by
  obtain ⟨record, hrecord, hops⟩ := bind_eq_ok.mp hops
  rw [hlog] at hops
  cases hops
  obtain ⟨r, log', happend, ho', hr⟩ := appendEdit_performs hrecord hlog ho hfile env
  have hwritten : Written vs { vs with descriptorLog := some log' } := by
    refine ⟨⟨some log', vs.descriptorFile, rfl⟩, fun l hl => ?_⟩
    cases hl
    exact ⟨ho', file, hfile⟩
  rw [writeEdit, openManifest, hlog]
  simp only [ok_bind, Status.isOk_ok, Bool.not_true, Bool.false_eq_true, if_false, happend]
  by_cases hok : r.1 = .ok
  · have hnot : (!r.1.isOk) = false := by simp [hok]
    simp only [hnot, Bool.false_eq_true, if_false, switchCurrent, List.isEmpty_nil, if_true,
      ok_bind]
    refine ⟨r, [], _, ?_, hr, hwritten⟩
    rw [hok]
    rfl
  · have hnot : (!r.1.isOk) = true := by
      simp [mt (Status.isOk_iff _).mp hok]
    simp only [hnot, if_true]
    exact ⟨r, [], _, rfl, hr, hwritten⟩

/-- Without a manifest: it is created and begins with the snapshot. -/
theorem openManifest_performs {vs : VersionSet} (hlog : vs.descriptorLog = none)
    (hfile : vs.descriptorFile = none) {name : Bytes}
    (hname : descriptorFileName vs.dbname vs.manifestFileNumber = .ok name) {snap : VersionEdit}
    (hsnap : vs.snapShot = .ok snap) {record : Bytes} (hrecord : snap.encodeTo = .ok record)
    (uninit : U32) (env : Env) :
    ∃ (r : Status × Env) (vs' : VersionSet), vs.openManifest uninit env = .ok (r.1, name, vs', r.2)
      ∧ Performs ([true] ++ (Log.Writer.recordOps (record.length + 2) 0 record.length).1) env r
      ∧ Written vs vs'
      ∧ (r.1 = .ok → ∃ log, vs'.descriptorLog = some log ∧ vs'.descriptorFile = some name
        ∧ log.blockOffset = (Log.Writer.recordOps (record.length + 2) 0 record.length).2) := by
  have hnew := Env.performs_newWritableFile name env
  set r := env.newWritableFile name with hr
  rw [openManifest, hlog]
  simp only [require_of hfile, ok_bind, hname, ← hr]
  by_cases hok : r.1 = .ok
  · rw [if_pos ((Status.isOk_iff _).mpr hok)]
    obtain ⟨r', log', hwrite, hr', ho, hend⟩ := @writeSnapShot_performs
      { vs with descriptorFile := some name } _ _ hsnap hrecord
      (Log.Writer.new name uninit) (Nat.zero_le _) r.2
    rw [hlog] at hwrite
    rw [hwrite]
    refine ⟨r', _, rfl, hnew.trans (fun _ => hr') fun hne => absurd hok hne,
      ⟨⟨some log', some name, rfl⟩, fun log hl => ?_⟩, fun he => ⟨log', rfl, rfl, hend he⟩⟩
    cases hl
    exact ⟨ho, name, rfl⟩
  · rw [if_neg (mt (Status.isOk_iff _).mp hok)]
    refine ⟨r, vs, rfl, hnew.trans (fun he => absurd he hok) fun hne => hne,
      ⟨⟨vs.descriptorLog, vs.descriptorFile, rfl⟩, fun log hl => ?_⟩, fun he => absurd he hok⟩
    rw [hlog] at hl
    cases hl

theorem descriptorFileName_isEmpty {dbname name : Bytes} {number : U64}
    (h : descriptorFileName dbname number = .ok name) : name.isEmpty = false := by
  unfold descriptorFileName at h
  obtain ⟨_, -, h⟩ := bind_eq_ok.mp h
  cases h
  simp [text]

theorem writeEdit_performs_none {vs : VersionSet} {edit : VersionEdit}
    (hlog : vs.descriptorLog = none) {ops : List Bool} (hops : vs.writeOps edit = .ok ops)
    (uninit : U32) (env : Env) :
    ∃ (r : Status × Env) (name : Bytes) (vs' : VersionSet),
      vs.writeEdit edit uninit env = .ok (r.1, name, vs', r.2)
      ∧ Performs ops env r ∧ Written vs vs' := by
  obtain ⟨record, hrecord, hops⟩ := bind_eq_ok.mp hops
  rw [hlog] at hops
  obtain ⟨_, hreq, hops⟩ := bind_eq_ok.mp hops
  obtain ⟨name, hname, hops⟩ := bind_eq_ok.mp hops
  obtain ⟨snap, hsnap, hops⟩ := bind_eq_ok.mp hops
  obtain ⟨first, hfirst, hops⟩ := bind_eq_ok.mp hops
  cases hops
  have hfile : vs.descriptorFile = none := by
    by_contra hne
    rw [require_of_not hne] at hreq
    cases hreq
  have hnumber : 0 < vs.manifestFileNumber := by
    by_contra hne
    rw [descriptorFileName, require_of_not hne] at hname
    cases hname
  obtain ⟨r₁, vs₁, hopen, hr₁, hwritten, hlog₁⟩ :=
    openManifest_performs hlog hfile hname hsnap hfirst uninit env
  have hempty := descriptorFileName_isEmpty hname
  rw [writeEdit]
  simp only [hopen, ok_bind]
  rw [List.append_assoc, List.append_assoc]
  by_cases hok₁ : r₁.1 = .ok
  swap
  · have hnot : (!r₁.1.isOk) = true := by simp [mt (Status.isOk_iff _).mp hok₁]
    simp only [hnot, if_true]
    refine ⟨r₁, name, vs₁, rfl, ?_, hwritten⟩
    rw [← List.append_assoc]
    exact hr₁.trans (fun he => absurd he hok₁) fun hne => hne
  have hnot₁ : (!r₁.1.isOk) = false := by simp [hok₁]
  obtain ⟨log, hlog', hfile', ho⟩ := hlog₁ hok₁
  have hle := (hwritten.writer log hlog').1
  obtain ⟨r₂, log₂, happend, ho₂, hr₂⟩ := appendEdit_performs hrecord hlog' hle hfile' r₁.2
  rw [ho] at hr₂
  simp only [hnot₁, Bool.false_eq_true, if_false, happend, ok_bind]
  obtain ⟨log₀, file₀, rfl⟩ := hwritten.same
  have hwritten₂ : Written vs { vs with descriptorLog := some log₂, descriptorFile := file₀ } := by
    refine ⟨⟨some log₂, file₀, rfl⟩, fun l hl => ?_⟩
    cases hl
    exact ⟨ho₂, name, hfile'⟩
  by_cases hok₂ : r₂.1 = .ok
  · have hnot₂ : (!r₂.1.isOk) = false := by simp [hok₂]
    obtain ⟨r₃, hswitch, hr₃⟩ := setCurrentFile_performs vs.dbname hnumber r₂.2
    simp only [hnot₂, Bool.false_eq_true, if_false, switchCurrent, hempty, hswitch,
      ok_bind]
    refine ⟨r₃, name, _, rfl, ?_, hwritten₂⟩
    rw [← List.append_assoc]
    exact hr₁.trans (fun _ => hr₂.trans (fun _ => hr₃) fun hne => absurd hok₂ hne)
      fun hne => absurd hok₁ hne
  · have hnot₂ : (!r₂.1.isOk) = true := by simp [mt (Status.isOk_iff _).mp hok₂]
    simp only [hnot₂, if_true]
    refine ⟨r₂, name, _, rfl, ?_, hwritten₂⟩
    rw [← List.append_assoc]
    exact hr₁.trans (fun _ => hr₂.trans (fun he => absurd he hok₂) fun hne => hne)
      fun hne => absurd hok₁ hne

/-- **The writes of a call** fail exactly when one of their operations does. -/
theorem writeEdit_performs {vs : VersionSet} {edit : VersionEdit}
    (hwriter : ∀ log, vs.descriptorLog = some log →
      log.blockOffset ≤ Log.kBlockSize ∧ ∃ file, vs.descriptorFile = some file)
    {ops : List Bool} (hops : vs.writeOps edit = .ok ops) (uninit : U32) (env : Env) :
    ∃ (r : Status × Env) (name : Bytes) (vs' : VersionSet),
      vs.writeEdit edit uninit env = .ok (r.1, name, vs', r.2)
      ∧ Performs ops env r ∧ Written vs vs' := by
  cases hlog : vs.descriptorLog with
  | none => exact writeEdit_performs_none hlog hops uninit env
  | some log =>
      obtain ⟨ho, file, hfile⟩ := hwriter log hlog
      exact writeEdit_performs_some hlog ho hfile hops uninit env

/-! ## The outcome of a call -/

/-- A call whose assertions hold comes to its writes, with a version that is not linked. -/
theorem Ready.writes {vs : VersionSet} {l : List VersionPtr} (h : Ready vs l) {edit : VersionEdit}
    {ops : List Bool} (hops : vs.operations edit = .ok ops) (uninit : U32) (env : Env) :
    ∃ (edit₁ : VersionEdit) (v : VersionPtr) (vs₁ : VersionSet) (r : Status × Env) (name : Bytes)
      (vs₂ : VersionSet), vs.completeEdit edit = .ok edit₁ ∧ vs.buildVersion edit₁ = .ok (v, vs₁)
      ∧ vs₁.writeEdit edit₁ uninit env = .ok (r.1, name, vs₂, r.2) ∧ Performs ops env r
      ∧ Written vs₁ vs₂ ∧ Prepared vs.list l v vs₂.list := by
  obtain ⟨c, hc⟩ : ∃ c, vs.list.current = some c := by
    rw [h.listed.current]
    exact ⟨_, List.getLast?_eq_some_getLast h.ne_nil⟩
  obtain ⟨built, hprep, hbuild⟩ := buildVersion_eq h.listed hc
  obtain ⟨edit₁, hedit, hops⟩ := bind_eq_ok.mp hops
  obtain ⟨⟨v, vs₁⟩, hb, hops⟩ := bind_eq_ok.mp hops
  obtain ⟨cp, hv, hvs₁⟩ : ∃ cp, v = vs.list.nextVersion
      ∧ vs₁ = { vs with list := built, compactPointer := cp } := by
    rw [hbuild] at hb
    cases happly : Builder.apply vs.icmp vs.compactPointer { base := c } edit₁ with
    | error e =>
        rw [happly] at hb
        cases hb
    | ok r =>
        rw [happly] at hb
        cases hb
        exact ⟨r.1, rfl, rfl⟩
  subst hv hvs₁
  obtain ⟨r, name, vs₂, hwrite, hr, hwritten⟩ := @writeEdit_performs
    { vs with list := built, compactPointer := cp } _ h.writer _ hops uninit env
  refine ⟨edit₁, _, _, r, name, vs₂, hedit, hb, hwrite, hr, hwritten, ?_⟩
  rw [(writeEdit_same hwrite).list]
  exact hprep

/-- **When no operation fails**, a call succeeds, and the version set is ready for the next. -/
theorem logAnyApply_of_passes {vs : VersionSet} {l : List VersionPtr} (h : Ready vs l)
    {edit : VersionEdit} {ops : List Bool} (hops : vs.operations edit = .ok ops) (uninit : U32)
    {env : Env} (hp : Passes ops env.script) :
    ∃ edit' vs' env' l', vs.logAnyApply edit uninit env = .ok (.ok, edit', vs', env')
      ∧ Ready vs' l' := by
  obtain ⟨edit₁, v, vs₁, r, name, vs₂, hedit, hbuild, hwrite, hr, hwritten, hprep⟩ :=
    h.writes hops uninit env
  obtain ⟨u, hu, hrefs, hfiles, -⟩ := hprep.version
  obtain ⟨list, happ, hinst⟩ :=
    hprep.listed.appendVersion hu hrefs hfiles hprep.not_mem hprep.fresh
  have hok := (hr.passed hp).1
  refine ⟨edit₁, { vs₂ with
      list := list, logNumber := edit₁.logNumber, prevLogNumber := edit₁.prevLogNumber }, r.2, _,
    ?_, hinst.listed, by simp, hwritten.writer⟩
  rw [logAnyApply, hedit]
  simp only [ok_bind, hbuild, hwrite, hok, Status.isOk_ok, if_true, installVersion, happ]
  rfl

/-- `~version` follows the links of a version, which are null as long as it is not linked. -/
theorem deleteVersion_of_not_linked {vl : VersionList} {v : VersionPtr} {u : Version}
    (hu : vl.versions v = some u) (hrefs : u.refs = 0) (hprev : u.prev = none) :
    vl.deleteVersion v = .error .nullLink := by
  rw [VersionList.deleteVersion, VersionList.readVersion_of_some hu, ok_bind, require_of hrefs,
    ok_bind, hprev]
  rfl

/-- **When an operation fails**, the call does not return. -/
theorem logAnyApply_of_not_passes {vs : VersionSet} {l : List VersionPtr} (h : Ready vs l)
    {edit : VersionEdit} {ops : List Bool} (hops : vs.operations edit = .ok ops) (uninit : U32)
    {env : Env} (hp : ¬ Passes ops env.script) :
    vs.logAnyApply edit uninit env = .error .nullLink := by
  obtain ⟨edit₁, v, vs₁, r, name, vs₂, hedit, hbuild, hwrite, hr, -, hprep⟩ :=
    h.writes hops uninit env
  obtain ⟨u, hu, hrefs, -, hprev⟩ := hprep.version
  have hnot : r.1.isOk = false := by
    simp [mt (Status.isOk_iff _).mp (hr.failed hp)]
  rw [logAnyApply, hedit]
  simp only [ok_bind, hbuild, hwrite, hnot, Bool.false_eq_true, if_false, discardVersion,
    deleteVersion_of_not_linked hu hrefs hprev, error_bind]

/-! ## A version set with one version -/

/-- One version is current, and holds one file at level 0. -/
def oneVersion : VersionList where
  versions := fun p =>
    if p = 0 then some { next := some 1, prev := some 1 }
    else if p = 1 then some
      { next := some 0, prev := some 0, refs := 1,
        files := fun level => if level.val = 0 then [0] else [] }
    else none
  files := fun f =>
    if f = 0 then some { refs := 1, number := 5, smallest := zeros 8, largest := zeros 8 } else none
  nextVersion := 2
  current := some 1

theorem oneVersion_listed : Listed oneVersion [1] := by
  have hfiles : oneVersion.filesOf 1 = [0] := by decide
  refine ⟨⟨⟨⟨⟨rfl, rfl⟩, rfl, rfl⟩, by decide⟩, by decide, by decide, fun f hf => ?_⟩, rfl⟩
  have htotal : oneVersion.total [1] f = [0].count f := by
    rw [VersionList.total, List.flatMap_cons, hfiles]
    rfl
  rw [htotal] at hf ⊢
  obtain rfl : f = 0 := List.mem_singleton.mp (List.count_pos_iff.mp hf)
  exact ⟨_, rfl, rfl⟩

/-- A version set that has not written its manifest yet. -/
def oneVersionSet : VersionSet where
  dbname := text "db"
  options := {}
  icmp := ⟨⟨text "order", fun a b => (a.length : Int) - b.length⟩⟩
  nextFileNumber := 6
  manifestFileNumber := 1
  lastSequence := 0
  logNumber := 0
  prevLogNumber := 0
  descriptorFile := none
  descriptorLog := none
  list := oneVersion
  compactPointer := fun _ => []

theorem oneVersionSet_ready : Ready oneVersionSet [1] where
  listed := oneVersion_listed
  ne_nil := by decide
  writer := nofun

/-- The manifest is created and synced, two records of one fragment are written, and `CURRENT`
is switched. -/
theorem oneVersionSet_operations :
    oneVersionSet.operations {} = .ok (List.replicate 13 true) := by
  decide +kernel

/-! ## Atomicity -/

/-- What a failed call must leave as it was. -/
structure Unchanged (vs vs' : VersionSet) : Prop where
  current : vs'.list.current = vs.list.current
  versions : ∀ p < vs.list.nextVersion, vs'.list.versions p = vs.list.versions p
  logNumber : vs'.logNumber = vs.logNumber
  prevLogNumber : vs'.prevLogNumber = vs.prevLogNumber
  nextFileNumber : vs'.nextFileNumber = vs.nextFileNumber
  lastSequence : vs'.lastSequence = vs.lastSequence
  manifestFileNumber : vs'.manifestFileNumber = vs.manifestFileNumber
  compactPointer : vs'.compactPointer = vs.compactPointer

/-- A call is atomic in memory: it follows no null link, and when it returns an error the
version set is as it was. -/
def Atomic (vs : VersionSet) (edit : VersionEdit) (uninit : U32) (env : Env) : Prop :=
  vs.logAnyApply edit uninit env ≠ .error .nullLink
    ∧ ∀ s edit' vs' env', vs.logAnyApply edit uninit env = .ok (s, edit', vs', env') → s ≠ .ok →
      Unchanged vs vs'

/-- **A call is atomic exactly when none of its operations fails.** -/
theorem atomic_iff {vs : VersionSet} {l : List VersionPtr} (h : Ready vs l) {edit : VersionEdit}
    {ops : List Bool} (hops : vs.operations edit = .ok ops) (uninit : U32) (env : Env) :
    Atomic vs edit uninit env ↔ Passes ops env.script := by
  constructor
  · intro hatomic
    by_contra hp
    exact hatomic.1 (logAnyApply_of_not_passes h hops uninit hp)
  · intro hp
    obtain ⟨edit₁, vs₁, env₁, -, hrun, -⟩ := logAnyApply_of_passes h hops uninit hp
    rw [Atomic, hrun]
    refine ⟨nofun, fun s edit' vs' env' he hs => ?_⟩
    cases he
    exact absurd rfl hs

/-- The characterisation at a call that appends nothing: its only failing operation is the
last one, the renaming of the temporary file. -/
theorem atomic_iff_oneVersionSet :
    Atomic oneVersionSet {} 0
        { files := ∅, script := List.replicate 12 .ok ++ [.ioError (text "disk")] }
      ↔ Passes (List.replicate 13 true) (List.replicate 12 .ok ++ [.ioError (text "disk")]) :=
  atomic_iff oneVersionSet_ready oneVersionSet_operations 0 _

/-- When the manifest cannot be created, the call follows a null link. -/
theorem not_atomic_oneVersionSet :
    ¬ Atomic oneVersionSet {} 0 { files := ∅, script := [.ioError (text "disk")] } := by
  intro hatomic
  exact hatomic.1 (logAnyApply_of_not_passes oneVersionSet_ready oneVersionSet_operations 0
    (by decide))

end SimpleLeveldb.VersionSet
