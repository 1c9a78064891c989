import SimpleLeveldb.Version.WriteEdit

set_option autoImplicit false

/-! # What calls of `log_any_apply` store

`Stored` relates the manifest on disk to the edits of the calls that succeeded. A call that succeeds
stores its edit (`Applied.stored`), and a call that fails stores nothing, unless all of its record has
been appended already (`stored_of_not_passes`).
-/

namespace SimpleLeveldb

open Env (Passes IgnoresNone)
open Log (AllFit)

/-! ## What is stored -/

open VersionSet (Decode Reflects)

/-- What is on disk after the calls for the edits `applied`, when the process writes to its manifest
with `log`: nothing yet, or a manifest that holds them. It ends in a torn record only when a call
has failed. -/
inductive Stored (failed : Prop) (dbname name : Bytes) (env : Env) (log : Option Log.Writer)
    (applied : List VersionEdit) : Prop
  | nothing : applied = [] → log = none → env.content (currentFileName dbname) = none →
      Stored failed dbname name env log applied
  | manifest (number : U64) (records : List Bytes) (tail : Bytes) (read : List VersionEdit) :
      OnDisk dbname env number records tail → Decode records read → Reflects name read applied →
      (tail ≠ [] → failed) →
      (∀ w, log = some w → tail = [] ∧ w.Continues dbname number records) →
      Stored failed dbname name env log applied

namespace Stored

variable {failed : Prop} {dbname name : Bytes} {env env' : Env} {log : Option Log.Writer}
  {applied : List VersionEdit}

theorem congr (h : Stored failed dbname name env log applied)
    (hsame : ∀ g, env'.content g = env.content g) : Stored failed dbname name env' log applied := by
  cases h with
  | nothing happlied hlog habsent => exact .nothing happlied hlog ((hsame _).trans habsent)
  | manifest number records tail read hdisk hdecode hreflects htail hlog =>
      exact .manifest number records tail read (hdisk.congr hsame) hdecode hreflects htail hlog

/-- The process ends, or a manifest is about to be created. -/
theorem closed (h : Stored failed dbname name env log applied) :
    Stored failed dbname name env none applied := by
  cases h with
  | nothing happlied _ habsent => exact .nothing happlied rfl habsent
  | manifest number records tail read hdisk hdecode hreflects htail _ =>
      exact .manifest number records tail read hdisk hdecode hreflects htail nofun

/-- Files that are neither `CURRENT` nor the manifest that it names may change. -/
theorem others (h : Stored failed dbname name env log applied) {names : List Bytes}
    (hspared : Spared dbname names env) (ho : Env.Others names env env') :
    Stored failed dbname name env' log applied := by
  have hcurrent := ho.content hspared.current
  cases h with
  | nothing happlied hlog habsent => exact .nothing happlied hlog (hcurrent.trans habsent)
  | manifest number records tail read hdisk hdecode hreflects htail hlog =>
      have hmanifest := hspared.manifest _ hdisk.current
      rw [manifestPath_eq] at hmanifest
      exact .manifest number records tail read ⟨hcurrent.trans hdisk.current,
        (ho.content hmanifest).trans hdisk.content, hdisk.fits, hdisk.torn⟩ hdecode hreflects htail hlog

end Stored

namespace VersionSet

variable {failed : Prop} {dbname name : Bytes} {vs vs' : VersionSet} {env env' : Env}
  {applied : List VersionEdit} {edit edit' : VersionEdit} {s : Status}

/-- A call that returns has written its edit, and installed a version without files. -/
structure Applied (dbname name : Bytes) (vs : VersionSet) (edit : VersionEdit) (uninit : U32)
    (env : Env) (edit' : VersionEdit) (vs' : VersionSet) (env' : Env) : Prop where
  completed : vs.completeEdit edit = .ok edit'
  list : ∃ l, vs'.list.Bare l
  writes : ∃ v vs₁ m vs₂, vs.buildVersion edit' = .ok (v, vs₁) ∧ Bare dbname name vs₁
    ∧ vs₁.descriptorLog = vs.descriptorLog
    ∧ vs₁.writeEdit edit' uninit env = .ok (.ok, m, vs₂, env')
    ∧ vs' = { vs₂ with
      list := vs'.list, logNumber := edit'.logNumber, prevLogNumber := edit'.prevLogNumber }

/-- **A call that returns has succeeded.** -/
theorem Bare.applied_of_ok (h : Bare dbname name vs) (hcp : edit.compactPointers = []) {uninit : U32}
    (hrun : vs.logAnyApply edit uninit env = .ok (s, edit', vs', env')) :
    s = .ok ∧ Applied dbname name vs edit uninit env edit' vs' env' := by
  obtain ⟨l, hl⟩ := h.list
  unfold logAnyApply at hrun
  obtain ⟨edit₁, hcomplete, hrun⟩ := bind_eq_ok.mp hrun
  obtain ⟨⟨v, vs₁⟩, hbuild, hrun⟩ := bind_eq_ok.mp hrun
  have hcp₁ : edit₁.compactPointers = [] := (completed_of_ok hcomplete).compactPointers.trans hcp
  obtain ⟨built, hprep, rfl, hbare⟩ := h.buildVersion hl hcp₁ hbuild
  obtain ⟨⟨s₁, m, vs₂, env₂⟩, hwrite, hrun⟩ := bind_eq_ok.mp hrun
  obtain ⟨u, hu, hrefs, hfiles, hprev⟩ := hprep.version
  have hlist : vs₂.list = built := (writeEdit_same hwrite).list
  simp only at hrun
  split_ifs at hrun with hok
  · obtain ⟨vs₃, hinstall, hrun⟩ := bind_eq_ok.mp hrun
    cases hrun
    obtain ⟨list, happend, hinstall⟩ := bind_eq_ok.mp hinstall
    cases hinstall
    obtain rfl := (Status.isOk_iff s).mp hok
    obtain ⟨list', happend', hinst⟩ :=
      hprep.listed.appendVersion hu hrefs hfiles hprep.not_mem hprep.fresh
    rw [hlist, happend'] at happend
    cases happend
    exact ⟨rfl, hcomplete, ⟨_, hl.installed hprep hinst⟩, v, _, m, vs₂, hbuild, hbare, rfl, hwrite, rfl⟩
  · -- the version that is destroyed was never linked
    rw [discardVersion, hlist, deleteVersion_of_not_linked hu hrefs hprev] at hrun
    cases hrun

/-- The operations of a call whose writes have been made, and where its records went. -/
theorem Applied.operations {uninit : U32} (h : Applied dbname name vs edit uninit env edit' vs' env') :
    ∃ vs₁ m vs₂ ops record, vs.operations edit = .ok ops ∧ Bare dbname name vs₁
      ∧ vs₁.descriptorLog = vs.descriptorLog ∧ vs₁.writeEdit edit' uninit env = .ok (.ok, m, vs₂, env')
      ∧ vs' = { vs₂ with
        list := vs'.list, logNumber := edit'.logNumber, prevLogNumber := edit'.prevLogNumber }
      ∧ vs₁.writeOps edit' = .ok ops ∧ edit'.encodeTo = .ok record
      ∧ (∀ log, vs.descriptorLog = some log →
        vs.callRecords edit = .ok (log.blockOffset, [record]))
      ∧ ∀ snap, vs.descriptorLog = none →
        (({} : VersionEdit).setComparatorName name).encodeTo = .ok snap →
        vs.callRecords edit = .ok (0, [snap, record]) := by
  obtain ⟨v, vs₁, m, vs₂, hbuild, hbare, hsame, hwrite, hvs'⟩ := h.writes
  obtain ⟨ops, hops⟩ := exists_writeOps hwrite
  obtain ⟨record, hrecord, -⟩ := bind_eq_ok.mp hops
  have hsome : ∀ log, vs₁.descriptorLog = some log →
      vs.callRecords edit = .ok (log.blockOffset, [record]) := fun log hlog => by
    rw [callRecords, h.completed, ok_bind, hbuild, ok_bind]
    simp only [hrecord, ok_bind, hlog]
    rfl
  have hnone : ∀ snap, vs₁.descriptorLog = none →
      (({} : VersionEdit).setComparatorName name).encodeTo = .ok snap →
      vs.callRecords edit = .ok (0, [snap, record]) := fun snap hlog hsnap => by
    rw [callRecords, h.completed, ok_bind, hbuild, ok_bind]
    simp only [hrecord, ok_bind, hlog, hbare.snapShot, hsnap]
    rfl
  refine ⟨vs₁, m, vs₂, ops, record, ?_, hbare, hsame, hwrite, hvs', hops, hrecord,
    fun log hlog => hsome log (hsame.trans hlog), fun snap hlog => hnone snap (hsame.trans hlog)⟩
  rw [VersionSet.operations, h.completed, ok_bind, hbuild]
  exact hops

/-- The record of an edit that a call has completed. -/
theorem Completed.decode (h : vs.Completed edit edit') (hwf : edit.WellFormed)
    (hcp : edit.compactPointers = []) {record : Bytes} (hrecord : edit'.encodeTo = .ok record) :
    record ≠ [] ∧ VersionEdit.decodeFrom record = .ok (.ok, edit'.written) :=
  ⟨VersionEdit.encodeTo_ne_nil hrecord (.inr h.hasLogNumber),
    (h.wellFormed hwf).decodeFrom_record (h.compactPointers.trans hcp) hrecord⟩

/-- A manifest that is open grows by the record of the edit. -/
theorem Applied.appended {uninit : U32} (h : Applied dbname name vs edit uninit env edit' vs' env')
    (hr : vs.Writable edit env) (hwf : edit.WellFormed)
    (hstored : Stored failed dbname name env vs.descriptorLog applied) {log : Log.Writer}
    (hlog : vs.descriptorLog = some log) :
    Bare dbname name vs' ∧ Stored failed dbname name env' vs'.descriptorLog (applied ++ [edit']) := by
  obtain ⟨vs₁, m, vs₂, ops, record, hops, hbare, hsame, hwrite, hvs', hwriteOps, hrecord, hcall, -⟩ :=
    h.operations
  have hcompleted := completed_of_ok h.completed
  obtain ⟨hne, hdecode⟩ := hcompleted.decode hwf hr.compactPointers hrecord
  have hlog₁ := hsame.trans hlog
  obtain ⟨ho, uninit', hcrc⟩ := hbare.log log hlog₁
  have hfit : AllFit log.blockOffset [record] := hr.fits _ _ (hcall log hlog)
  obtain rfl := Except.ok.inj (hwriteOps.symm.trans (writeOps_of_some hlog₁ ho hrecord hfit))
  obtain ⟨hadds, rfl⟩ := hbare.writeEdit_appended hlog₁ hrecord hne hfit (hr.ignored _ hops) hwrite
  -- all of the record has been appended
  have hpasses : Passes (Log.Writer.appendOps log.blockOffset) env.script := by
    obtain ⟨r, m', vs₃, hwrite', hperforms, -⟩ := writeEdit_performs
      (fun l hl => ⟨(hbare.log l hl).1, l.dest, by rw [hbare.file, hl]; rfl⟩) hwriteOps uninit env
    have hr₁ : r.1 = .ok := by
      rw [hwrite] at hwrite'
      exact (congrArg Prod.fst (Except.ok.inj hwrite')).symm
    have hall := hperforms.ok_iff.mp hr₁
    rw [Log.Writer.turnOps_eq, List.append_assoc, Env.passes_append] at hall
    exact hall.1
  rw [hvs']
  constructor
  · refine ⟨hbare.dbname_eq, hbare.comparator, hbare.compactPointer, h.list, ?_, fun l hl => ?_⟩
    · have hfile := hbare.file
      rw [hlog₁] at hfile
      exact hfile
    · cases hl
      exact ⟨hfit.1, uninit', hcrc⟩
  · cases hstored with
    | nothing _ hnone _ =>
        rw [hlog] at hnone
        cases hnone
    | manifest number records tail read hdisk hdecodes hreflects htail hopen =>
        obtain ⟨rfl, hcontinues⟩ := hopen log hlog
        refine .manifest number (records ++ [record]) [] (read ++ [edit'.written])
          ((hdisk.append hcontinues hfit.1 hadds).1 hpasses) ?_ (hreflects.concat hcompleted)
          (fun hne => absurd rfl hne) fun w hw => ?_
        · exact List.rel_append hdecodes (.cons hdecode .nil)
        · cases hw
          exact ⟨rfl, hcontinues.past record⟩

/-- The record of a snapshot, when it fits into a block. -/
theorem decode_snapShot {snap : Bytes}
    (hsnap : (({} : VersionEdit).setComparatorName name).encodeTo = .ok snap)
    (hfit : Log.start 0 + Log.kHeaderSize + snap.length ≤ Log.kBlockSize) :
    VersionEdit.decodeFrom snap = .ok (.ok, ({} : VersionEdit).setComparatorName name) := by
  have hlength : name.length < 2 ^ 32 := by
    have hle : name.length ≤ snap.length := VersionEdit.comparator_length_le hsnap rfl
    have : Log.kBlockSize = 32768 := rfl
    omega
  have hempty : (VersionEdit.built []).WellFormed := VersionEdit.wellFormed_built (by simp)
  have hwf : (({} : VersionEdit).setComparatorName name).WellFormed :=
    VersionEdit.wellFormed_update (u := .setComparatorName name) hempty hlength
  exact hwf.decodeFrom_record rfl hsnap

/-- A manifest that is created holds a snapshot and the record of the edit. -/
theorem Applied.created {uninit : U32} (h : Applied dbname name vs edit uninit env edit' vs' env')
    (hr : vs.Writable edit env) (hwf : edit.WellFormed) (hlog : vs.descriptorLog = none) :
    Bare dbname name vs' ∧ Stored failed dbname name env' vs'.descriptorLog (applied ++ [edit']) := by
  obtain ⟨vs₁, m, vs₂, ops, record, hops, hbare, hsame, hwrite, hvs', hwriteOps, hrecord, -, hcall⟩ :=
    h.operations
  have hcompleted := completed_of_ok h.completed
  obtain ⟨hne, hdecode⟩ := hcompleted.decode hwf hr.compactPointers hrecord
  have hlog₁ := hsame.trans hlog
  obtain ⟨snap, hsnap⟩ : ∃ snap, (({} : VersionEdit).setComparatorName name).encodeTo = .ok snap := by
    have hwriteOps' := hwriteOps
    rw [writeOps, hrecord, ok_bind, hlog₁] at hwriteOps'
    obtain ⟨_, -, hwriteOps'⟩ := bind_eq_ok.mp hwriteOps'
    obtain ⟨_, -, hwriteOps'⟩ := bind_eq_ok.mp hwriteOps'
    rw [hbare.snapShot, ok_bind] at hwriteOps'
    obtain ⟨snap, hsnap, -⟩ := bind_eq_ok.mp hwriteOps'
    exact ⟨snap, hsnap⟩
  have hfit : AllFit 0 [snap, record] := hr.fits _ _ (hcall snap hlog hsnap)
  obtain rfl := hbare.writeOps_of_none hlog₁ hsnap hrecord hfit hwriteOps
  obtain ⟨hdisk, log, rfl, hcontinues, hle, hcrc⟩ := hbare.writeEdit_created hlog₁ hsnap
    hrecord hne hfit (hr.ignored _ hops) hwrite
  rw [hvs']
  constructor
  · refine ⟨hbare.dbname_eq, hbare.comparator, hbare.compactPointer, h.list, rfl, fun l hl => ?_⟩
    cases hl
    exact ⟨hle, uninit, hcrc⟩
  · refine .manifest _ _ _ _ hdisk (.cons (decode_snapShot hsnap hfit.1) (.cons hdecode .nil))
      (hcompleted.reflects name applied) (fun hne => absurd rfl hne) fun w hw => ?_
    cases hw
    exact ⟨rfl, hcontinues⟩

/-- **A successful call** stores its edit. -/
theorem Applied.stored {uninit : U32} (h : Applied dbname name vs edit uninit env edit' vs' env')
    (hr : vs.Writable edit env) (hwf : edit.WellFormed)
    (hstored : Stored failed dbname name env vs.descriptorLog applied) :
    Bare dbname name vs' ∧ Stored failed dbname name env' vs'.descriptorLog (applied ++ [edit']) := by
  cases hlog : vs.descriptorLog with
  | none => exact h.created hr hwf hlog
  | some log => exact h.appended hr hwf hstored hlog

/-! ## A call that fails -/

/-- **A call that fails** ends behind its writes. -/
theorem last_logAnyApply {l : List VersionPtr} (h : Ready vs l) {ops : List Bool}
    (hops : vs.operations edit = .ok ops) (uninit : U32) (hnot : ¬ Passes ops env.script) :
    ∃ edit₁ v vs₁ s m vs₂ env', vs.completeEdit edit = .ok edit₁ ∧ vs.buildVersion edit₁ = .ok (v, vs₁)
      ∧ vs₁.writeEdit edit₁ uninit env = .ok (s, m, vs₂, env') ∧ s ≠ .ok
      ∧ (Steps.logAnyApply vs edit uninit).last env = env' := by
  obtain ⟨edit₁, v, vs₁, r, m, vs₂, hcomplete, hbuild, hwrite, hr, -, hprep⟩ :=
    h.writes hops uninit env
  refine ⟨edit₁, v, vs₁, r.1, m, vs₂, r.2, hcomplete, hbuild, hwrite, hr.failed hnot, ?_⟩
  obtain ⟨u, hu, hrefs, -, hprev⟩ := hprep.version
  have hwrite' : (Steps.writeEdit vs₁ edit₁ uninit).outcome env = .ok ((r.1, m, vs₂), r.2) := by
    rw [Steps.outcome_writeEdit, hwrite]
    rfl
  have hdiscard : (Steps.discardVersion vs₂ v m r.2).1 = .error .nullLink := by
    rw [Steps.discardVersion, deleteVersion_of_not_linked hu hrefs hprev]
    rfl
  rw [Steps.logAnyApply, hcomplete, Prog.last_lift_bind, hbuild, Prog.last_lift_bind]
  simp only
  rw [Prog.last_of_outcome hwrite']
  simp only
  rw [if_neg (mt (Status.isOk_iff _).mp (hr.failed hnot)), Prog.last_of_error hdiscard,
    Steps.discardVersion, deleteVersion_of_not_linked hu hrefs hprev]
  rfl

/-- As long as a manifest is open, a call whose appends have all happened does not fail: not when it
flushes the record of the edit, and not when it syncs the manifest. -/
def FailsEarly (vs : VersionSet) (edit : VersionEdit) (env : Env) : Prop :=
  vs.descriptorLog ≠ none → ∀ ops, vs.operations edit = .ok ops →
    Passes (ops.take (ops.length - 2)) env.script → Passes ops env.script

/-- **A call that fails early** stores nothing, at most a torn record. -/
theorem stored_of_not_passes (h : Bare dbname name vs) (hr : vs.Recordable edit env)
    (hearly : vs.FailsEarly edit env) (hfailed : failed)
    (hstored : Stored failed dbname name env vs.descriptorLog applied) {ops : List Bool}
    (hops : vs.operations edit = .ok ops) {uninit : U32} (hnot : ¬ Passes ops env.script) :
    Stored failed dbname name ((Steps.logAnyApply vs edit uninit).last env) none applied := by
  obtain ⟨l, hl⟩ := h.list
  obtain ⟨edit₁, v, vs₁, s, m, vs₂, env', hcomplete, hbuild, hwrite, hs, rfl⟩ :=
    last_logAnyApply (h.ready hl) hops uninit hnot
  have hcompleted := completed_of_ok hcomplete
  obtain ⟨built, -, rfl, hbare⟩ :=
    h.buildVersion hl (hcompleted.compactPointers.trans hr.compactPointers) hbuild
  cases hlog : vs.descriptorLog with
  | none =>
      -- what is left is a manifest that `CURRENT` does not name, and a temporary file
      obtain rfl := h.dbname_eq
      have hothers := writeEdit_failed (by exact hlog) hwrite hs
      refine hstored.closed.others ⟨fun hmem => ?_, fun c hc hmem => ?_⟩ hothers
      · simp only [List.mem_cons, List.not_mem_nil, or_false] at hmem
        rcases hmem with he | he
        · exact descriptorFile_ne_current _ _ he.symm
        · exact tempFile_ne_current _ _ he.symm
      · obtain ⟨number, rfl⟩ : ∃ number, c = descriptorBaseName number ++ text "\n" := by
          cases hstored with
          | nothing _ _ habsent => cases hc.symm.trans habsent
          | manifest number _ _ _ hdisk _ _ _ _ =>
              exact ⟨number, Option.some.inj (hc.symm.trans hdisk.current)⟩
        rw [manifestPath_eq] at hmem
        simp only [List.mem_cons, List.not_mem_nil, or_false] at hmem
        rcases hmem with he | he
        · rw [inDirectory_inj] at he
          exact hr.another hlog (by rw [hc, he])
        · exact tempFile_ne_descriptorFile _ _ _ he.symm
  | some log =>
      obtain ⟨record, hrecord⟩ : ∃ record, edit₁.encodeTo = .ok record := by
        rw [VersionSet.operations, hcomplete, ok_bind, hbuild, ok_bind] at hops
        obtain ⟨record, hrecord, -⟩ := bind_eq_ok.mp hops
        exact ⟨record, hrecord⟩
      have hne := VersionEdit.encodeTo_ne_nil hrecord (.inr hcompleted.hasLogNumber)
      have hfit : AllFit log.blockOffset [record] := hr.fits _ _ (by
        rw [callRecords, hcomplete, ok_bind, hbuild, ok_bind]
        simp only [hrecord, ok_bind, hlog]
        rfl)
      have hlog₁ : VersionSet.descriptorLog { vs with list := built } = some log := hlog
      have hwriteOps := writeOps_of_some hlog₁ (h.log log hlog).1 hrecord hfit
      obtain rfl : Log.Writer.turnOps log.blockOffset ++ [true] = ops := by
        rw [VersionSet.operations, hcomplete, ok_bind, hbuild, ok_bind] at hops
        exact Except.ok.inj (hwriteOps.symm.trans hops)
      obtain ⟨hadds, -⟩ := hbare.writeEdit_appended (by exact hlog) hrecord hne hfit
        (hr.ignored _ hops) hwrite
      have happends : ¬ Passes (Log.Writer.appendOps log.blockOffset) env.script := by
        intro hp
        refine hnot (hearly (by rw [hlog]; exact Option.some_ne_none log) _ hops ?_)
        rw [Log.Writer.turnOps_eq, List.append_assoc]
        simpa using hp
      cases hstored with
      | nothing _ hnone _ =>
          rw [hlog] at hnone
          cases hnone
      | manifest number records tail read hdisk hdecodes hreflects htail hopen =>
          obtain ⟨rfl, hcontinues⟩ := hopen log hlog
          obtain ⟨tail, htorn⟩ := (hdisk.append hcontinues hfit.1 hadds).2 happends
          exact .manifest number records tail read htorn hdecodes hreflects (fun _ => hfailed) nofun

end VersionSet

end SimpleLeveldb
