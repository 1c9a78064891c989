import SimpleLeveldb.Current
import SimpleLeveldb.Version.Bare
import SimpleLeveldb.Version.OnDisk

set_option autoImplicit false

/-! # What `log_any_apply` writes

The record of an edit is appended to the manifest that is open (`Bare.writeEdit_appended`), or a
manifest is made for it (`Bare.writeEdit_created`), which is all that is left behind when that fails
(`writeEdit_failed`).
-/

namespace SimpleLeveldb

open Env (Passes Performs Adds IgnoresNone)
open Log (AllFit SamePlace fulls layout endOffset)

/-- The writer of a manifest stands behind the records `records` of the manifest `number`. -/
structure Log.Writer.Continues (dbname : Bytes) (number : U64) (records : List Bytes)
    (w : Log.Writer) : Prop where
  dest : w.dest = dbname ++ text "/" ++ descriptorBaseName number
  place : SamePlace w.blockOffset (endOffset 0 (fulls records))

/-- The writer after a record that fits. -/
def Log.Writer.past (w : Writer) (record : Bytes) : Writer :=
  { w with blockOffset := next w.blockOffset ⟨.kFullType, record⟩ }

namespace VersionSet

variable {dbname name : Bytes} {vs vs' : VersionSet}

/-! ## The record of an edit -/

/-- **The record of an edit** that fits is appended: all of it, or a torn beginning. -/
theorem appendEdit_adds {edit : VersionEdit} {record : Bytes} (hrecord : edit.encodeTo = .ok record)
    (hne : record ≠ []) {log : Log.Writer} (hlog : vs.descriptorLog = some log)
    (hfile : vs.descriptorFile = some log.dest) {uninit : U32}
    (hcrc : log.typeCrc = Log.initTypeCrc uninit) (ho : log.blockOffset ≤ Log.kBlockSize)
    (hfit : Log.start log.blockOffset + Log.kHeaderSize + record.length ≤ Log.kBlockSize) {env : Env}
    (hignored : IgnoresNone (Log.Writer.turnOps log.blockOffset) env.script) :
    ∃ r : Status × Env,
      vs.appendEdit edit env = .ok (r.1, { vs with descriptorLog := some (log.past record) }, r.2)
      ∧ Performs (Log.Writer.turnOps log.blockOffset ++ [true]) env r
      ∧ Adds log.dest (layout log.blockOffset [⟨.kFullType, record⟩])
        (Log.Writer.appendOps log.blockOffset) env r.2 := by
  obtain ⟨r, hadd, hr, hadds⟩ := Log.Writer.addRecord_adds hcrc ho hne hfit hignored
  rw [appendEdit, hrecord, hlog]
  simp only [deref, ok_bind, hadd, hfile]
  by_cases hok : r.1 = .ok
  · rw [if_pos ((Status.isOk_iff _).mpr hok)]
    refine ⟨_, rfl, hr.trans (fun _ => Env.performs_sync log.dest r.2) fun hne => absurd hok hne, ?_⟩
    exact hadds.same (Env.others_sync _ _) (Env.content_sync _ _ _)
  · rw [if_neg (mt (Status.isOk_iff _).mp hok)]
    exact ⟨r, rfl, hr.trans (fun he => absurd he hok) fun hne => hne, hadds⟩

end VersionSet

/-- The writer after one more record. -/
theorem Log.Writer.Continues.past {dbname : Bytes} {number : U64} {records : List Bytes}
    {w : Log.Writer} (h : w.Continues dbname number records) (record : Bytes) :
    (w.past record).Continues dbname number (records ++ [record]) where
  dest := h.dest
  place := by
    have hnext := h.place.next ⟨.kFullType, record⟩
    rw [Log.fulls_concat, Log.endOffset_append, Log.endOffset_cons, Log.endOffset_nil, ← hnext]
    exact ⟨rfl, rfl⟩

namespace OnDisk

variable {dbname : Bytes} {env env' : Env} {number : U64} {records : List Bytes} {tail : Bytes}

/-- **A record more**: behind whole records there is another one, or a torn one. -/
theorem append (h : OnDisk dbname env number records []) {w : Log.Writer}
    (hw : w.Continues dbname number records) {record : Bytes}
    (hfit : Log.start w.blockOffset + Log.kHeaderSize + record.length ≤ Log.kBlockSize)
    {ops : List Bool} (hadds : Adds w.dest (layout w.blockOffset [⟨.kFullType, record⟩]) ops env env') :
    (Passes ops env.script → OnDisk dbname env' number (records ++ [record]) [])
      ∧ (¬ Passes ops env.script → ∃ tail, OnDisk dbname env' number records tail) := by
  have hcurrent : env'.content (currentFileName dbname) = env.content (currentFileName dbname) := by
    refine hadds.others.content fun hmem => ?_
    rw [hw.dest] at hmem
    exact descriptorFile_ne_current dbname number (List.mem_singleton.mp hmem).symm
  have hlayout := hw.place.layout [⟨.kFullType, record⟩]
  have hcontent := h.content
  rw [← hw.dest, List.append_nil] at hcontent
  have hfit' := hfit
  rw [hw.place.1] at hfit'
  constructor
  · intro hp
    have hall : AllFit 0 (records ++ [record]) := Log.allFit_concat.mpr ⟨h.fits, hfit'⟩
    refine ⟨hcurrent.trans h.current, ?_, hall, Log.torn_nil (Log.endOffset_le (Nat.zero_le _)
      (Log.fits_fulls.mpr hall))⟩
    rw [← hw.dest, hadds.whole hp, hcontent, Option.map_some, hlayout, Log.fulls_concat,
      Log.layout_append, List.append_nil]
  · intro hp
    obtain ⟨n, hn, htorn⟩ := hadds.torn hp
    refine ⟨(layout (endOffset 0 (fulls records)) [⟨.kFullType, record⟩]).take n,
      hcurrent.trans h.current, ?_, h.fits, ?_⟩
    · rw [← hw.dest, htorn, hcontent, Option.map_some, hlayout]
    · rw [hlayout, Log.layout, Log.layout, List.append_nil, List.length_append, zeros_length] at hn
      refine ⟨⟨.kFullType, record⟩, n, hfit', hn, ?_⟩
      rw [Log.layout, Log.layout, List.append_nil]

end OnDisk

/-! ## New files -/

theorem ignoresNone_turnOps_zero (script : List Status) :
    IgnoresNone (Log.Writer.turnOps 0) script := by
  have hlooked : Log.Writer.turnOps 0 = [true, true, true] := by decide
  rw [hlooked]
  exact ⟨nofun, fun _ => ⟨nofun, fun _ => ⟨nofun, fun _ => trivial⟩⟩⟩

/-- A file is created, and a record is written to it. -/
theorem newWritableFile_record (m : Bytes) (uninit : U32) {env : Env} {record : Bytes} (hne : record ≠ [])
    (hfit : Log.start 0 + Log.kHeaderSize + record.length ≤ Log.kBlockSize)
    (hnew : (env.newWritableFile m).1 = .ok) :
    ∃ r : Status × Env, (Log.Writer.new m uninit).addRecord record (env.newWritableFile m).2
        = .ok (r.1, (Log.Writer.new m uninit).past record, r.2)
      ∧ Performs ([true] ++ Log.Writer.turnOps 0) env r
      ∧ (r.1 = .ok → r.2.content m = some (layout 0 [⟨.kFullType, record⟩])) := by
  have hfirst := Env.performs_newWritableFile m env
  have hcrc : (Log.Writer.new m uninit).typeCrc = Log.initTypeCrc uninit := rfl
  obtain ⟨r, hadd, hr, hadds⟩ := Log.Writer.addRecord_adds hcrc (Nat.zero_le _) hne hfit
    (ignoresNone_turnOps_zero _)
  refine ⟨r, hadd, hfirst.trans (fun _ => hr) fun hnot => absurd hnew hnot, fun hok => ?_⟩
  have hpasses := hr.ok_iff.mp hok
  rw [Log.Writer.turnOps_eq, Env.passes_append] at hpasses
  have hempty : (env.newWritableFile m).2.content m = some [] := by
    rw [Env.content, Env.lookup_newWritableFile hnew]
    rfl
  have hwhole := hadds.whole hpasses.1
  rw [show (Log.Writer.new m uninit).dest = m from rfl, hempty, Option.map_some,
    List.nil_append] at hwhole
  exact hwhole

/-- `CURRENT` is switched, and no manifest changes. -/
theorem setCurrentFile_content {dbname : Bytes} {number : U64} {env env' : Env}
    (h : setCurrentFile dbname number env = .ok (.ok, env')) :
    env'.content (currentFileName dbname) = some (descriptorBaseName number ++ text "\n")
      ∧ ∀ n, env'.content (dbname ++ text "/" ++ descriptorBaseName n)
        = env.content (dbname ++ text "/" ++ descriptorBaseName n) := by
  rw [← Steps.outcome_setCurrentFile] at h
  have hkeeps := Steps.keeps_setCurrentFile dbname number env
  obtain ⟨f, hf, hdata⟩ := (hkeeps.of_outcome h).2 rfl
  refine ⟨by rw [Env.content, hf, Option.map_some, hdata], fun n => ?_⟩
  -- no operation of the call touches a manifest
  set g := dbname ++ text "/" ++ descriptorBaseName n with hg
  have hgt : g ≠ makeFileName dbname number "dbtmp" := (tempFile_ne_descriptorFile dbname number n).symm
  have hgc : g ≠ currentFileName dbname := descriptorFile_ne_current dbname n
  have hsame := (hkeeps.strengthen (S := fun _ _ => True)
    (fun t => t.files.lookup g = env.files.lookup g) rfl ?_).of_outcome h
  · exact congrArg (Option.map File.data) hsame.2
  · rintro t u ht (ho | ⟨ho, -⟩)
    · exact ⟨trivial, (ho g fun hmem => hgt (List.mem_singleton.mp hmem)).trans ht⟩
    · refine ⟨trivial, (ho g fun hmem => ?_).trans ht⟩
      rcases List.mem_cons.mp hmem with he | hmem
      · exact hgt he
      · exact hgc (List.mem_singleton.mp hmem)

/-! ## Other files -/

theorem Log.Writer.addRecord_others {w w' : Log.Writer} {uninit : U32}
    (hcrc : w.typeCrc = Log.initTypeCrc uninit) {sle : Bytes} {env env' : Env} {s : Status}
    (h : w.addRecord sle env = .ok (s, w', env')) :
    Env.Others [w.dest] env env' ∧ ∃ o, w' = { w with blockOffset := o } := by
  have hout := Steps.outcome_addRecord w sle env
  rw [h] at hout
  obtain ⟨hw', hothers, -⟩ := (Steps.keeps_addRecord hcrc sle env).of_outcome hout
  exact ⟨hothers, hw'⟩

namespace VersionSet

variable {dbname name : Bytes} {vs vs' : VersionSet} {env env' : Env} {s : Status} {m : Bytes}

/-- A manifest is created: no other file changes. -/
theorem openManifest_others (hlog : vs.descriptorLog = none) {uninit : U32}
    (h : vs.openManifest uninit env = .ok (s, m, vs', env')) :
    m = vs.dbname ++ text "/" ++ descriptorBaseName vs.manifestFileNumber
      ∧ Env.Others [m] env env' ∧ (s = .ok → ∃ log, log.dest = m ∧ log.typeCrc = Log.initTypeCrc uninit
        ∧ vs' = { vs with descriptorFile := some m, descriptorLog := some log }) := by
  unfold openManifest at h
  rw [hlog] at h
  obtain ⟨_, -, h⟩ := bind_eq_ok.mp h
  obtain ⟨m', hm, h⟩ := bind_eq_ok.mp h
  obtain ⟨_, -, hm⟩ := bind_eq_ok.mp hm
  cases hm
  have hnew := Env.others_newWritableFile
    (vs.dbname ++ text "/" ++ descriptorBaseName vs.manifestFileNumber) env
  simp only at h
  split_ifs at h with hok
  · obtain ⟨⟨s₁, log, env₁⟩, hwrite, h⟩ := bind_eq_ok.mp h
    cases h
    obtain ⟨snap, -, hwrite⟩ := bind_eq_ok.mp hwrite
    obtain ⟨record, -, hwrite⟩ := bind_eq_ok.mp hwrite
    obtain ⟨hothers, o, rfl⟩ := Log.Writer.addRecord_others rfl hwrite
    exact ⟨rfl, hnew.trans hothers, fun _ => ⟨_, rfl, rfl, rfl⟩⟩
  · cases h
    exact ⟨rfl, hnew, fun he => absurd ((Status.isOk_iff _).mpr he) hok⟩

theorem appendEdit_others {edit : VersionEdit} {log : Log.Writer} (hlog : vs.descriptorLog = some log)
    {uninit : U32} (hcrc : log.typeCrc = Log.initTypeCrc uninit)
    (hfile : vs.descriptorFile = some log.dest)
    (h : vs.appendEdit edit env = .ok (s, vs', env')) : Env.Others [log.dest] env env' := by
  unfold appendEdit at h
  obtain ⟨record, -, h⟩ := bind_eq_ok.mp h
  obtain ⟨log', hlog', h⟩ := bind_eq_ok.mp h
  obtain rfl := Option.some.inj ((deref_eq_ok.mp hlog').symm.trans hlog)
  obtain ⟨⟨s₁, log₁, env₁⟩, hadd, h⟩ := bind_eq_ok.mp h
  obtain ⟨hothers, -⟩ := Log.Writer.addRecord_others hcrc hadd
  simp only at h
  split_ifs at h
  · obtain ⟨file, hfile', h⟩ := bind_eq_ok.mp h
    obtain rfl := Option.some.inj ((deref_eq_ok.mp hfile').symm.trans hfile)
    cases h
    exact hothers.trans (Env.others_sync _ _)
  · cases h
    exact hothers

/-- **A manifest that could not be made** is all that is left, besides a temporary file. -/
theorem writeEdit_failed {edit : VersionEdit} {uninit : U32} (hlog : vs.descriptorLog = none)
    (h : vs.writeEdit edit uninit env = .ok (s, m, vs', env')) (hs : s ≠ .ok) :
    Env.Others [vs.dbname ++ text "/" ++ descriptorBaseName vs.manifestFileNumber,
      makeFileName vs.dbname vs.manifestFileNumber "dbtmp"] env env' := by
  unfold writeEdit at h
  obtain ⟨⟨s₁, m₁, vs₁, env₁⟩, hopen, h⟩ := bind_eq_ok.mp h
  obtain ⟨hm, hothers₁, hcreated⟩ := openManifest_others hlog hopen
  simp only at h
  rw [← hm]
  have hsub : ([m₁] : List Bytes) ⊆ [m₁, makeFileName vs.dbname vs.manifestFileNumber "dbtmp"] := by
    simp
  split_ifs at h with hs₁
  · cases h
    exact hothers₁.mono hsub
  obtain ⟨log, hdest, hcrc, rfl⟩ := hcreated ((Status.isOk_iff s₁).mp (by simpa using hs₁))
  obtain ⟨⟨s₂, vs₂, env₂⟩, happend, h⟩ := bind_eq_ok.mp h
  have hothers₂ := appendEdit_others rfl hcrc (congrArg some hdest.symm) happend
  rw [hdest] at hothers₂
  obtain ⟨log₂, file₂, rfl⟩ := appendEdit_same happend
  simp only at h
  split_ifs at h
  · cases h
    exact (hothers₁.trans hothers₂).mono hsub
  obtain ⟨⟨s₃, env₃⟩, hswitch, h⟩ := bind_eq_ok.mp h
  cases h
  unfold switchCurrent at hswitch
  rw [if_neg (by rw [hm]; simp [text]), ← Steps.outcome_setCurrentFile] at hswitch
  have hothers₃ := ((Steps.keeps_setCurrentFile _ _ _).of_outcome hswitch).1 hs
  exact ((hothers₁.trans hothers₂).mono hsub).trans (hothers₃.mono (List.subset_cons_self _ _))

/-! ## A manifest that is made -/

/-- The manifest that is made begins with the snapshot. -/
theorem Bare.openManifest_created (h : Bare dbname name vs) (hlog : vs.descriptorLog = none)
    {snap : Bytes} (hsnap : (({} : VersionEdit).setComparatorName name).encodeTo = .ok snap)
    (hfit : Log.start 0 + Log.kHeaderSize + snap.length ≤ Log.kBlockSize) {uninit : U32}
    (hopen : vs.openManifest uninit env = .ok (.ok, m, vs', env')) :
    vs' = { vs with
        descriptorFile := some m, descriptorLog := some ((Log.Writer.new m uninit).past snap) }
      ∧ Performs ([true] ++ Log.Writer.turnOps 0) env (.ok, env')
      ∧ env'.content m = some (layout 0 [⟨.kFullType, snap⟩]) := by
  have hne : snap ≠ [] := VersionEdit.encodeTo_ne_nil hsnap (.inl rfl)
  unfold openManifest at hopen
  rw [hlog] at hopen
  obtain ⟨_, -, hopen⟩ := bind_eq_ok.mp hopen
  obtain ⟨m', -, hopen⟩ := bind_eq_ok.mp hopen
  simp only at hopen
  split_ifs at hopen with hnew
  · obtain ⟨⟨s, env₁⟩, hadd, hr, hcontent⟩ :=
      newWritableFile_record m' uninit hne hfit ((Status.isOk_iff _).mp hnew)
    have hsnapShot : VersionSet.snapShot { vs with descriptorFile := some m', descriptorLog := none }
        = .ok (({} : VersionEdit).setComparatorName name) := h.snapShot
    rw [writeSnapShot, hsnapShot, ok_bind, hsnap, ok_bind, hadd, ok_bind] at hopen
    cases hopen
    exact ⟨rfl, hr, hcontent rfl⟩
  · have hs := congrArg Prod.fst (Except.ok.inj hopen)
    exact absurd ((Status.isOk_iff _).mpr hs) hnew

/-- **A manifest that was made** consists of the snapshot and the record of the edit, and `CURRENT`
names it. -/
theorem Bare.writeEdit_created (h : Bare dbname name vs) (hlog : vs.descriptorLog = none)
    {snap record : Bytes} (hsnap : (({} : VersionEdit).setComparatorName name).encodeTo = .ok snap)
    {edit : VersionEdit} (hrecord : edit.encodeTo = .ok record) (hne : record ≠ [])
    (hfit : AllFit 0 [snap, record]) {uninit : U32} {rest : List Bool}
    (hignored : IgnoresNone ([true] ++ Log.Writer.turnOps 0
      ++ (Log.Writer.turnOps (Log.next 0 ⟨.kFullType, snap⟩) ++ rest)) env.script)
    (hrun : vs.writeEdit edit uninit env = .ok (.ok, m, vs', env')) :
    OnDisk dbname env' vs.manifestFileNumber [snap, record] []
      ∧ ∃ log, vs' = { vs with descriptorFile := some log.dest, descriptorLog := some log }
        ∧ log.Continues dbname vs.manifestFileNumber [snap, record]
        ∧ log.blockOffset ≤ Log.kBlockSize ∧ log.typeCrc = Log.initTypeCrc uninit := by
  obtain rfl := h.dbname_eq
  have hignored' := (Env.ignoresNone_append hignored).2
  unfold writeEdit at hrun
  obtain ⟨⟨s₁, m₁, vs₁, env₁⟩, hopen, hrun⟩ := bind_eq_ok.mp hrun
  obtain ⟨hm, -, -⟩ := openManifest_others hlog hopen
  simp only at hrun
  split_ifs at hrun with hs₁
  · cases hrun
    cases hs₁
  obtain rfl : s₁ = .ok := (Status.isOk_iff s₁).mp (by simpa using hs₁)
  obtain ⟨rfl, hperforms, hcontent⟩ := h.openManifest_created hlog hsnap hfit.1 hopen
  set log := (Log.Writer.new m₁ uninit).past snap with hlogdef
  -- the record of the edit goes behind the snapshot
  have hpassed := hperforms.ok_iff.mp rfl
  have hscript : IgnoresNone (Log.Writer.turnOps log.blockOffset) env₁.script := by
    rw [(hperforms.passed hpassed).2]
    exact (Env.ignoresNone_append (hignored' hpassed)).1
  have hle : log.blockOffset ≤ Log.kBlockSize := hfit.1
  have hlog₁ : VersionSet.descriptorLog { vs with
    descriptorFile := some m₁, descriptorLog := some log } = some log := rfl
  obtain ⟨⟨s₂, env₂⟩, happend, hr, hadds⟩ := appendEdit_adds hrecord hne hlog₁ rfl rfl hle hfit.2.1
    hscript
  rw [happend, ok_bind] at hrun
  simp only at hrun
  split_ifs at hrun with hs₂
  · cases hrun
    cases hs₂
  obtain rfl : s₂ = .ok := (Status.isOk_iff _).mp (by simpa using hs₂)
  have hpasses := hr.ok_iff.mp rfl
  rw [Log.Writer.turnOps_eq, List.append_assoc, Env.passes_append] at hpasses
  have hwhole := hadds.whole hpasses.1
  rw [show log.dest = m₁ from rfl, hcontent, Option.map_some] at hwhole
  -- `CURRENT` is switched to it
  obtain ⟨⟨s₃, env₃⟩, hswitch, hrun⟩ := bind_eq_ok.mp hrun
  cases hrun
  unfold switchCurrent at hswitch
  rw [if_neg (by rw [hm]; simp [text])] at hswitch
  obtain ⟨hcurrent, hmanifests⟩ := setCurrentFile_content hswitch
  have hfits : Log.Fits 0 (fulls [snap, record]) := Log.fits_fulls.mpr hfit
  refine ⟨⟨hcurrent, ?_, hfit, Log.torn_nil (Log.endOffset_le (Nat.zero_le _) hfits)⟩,
    log.past record, rfl, ⟨hm, ⟨rfl, rfl⟩⟩, hfit.2.1, rfl⟩
  rw [hmanifests, ← hm, hwhole, List.append_nil]
  exact congrArg some (Log.layout_append 0 [⟨.kFullType, snap⟩] [⟨.kFullType, record⟩]).symm

/-- With a manifest that is open, the record of the edit is appended to it. -/
theorem Bare.writeEdit_appended (h : Bare dbname name vs) {log : Log.Writer}
    (hlog : vs.descriptorLog = some log) {edit : VersionEdit} {record : Bytes}
    (hrecord : edit.encodeTo = .ok record) (hne : record ≠ [])
    (hfit : AllFit log.blockOffset [record]) {uninit : U32} {rest : List Bool}
    (hignored : IgnoresNone (Log.Writer.turnOps log.blockOffset ++ rest) env.script)
    (hrun : vs.writeEdit edit uninit env = .ok (s, m, vs', env')) :
    Adds log.dest (layout log.blockOffset [⟨.kFullType, record⟩])
        (Log.Writer.appendOps log.blockOffset) env env'
      ∧ vs' = { vs with descriptorLog := some (log.past record) } := by
  obtain ⟨ho, uninit', hcrc⟩ := h.log log hlog
  have hfile : vs.descriptorFile = some log.dest := by rw [h.file, hlog]; rfl
  obtain ⟨⟨s₁, env₁⟩, happend, -, hadds⟩ := appendEdit_adds hrecord hne hlog hfile hcrc ho hfit.1
    (Env.ignoresNone_append hignored).1
  rw [writeEdit, openManifest, hlog] at hrun
  simp only [ok_bind, Status.isOk_ok, Bool.not_true, Bool.false_eq_true, if_false, happend] at hrun
  split_ifs at hrun
  · cases hrun
    exact ⟨hadds, rfl⟩
  · cases hrun
    exact ⟨hadds, rfl⟩

/-! ## The operations of a call -/

/-- Where the records of a call of `log_any_apply` go in their block, and the records. -/
def callRecords (vs : VersionSet) (edit : VersionEdit) : Except Fault (Nat × List Bytes) := do
  let edit ← vs.completeEdit edit
  let (_, vs) ← vs.buildVersion edit
  let record ← edit.encodeTo
  match vs.descriptorLog with
  | some log => return (log.blockOffset, [record])
  | none =>
      let snap ← (← vs.snapShot).encodeTo
      return (0, [snap, record])

/-- A call of `log_any_apply` that is within what the manifest can record: the edit has no compact
pointers, every record fits into its block, a manifest that is created is another than the one that
`CURRENT` names, and no append fails whose status is ignored. -/
structure Recordable (vs : VersionSet) (edit : VersionEdit) (env : Env) : Prop where
  compactPointers : edit.compactPointers = []
  fits : ∀ o records, vs.callRecords edit = .ok (o, records) → AllFit o records
  another : vs.CreatesAnother env
  ignored : ∀ ops, vs.operations edit = .ok ops → IgnoresNone ops env.script

/-- The part of this on which a call that succeeds depends. -/
structure Writable (vs : VersionSet) (edit : VersionEdit) (env : Env) : Prop where
  compactPointers : edit.compactPointers = []
  fits : ∀ o records, vs.callRecords edit = .ok (o, records) → AllFit o records
  ignored : ∀ ops, vs.operations edit = .ok ops → IgnoresNone ops env.script

theorem Recordable.writable {edit : VersionEdit} (h : vs.Recordable edit env) :
    vs.Writable edit env :=
  ⟨h.compactPointers, h.fits, h.ignored⟩

theorem recordOps_of_fit {o length : Nat} (hfit : length ≤ Log.Writer.avail o) :
    Log.Writer.recordOps (length + 2) o length
      = (Log.Writer.turnOps o, Log.start o + Log.kHeaderSize + length) := by
  rw [Log.Writer.recordOps, if_pos hfit]

theorem writeOps_of_some {edit : VersionEdit} {log : Log.Writer} (hlog : vs.descriptorLog = some log)
    (ho : log.blockOffset ≤ Log.kBlockSize) {record : Bytes} (hrecord : edit.encodeTo = .ok record)
    (hfit : AllFit log.blockOffset [record]) :
    vs.writeOps edit = .ok (Log.Writer.turnOps log.blockOffset ++ [true]) := by
  rw [writeOps, hrecord, ok_bind, hlog]
  simp only [recordOps_of_fit ((Log.fits_iff_avail ho record).mp hfit.1)]
  rfl

theorem Bare.writeOps_of_none (h : Bare dbname name vs) {edit : VersionEdit}
    (hlog : vs.descriptorLog = none) {snap record : Bytes}
    (hsnap : (({} : VersionEdit).setComparatorName name).encodeTo = .ok snap)
    (hrecord : edit.encodeTo = .ok record) (hfit : AllFit 0 [snap, record]) {ops : List Bool}
    (hops : vs.writeOps edit = .ok ops) :
    ops = [true] ++ Log.Writer.turnOps 0 ++ (Log.Writer.turnOps (Log.next 0 ⟨.kFullType, snap⟩)
      ++ ([true] ++ [true, true, true, true, true])) := by
  rw [writeOps, hrecord, ok_bind, hlog] at hops
  obtain ⟨_, -, hops⟩ := bind_eq_ok.mp hops
  obtain ⟨_, -, hops⟩ := bind_eq_ok.mp hops
  rw [h.snapShot, ok_bind, hsnap, ok_bind] at hops
  simp only [recordOps_of_fit ((Log.fits_iff_avail (Nat.zero_le _) snap).mp hfit.1)] at hops
  have hnext : Log.start 0 + Log.kHeaderSize + snap.length = Log.next 0 ⟨.kFullType, snap⟩ := rfl
  have hle : Log.next 0 ⟨.kFullType, snap⟩ ≤ Log.kBlockSize := hfit.1
  have hfit₂ := (Log.fits_iff_avail hle record).mp hfit.2.1
  rw [hnext, recordOps_of_fit hfit₂] at hops
  cases hops
  simp only [List.append_assoc]

/-- What a call that writes everything does, when nothing fails. -/
theorem exists_writeOps {edit : VersionEdit} {uninit : U32}
    (hrun : vs.writeEdit edit uninit env = .ok (.ok, m, vs', env')) :
    ∃ ops, vs.writeOps edit = .ok ops := by
  unfold writeEdit at hrun
  obtain ⟨⟨s₁, m₁, vs₁, env₁⟩, hopen, hrun⟩ := bind_eq_ok.mp hrun
  simp only at hrun
  split_ifs at hrun with hs₁
  · cases hrun
    cases hs₁
  obtain ⟨⟨s₂, vs₂, env₂⟩, happend, -⟩ := bind_eq_ok.mp hrun
  obtain ⟨record, hrecord, -⟩ := bind_eq_ok.mp happend
  rw [writeOps, hrecord, ok_bind]
  unfold openManifest at hopen
  cases hlog : vs.descriptorLog with
  | some log => exact ⟨_, rfl⟩
  | none =>
      rw [hlog] at hopen
      obtain ⟨_, hfile, hopen⟩ := bind_eq_ok.mp hopen
      obtain ⟨name, hname, hopen⟩ := bind_eq_ok.mp hopen
      simp only at hopen
      split_ifs at hopen with hnew
      · obtain ⟨_, hwrite, -⟩ := bind_eq_ok.mp hopen
        obtain ⟨snapShot, hsnapShot, hwrite⟩ := bind_eq_ok.mp hwrite
        obtain ⟨snap, hsnap, -⟩ := bind_eq_ok.mp hwrite
        have hsnapShot' : vs.snapShot = .ok snapShot := hsnapShot
        rw [hfile, ok_bind, hname, ok_bind, hsnapShot', ok_bind, hsnap]
        exact ⟨_, rfl⟩
      · cases hopen
        simp only [Bool.not_eq_true', Bool.not_eq_false] at hs₁
        exact absurd hs₁ hnew

end VersionSet

end SimpleLeveldb
