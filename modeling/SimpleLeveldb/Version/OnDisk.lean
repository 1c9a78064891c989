import SimpleLeveldb.Open
import SimpleLeveldb.Log.Append
import SimpleLeveldb.Version.LastWriter
import SimpleLeveldb.Version.EditRoundTrip

set_option autoImplicit false

/-! # A manifest on disk

`OnDisk` says which records the manifest that `CURRENT` names consists of, besides the torn
beginning of one more. `recover` reads the edits of these records and nothing else
(`OnDisk.reads`), and accepts them when they are complete (`OnDisk.accepts`).
-/

namespace SimpleLeveldb

open Log (Reader AllFit layout fulls)

namespace VersionEdit

/-! ## Records of edits -/

/-- What `encode_to` writes of an edit without compact pointers: everything but the deletions. -/
def written (e : VersionEdit) : VersionEdit := { e with deletedFiles := ∅ }

theorem WellFormed.decodeFrom_record {e : VersionEdit} (h : e.WellFormed)
    (hc : e.compactPointers = []) {record : Bytes} (hrecord : e.encodeTo = .ok record) :
    decodeFrom record = .ok (.ok, e.written) := by
  obtain ⟨bytes, hbytes, hdecode⟩ := h.decodeFrom_encodeTo hc
  obtain rfl := Except.ok.inj (hbytes.symm.trans hrecord)
  exact hdecode

theorem length_encodeScalars_le {e : VersionEdit} {record : Bytes} (h : e.encodeTo = .ok record) :
    e.encodeScalars.length ≤ record.length := by
  obtain ⟨compactPointers, -, h⟩ := bind_eq_ok.mp h
  obtain ⟨newFiles, -, h⟩ := bind_eq_ok.mp h
  cases h
  simp only [List.length_append]
  omega

/-- A comparator or a log number leaves bytes in the record. -/
theorem encodeTo_ne_nil {e : VersionEdit} {record : Bytes} (h : e.encodeTo = .ok record)
    (hfield : e.hasComparator = true ∨ e.hasLogNumber = true) : record ≠ [] := by
  have hlen := length_encodeScalars_le h
  have hcomparator := putVarint32_length_pos kComparator
  have hlog := putVarint32_length_pos kLogNumber
  rintro rfl
  unfold encodeScalars at hlen
  rcases hfield with hf | hf
  all_goals
    rw [hf] at hlen
    simp only [if_true, List.length_append, List.length_nil] at hlen
    omega

/-- The name of a comparator is shorter than its record. -/
theorem comparator_length_le {e : VersionEdit} {record : Bytes} (h : e.encodeTo = .ok record)
    (hcomparator : e.hasComparator = true) : e.comparator.length ≤ record.length := by
  refine le_trans ?_ (length_encodeScalars_le h)
  simp only [encodeScalars, hcomparator, if_true, putLengthPrefixedSlice, List.length_append]
  omega

end VersionEdit

namespace VersionSet

/-! ## The edits of calls -/

/-- What `log_any_apply` makes of an edit before it is written. -/
structure Completed (vs : VersionSet) (e e' : VersionEdit) : Prop where
  hasLogNumber : e'.hasLogNumber = true
  hasPrevLogNumber : e'.hasPrevLogNumber = true
  hasNextFileNumber : e'.hasNextFileNumber = true
  hasLastSequence : e'.hasLastSequence = true
  nextFileNumber : e'.nextFileNumber = vs.nextFileNumber
  compactPointers : e'.compactPointers = e.compactPointers
  newFiles : e'.newFiles = e.newFiles
  hasComparator : e'.hasComparator = e.hasComparator
  comparator : e'.comparator = e.comparator
  wellFormed : e.WellFormed → e'.WellFormed

theorem completed_of_ok {vs : VersionSet} {e e' : VersionEdit} (h : vs.completeEdit e = .ok e') :
    vs.Completed e e' := by
  have hset : ∀ {d : VersionEdit}, d.WellFormed → ∀ u : VersionEdit.Update, u.Ok →
      (d.update u).WellFormed := fun hd _ hu => VersionEdit.wellFormed_update hd hu
  have he' : e' = ((if e.hasPrevLogNumber then if e.hasLogNumber then e else e.setLogNumber vs.logNumber
      else (if e.hasLogNumber then e else e.setLogNumber vs.logNumber).setPrevLogNumber
        vs.prevLogNumber).setNextFile vs.nextFileNumber).setLastSequence vs.lastSequence := by
    unfold completeEdit at h
    cases hlog : e.hasLogNumber with
    | true =>
        simp only [hlog, if_true] at h
        obtain ⟨_, -, h⟩ := bind_eq_ok.mp h
        obtain ⟨_, -, h⟩ := bind_eq_ok.mp h
        cases h
        rfl
    | false =>
        simp only [hlog] at h
        cases h
        rfl
  subst he'
  cases hlog : e.hasLogNumber with
  | true =>
      cases hprev : e.hasPrevLogNumber with
      | true =>
          refine ⟨hlog, hprev, rfl, rfl, rfl, rfl, rfl, rfl, rfl, fun hwf => ?_⟩
          exact hset (hset hwf (.setNextFile _) trivial) (.setLastSequence _) trivial
      | false =>
          refine ⟨hlog, rfl, rfl, rfl, rfl, rfl, rfl, rfl, rfl, fun hwf => ?_⟩
          exact hset (hset (hset hwf (.setPrevLogNumber _) trivial) (.setNextFile _) trivial)
            (.setLastSequence _) trivial
  | false =>
      cases hprev : e.hasPrevLogNumber with
      | true =>
          refine ⟨rfl, hprev, rfl, rfl, rfl, rfl, rfl, rfl, rfl, fun hwf => ?_⟩
          exact hset (hset (hset hwf (.setLogNumber _) trivial) (.setNextFile _) trivial)
            (.setLastSequence _) trivial
      | false =>
          refine ⟨rfl, rfl, rfl, rfl, rfl, rfl, rfl, rfl, rfl, fun hwf => ?_⟩
          exact hset (hset (hset (hset hwf (.setLogNumber _) trivial) (.setPrevLogNumber _) trivial)
            (.setNextFile _) trivial) (.setLastSequence _) trivial

/-- The numbers that the edits `read` record last are the ones of the edit `last`. -/
structure EndsWith (read : List VersionEdit) (last : VersionEdit) : Prop where
  logNumber : lastRecorded VersionEdit.recordedLogNumber read = some last.logNumber
  prevLogNumber : (lastRecorded VersionEdit.recordedPrevLogNumber read).getD 0 = last.prevLogNumber
  nextFile : lastRecorded VersionEdit.recordedNextFile read = some last.nextFileNumber
  lastSequence : lastRecorded VersionEdit.recordedLastSequence read = some last.lastSequence

theorem Completed.endsWith {vs : VersionSet} {e e' : VersionEdit} (h : vs.Completed e e')
    (before : List VersionEdit) : EndsWith (before ++ [e'.written]) e' := by
  have hlog : e'.written.recordedLogNumber = some e'.logNumber := if_pos h.hasLogNumber
  have hprev : e'.written.recordedPrevLogNumber = some e'.prevLogNumber := if_pos h.hasPrevLogNumber
  have hnext : e'.written.recordedNextFile = some e'.nextFileNumber := if_pos h.hasNextFileNumber
  have hseq : e'.written.recordedLastSequence = some e'.lastSequence := if_pos h.hasLastSequence
  constructor
  all_goals rw [lastRecorded_append]
  · rw [hlog, Option.some_or]
  · rw [hprev, Option.some_or, Option.getD_some]
  · rw [hnext, Option.some_or]
  · rw [hseq, Option.some_or]

/-- A manifest holds the edits `read` after the calls for the edits `applied`: the last of them is
at the end, and before it there are others of them, perhaps behind a snapshot without files. -/
structure Reflects (name : Bytes) (read applied : List VersionEdit) : Prop where
  last : ∃ last, applied.getLast? = some last ∧ EndsWith read last
  mem : ∀ e ∈ read,
    e = ({} : VersionEdit).setComparatorName name ∨ ∃ e' ∈ applied, e = e'.written

theorem Reflects.concat {name : Bytes} {read applied : List VersionEdit}
    (h : Reflects name read applied) {vs : VersionSet} {e e' : VersionEdit}
    (he : vs.Completed e e') : Reflects name (read ++ [e'.written]) (applied ++ [e']) where
  last := ⟨e', List.getLast?_concat, he.endsWith read⟩
  mem := fun d hd => by
    rcases List.mem_append.mp hd with hd | hd
    · exact (h.mem d hd).imp id fun ⟨e₁, he₁, heq⟩ => ⟨e₁, List.mem_append_left _ he₁, heq⟩
    · exact .inr ⟨e', List.mem_append_right _ List.mem_cons_self, List.mem_singleton.mp hd⟩

/-- A manifest that has just been created. -/
theorem Completed.reflects {vs : VersionSet} {e e' : VersionEdit} (h : vs.Completed e e')
    (name : Bytes) (applied : List VersionEdit) :
    Reflects name [({} : VersionEdit).setComparatorName name, e'.written] (applied ++ [e']) where
  last := ⟨e', List.getLast?_concat, h.endsWith [_]⟩
  mem := fun d hd => by
    rcases List.mem_cons.mp hd with hd | hd
    · exact .inl hd
    · exact .inr ⟨e', List.mem_append_right _ List.mem_cons_self, List.mem_singleton.mp hd⟩

/-- The manifest that `NewDB` makes. -/
theorem reflects_newDbEdit (name : Bytes) :
    Reflects name [DbImpl.newDbEdit name] [DbImpl.newDbEdit name] where
  last := ⟨_, rfl, rfl, rfl, rfl, rfl⟩
  mem := fun _ hd => .inr ⟨_, List.mem_cons_self, List.mem_singleton.mp hd⟩

/-! ## What is read without a problem -/

/-- Without a first report there is none. -/
theorem quiet_of_firstReport {rd rd' : Reader} (h : rd.Reports rd') (hquiet : rd.Quiet)
    (hfirst : firstReport rd' = .ok) : rd'.Quiet := by
  obtain ⟨calls, hcalls, hall⟩ := h.calls
  rw [hquiet, Option.map_some, List.nil_append] at hcalls
  cases calls with
  | nil => exact hcalls
  | cons c calls =>
      rw [firstReport, hcalls] at hfirst
      exact absurd hfirst (hall c List.mem_cons_self)

/-- Edits that are read without a problem are the ones of all records, and nothing is reported. -/
theorem readsAll_of_replays {name : Bytes} {rd : Reader} {edits : List VersionEdit} {s : Status}
    (h : Replays name rd edits s) (hs : s = .ok) (hquiet : rd.Quiet) :
    ∃ records rd', Reader.ReadsAll rd records rd' ∧ rd'.Quiet ∧ Decode records edits := by
  induction h with
  | stop hnext =>
      obtain ⟨⟨more, record, rd'⟩, hread, hnext⟩ := bind_eq_ok.mp hnext
      simp only at hnext
      split_ifs at hnext with hmore
      · obtain ⟨_, -, hnext⟩ := bind_eq_ok.mp hnext
        cases hnext
      · cases hnext
        have hquiet' := quiet_of_firstReport (Reader.reports_readRecord hread) hquiet hs
        obtain rfl : more = false := by simpa [hs] using hmore
        exact ⟨[], rd', .done hread, hquiet', .nil⟩
  | bad hnext hne => exact absurd hs hne
  | next hnext _ ih =>
      obtain ⟨⟨more, record, rd'⟩, hread, hnext⟩ := bind_eq_ok.mp hnext
      simp only at hnext
      split_ifs at hnext with hmore
      · obtain ⟨⟨s', edit⟩, hedit, hnext⟩ := bind_eq_ok.mp hnext
        cases hnext
        have hquiet' := quiet_of_firstReport (Reader.reports_readRecord hread) hquiet hmore.2
        obtain ⟨records, rd'', hreads, hquiet'', hdecode⟩ := ih hs hquiet'
        obtain ⟨⟨s₀, edit₀⟩, hdecode₀, hedit⟩ := bind_eq_ok.mp hedit
        have hedit₀ : s₀ = .ok ∧ edit₀ = edit := by
          simp only [pure, Except.pure, Except.ok.injEq, Prod.mk.injEq] at hedit
          refine ⟨?_, hedit.2⟩
          have hstatus := hedit.1
          split_ifs at hstatus
          · cases hstatus
          · exact hstatus
        obtain ⟨rfl, rfl⟩ := hedit₀
        rw [hmore.1] at hread
        exact ⟨record :: records, rd'', .next hread hreads, hquiet'', .cons hdecode₀ hdecode⟩
      · cases hnext

theorem Decode.unique {records : List Bytes} {edits edits' : List VersionEdit}
    (h : Decode records edits) (h' : Decode records edits') : edits' = edits := by
  refine List.right_unique_forall₂' (fun record e e' he he' => ?_) h' h
  have := he.symm.trans he'
  simpa using this

end VersionSet

/-! ## The manifest that `CURRENT` names -/

/-- `CURRENT` names the manifest `number`, which consists of the records `records` and the torn
beginning `tail` of one more. -/
structure OnDisk (dbname : Bytes) (env : Env) (number : U64) (records : List Bytes) (tail : Bytes) :
    Prop where
  current : env.content (currentFileName dbname) = some (descriptorBaseName number ++ text "\n")
  content : env.content (dbname ++ text "/" ++ descriptorBaseName number)
    = some (layout 0 (fulls records) ++ tail)
  fits : AllFit 0 records
  torn : Reader.Torn (Log.endOffset 0 (fulls records)) tail

/-- Every operation and every read to come succeeds. -/
structure Env.Healthy (env : Env) : Prop where
  allOk : env.AllOk
  reads : ∀ e ∈ env.files.entries, e.2.readScript = []

theorem Env.Healthy.readScript {env : Env} (h : env.Healthy) {fname : Bytes} {f : File}
    (hf : env.files.lookup fname = some f) : f.readScript = [] :=
  h.reads _ (AList.mem_lookup_iff.mp hf)

/-- When nothing fails, `reuse_manifest` does as the options say. -/
theorem VersionSet.exists_reuseReturns {vs : VersionSet} (hfile : vs.descriptorFile = none)
    (hlog : vs.descriptorLog = none) (dscname dscbase : Bytes) (uninit : U32) {env : Env}
    (hok : env.AllOk) : ∃ env', vs.ReuseReturns dscname dscbase uninit env env' := by
  cases hreuse : vs.options.reuseLogs with
  | false => exact ⟨env, reuseReturns_of_not hreuse dscname dscbase uninit env⟩
  | true =>
      by_cases hparse : ∃ number, parseFileName dscbase = some (number, .kDescriptorFile)
      · obtain ⟨number, hparse⟩ := hparse
        have hsizeOk : (env.getFileSize dscname).2.2.AllOk := by
          rw [Env.getFileSize, Env.act_of_allOk hok]
          exact hok.tail
        have happend : ((env.getFileSize dscname).2.2.newAppendableFile dscname).1 = .ok := by
          rw [Env.newAppendableFile, Env.act_of_allOk hsizeOk]
        by_cases hskip : !(env.getFileSize dscname).1.isOk
            ∨ vs.options.maxFileSize ≤ (env.getFileSize dscname).2.1
        · refine ⟨(env.getFileSize dscname).2.2, fun vs₁ hoptions _ _ => ⟨false, vs₁, ?_, rfl⟩⟩
          rw [reuseManifest, hoptions, if_neg (by simp [hreuse]), hparse]
          exact if_pos hskip
        · refine ⟨((env.getFileSize dscname).2.2.newAppendableFile dscname).2,
            fun vs₁ hoptions hfile₁ hlog₁ => ⟨true, { vs₁ with
              descriptorFile := some dscname
              descriptorLog := some (Log.Writer.newAt dscname (env.getFileSize dscname).2.1 uninit)
              manifestFileNumber := number }, ?_, rfl⟩⟩
          rw [← hoptions] at hskip
          rw [reuseManifest, if_neg (by simp [hoptions, hreuse]), hparse]
          simp only [if_neg hskip, require_of (hfile₁.trans hfile), require_of (hlog₁.trans hlog),
            ok_bind, happend]
          rfl
      · refine ⟨env, fun vs₁ hoptions _ _ => ⟨false, vs₁, ?_, rfl⟩⟩
        rw [reuseManifest, hoptions, if_neg (by simp [hreuse])]
        split
        · rename_i number hnumber
          exact absurd ⟨number, hnumber⟩ hparse
        · rfl

namespace OnDisk

open VersionSet (Decode LongKeys)

variable {dbname : Bytes} {env env' : Env} {number : U64} {records : List Bytes} {tail : Bytes}

theorem congr (h : OnDisk dbname env number records tail)
    (hsame : ∀ g, env'.content g = env.content g) : OnDisk dbname env' number records tail :=
  ⟨(hsame _).trans h.current, (hsame _).trans h.content, h.fits, h.torn⟩

/-- **What is read** from the manifest without a problem is the edits of its records. -/
theorem reads (h : OnDisk dbname env number records tail) {vs : VersionSet}
    (hname : vs.dbname = dbname) {read edits : List VersionEdit} (hdecode : Decode records read)
    {current : Bytes} {env₂ : Env} (hreads : vs.ReadsManifest env current env₂ edits .ok) :
    current = descriptorBaseName number ∧ edits = read := by
  obtain rfl := hname
  obtain ⟨file, hopen, hreplays⟩ := hreads
  have hcurrent : current ++ [10#8] = descriptorBaseName number ++ text "\n" :=
    Option.some.inj (hopen.current_eq.1.symm.trans h.current)
  obtain rfl : current = descriptorBaseName number := List.append_cancel_right hcurrent
  refine ⟨rfl, ?_⟩
  obtain ⟨env₁, hread, hnew⟩ := hopen
  obtain ⟨-, f, hf, rfl⟩ := Env.newSequentialFile_ok hnew
  have hdata : f.data = layout 0 (fulls records) ++ tail := by
    rw [(Env.readFileToString_ok hread).1] at hf
    have hcontent := h.content
    rw [Env.content, hf] at hcontent
    exact Option.some.inj hcontent
  rw [hdata] at hreplays
  obtain ⟨records', rd, hall, hquiet, hdecode'⟩ :=
    VersionSet.readsAll_of_replays hreplays rfl rfl
  obtain rfl := hall.eq_fulls hquiet h.fits h.torn
  exact hdecode.unique hdecode'

/-- The manifest is opened, and all of it can be read. -/
theorem opens (h : OnDisk dbname env number records tail) (hhealthy : env.Healthy)
    {vs : VersionSet} (hname : vs.dbname = dbname) :
    ∃ env', vs.Opens env (descriptorBaseName number) ⟨layout 0 (fulls records) ++ tail, []⟩ env'
      ∧ env'.AllOk := by
  obtain rfl := hname
  obtain ⟨c, hc, hcdata⟩ := Option.map_eq_some_iff.mp h.current
  obtain ⟨m, hm, hmdata⟩ := Option.map_eq_some_iff.mp h.content
  have hcread := hhealthy.readScript hc
  have hmread := hhealthy.readScript hm
  have htail := hhealthy.allOk.tail
  have hread := Env.readFileToString_of_allOk hhealthy.allOk hc hcread
  have hnew := Env.newSequentialFile_of_allOk htail hm
  rw [hcdata] at hread
  rw [hmdata, hmread] at hnew
  exact ⟨_, ⟨_, hread, hnew⟩, htail.tail⟩

/-- **`recover` accepts the manifest** when nothing fails, and its edits are complete. -/
theorem accepts (h : OnDisk dbname env number records tail) (hhealthy : env.Healthy)
    {vs : VersionSet} (hname : vs.dbname = dbname) {l : List VersionPtr}
    (hlist : VersionList.Listed vs.list l) (hne : l ≠ []) (hfile : vs.descriptorFile = none)
    (hlog : vs.descriptorLog = none) {edits : List VersionEdit} (hdecode : Decode records edits)
    (hkeys : ∀ e ∈ edits, LongKeys e)
    (hcomplete : VersionSet.Complete vs.icmp.userComparator.name edits)
    (saveManifest : Bool) (uninit : U32) :
    ∃ saveManifest' vs' env', vs.recover saveManifest uninit env
      = .ok (.ok, saveManifest', vs', env') := by
  obtain ⟨env₁, hopen, hok⟩ := h.opens hhealthy hname
  obtain ⟨rd, hread, hquiet⟩ := Reader.readAll_fulls h.fits h.torn
  obtain ⟨env₂, hreuse⟩ := VersionSet.exists_reuseReturns hfile hlog
    (vs.dbname ++ text "/" ++ descriptorBaseName number) (descriptorBaseName number) uninit hok
  obtain ⟨s, saveManifest', vs', env', hrec, -, hs, -⟩ := VersionSet.recover_accepts hlist hne hopen
    hread hquiet hdecode hkeys saveManifest hreuse
  obtain rfl := hs.mpr hcomplete
  exact ⟨saveManifest', vs', env', hrec⟩

end OnDisk

end SimpleLeveldb
