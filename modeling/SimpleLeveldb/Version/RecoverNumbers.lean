import SimpleLeveldb.Version.Atomic
import SimpleLeveldb.Version.Manifest

set_option autoImplicit false

/-! # The numbers after `recover`

`recover` marks the numbers of the logs as used before it looks at its status, and assigns
`next_file_number_` afterwards. So a call that fails may have raised `next_file_number_`
(`kept_iff`), and after a call that succeeds the marks are gone (`freshNumbers_iff`).
-/

namespace SimpleLeveldb.VersionSet

open Log (Reader)

/-! ## `mark_file_number_used` -/

@[simp] theorem markFileNumberUsed_eq (vs : VersionSet) (number : U64) :
    vs.markFileNumberUsed number = { vs with
      nextFileNumber := if vs.nextFileNumber ≤ number then number + 1 else vs.nextFileNumber } := by
  unfold markFileNumberUsed
  split_ifs <;> rfl

/-- Two numbers, marked as used one after the other, leave `next_file_number_` as it is: they are
smaller, or adding one to the largest number has led back to it. -/
def LeavesNext (next first second : U64) : Prop :=
  (first < next ∧ second < next) ∨ (first = BitVec.allOnes 64 ∧ second + 1 = next)
    ∨ (next = 0 ∧ second = BitVec.allOnes 64)

theorem nextFileNumber_markFileNumberUsed_iff (vs : VersionSet) (first second : U64) :
    ((vs.markFileNumberUsed first).markFileNumberUsed second).nextFileNumber = vs.nextFileNumber
      ↔ LeavesNext vs.nextFileNumber first second := by
  generalize hnext : vs.nextFileNumber = next
  simp only [markFileNumberUsed_eq, hnext, LeavesNext]
  have hall : (BitVec.allOnes 64).toNat = 2 ^ 64 - 1 := by decide
  simp only [BitVec.le_def, BitVec.lt_def, ← BitVec.toNat_inj, BitVec.toNat_add, hall]
  have h₁ := next.isLt
  have h₂ := first.isLt
  have h₃ := second.isLt
  split_ifs <;> simp_all [BitVec.toNat_add] <;> omega

/-! ## The builder -/

theorem deleteVersion_current {vl vl' : VersionList} {p : VersionPtr}
    (h : vl.deleteVersion p = .ok vl') : vl'.current = vl.current := by
  have hmodify : ∀ {vl₁ vl₂ : VersionList} {q : VersionPtr} {f : Version → Version},
      vl₁.modifyVersion q f = .ok vl₂ → vl₂.current = vl₁.current := by
    intro vl₁ vl₂ q f hm
    unfold VersionList.modifyVersion at hm
    split at hm
    · cases hm
      rfl
    · cases hm
  unfold VersionList.deleteVersion at h
  obtain ⟨v, -, h⟩ := bind_eq_ok.mp h
  obtain ⟨_, -, h⟩ := bind_eq_ok.mp h
  obtain ⟨prev, -, h⟩ := bind_eq_ok.mp h
  obtain ⟨vl₁, hprev, h⟩ := bind_eq_ok.mp h
  obtain ⟨next, -, h⟩ := bind_eq_ok.mp h
  obtain ⟨vl₂, hnext, h⟩ := bind_eq_ok.mp h
  obtain ⟨vl₃, hdrop, h⟩ := bind_eq_ok.mp h
  cases h
  rw [← hmodify hprev, ← hmodify hnext]
  have hdropped : vl₃.current = vl₂.current := by
    refine foldlM_invariant (fun vl : VersionList => vl.current = vl₂.current) ?_ rfl hdrop
    intro vl₄ f vl₅ hvl hturn
    obtain ⟨m, -, hturn⟩ := bind_eq_ok.mp hturn
    obtain ⟨_, -, hturn⟩ := bind_eq_ok.mp hturn
    cases hturn
    exact hvl
  exact hdropped

/-- The builder of `recover` refers to the current version while it lives. A version that is
referred to already is as before when the builder is gone. -/
theorem current_of_deleteBuilder {vl vl₁ vl' : VersionList} {b b' : Builder}
    (hnew : newBuilder vl = .ok (b, vl₁)) (hbase : b'.base = b.base)
    (hdelete : deleteBuilder b' vl₁ = .ok vl') :
    vl'.current = vl.current
      ∧ ∀ c v, vl.current = some c → vl.versions c = some v → 1 ≤ v.refs →
        vl'.versions c = some v := by
  obtain ⟨c, hc, hnew⟩ := bind_eq_ok.mp hnew
  obtain ⟨vl₂, href, hnew⟩ := bind_eq_ok.mp hnew
  cases hnew
  rw [deref_eq_ok] at hc
  rw [deleteBuilder, hbase] at hdelete
  unfold VersionList.ref VersionList.modifyVersion at href
  cases hv : vl.versions c with
  | none => rw [hv] at href; cases href
  | some v =>
      rw [hv] at href
      cases href
      obtain ⟨_, -, hdelete⟩ := bind_eq_ok.mp hdelete
      obtain ⟨u, hu, hdelete⟩ := bind_eq_ok.mp hdelete
      obtain ⟨_, -, hdelete⟩ := bind_eq_ok.mp hdelete
      obtain ⟨vl₃, hmodify, hdelete⟩ := bind_eq_ok.mp hdelete
      rw [VersionList.readVersion_of_some (Function.update_self _ _ _)] at hu
      cases hu
      rw [VersionList.modifyVersion_of_some (Function.update_self _ _ _)] at hmodify
      cases hmodify
      simp only [Nat.add_sub_cancel] at hdelete
      constructor
      · split_ifs at hdelete
        · have hcurrent := deleteVersion_current hdelete
          exact hcurrent
        · cases hdelete
          rfl
      · intro c' v' hc' hv' hrefs
        obtain rfl : c' = c := Option.some.inj (hc'.symm.trans hc)
        obtain rfl : v' = v := Option.some.inj (hv'.symm.trans hv)
        rw [if_neg (by omega)] at hdelete
        cases hdelete
        exact Function.update_self _ _ _

/-! ## Calls that fail -/

/-- What a call of `recover` that fails is to leave as it was: the numbers, the compact pointers,
`current_` and the version that it refers to, and `*save_manifest`. -/
structure Kept (vs vs' : VersionSet) (saveManifest saveManifest' : Bool) : Prop where
  nextFileNumber : vs'.nextFileNumber = vs.nextFileNumber
  manifestFileNumber : vs'.manifestFileNumber = vs.manifestFileNumber
  lastSequence : vs'.lastSequence = vs.lastSequence
  logNumber : vs'.logNumber = vs.logNumber
  prevLogNumber : vs'.prevLogNumber = vs.prevLogNumber
  compactPointer : vs'.compactPointer = vs.compactPointer
  current : vs'.list.current = vs.list.current
  version : ∀ c v, vs.list.current = some c → vs.list.versions c = some v → 1 ≤ v.refs →
    vs'.list.versions c = some v
  saveManifest : saveManifest' = saveManifest

/-- The numbers that the loop ends with. -/
theorem RecoverState.Tracks.marked_eq {st : RecoverState} {edits : List VersionEdit}
    (h : st.Tracks edits) (vs : VersionSet) :
    marked vs st
      = (vs.markFileNumberUsed
          ((lastRecorded VersionEdit.recordedPrevLogNumber edits).getD 0)).markFileNumberUsed
        ((lastRecorded VersionEdit.recordedLogNumber edits).getD 0) := by
  have hprev : (if st.havePrevLogNumber then st.prevLogNumber else 0) = st.prevLogNumber := by
    rw [h.prevLogNumber.1, h.prevLogNumber.2]
    cases lastRecorded VersionEdit.recordedPrevLogNumber edits <;> rfl
  rw [marked, hprev, h.prevLogNumber.2, h.logNumber.2]

/-- **A failed call keeps everything** exactly when the numbers of the logs that have been read by
then leave `next_file_number_` as it is. -/
theorem kept_iff {vs vs' : VersionSet} {saveManifest saveManifest' : Bool} {uninit : U32}
    {env env' : Env} {s : Status}
    (h : vs.recover saveManifest uninit env = .ok (s, saveManifest', vs', env')) (hs : s ≠ .ok) :
    Kept vs vs' saveManifest saveManifest'
      ↔ ∀ current env₂ edits s', vs.ReadsManifest env current env₂ edits s' →
        LeavesNext vs.nextFileNumber
          ((lastRecorded VersionEdit.recordedPrevLogNumber edits).getD 0)
          ((lastRecorded VersionEdit.recordedLogNumber edits).getD 0) := by
  rcases recover_cases h with ⟨-, rfl, rfl, hopen⟩ | ⟨current, env₂, edits, st, hfin⟩
  · constructor
    · rintro - current env₂ edits s' ⟨file, hfile, -⟩
      exact absurd hfile (hopen current file env₂)
    · intro _
      exact ⟨rfl, rfl, rfl, rfl, rfl, rfl, rfl, fun _ _ _ hv _ => hv, rfl⟩
  · obtain ⟨b, list, vs₁, list', hnew, hbase, hfinish, hdelete, rfl⟩ := hfin.rest
    rw [finishRecover, if_neg (mt (Status.isOk_iff s).mp hs)] at hfinish
    cases hfinish
    have hlist := current_of_deleteBuilder hnew hbase
      (show deleteBuilder st.b list = .ok list' by simpa [marked] using hdelete)
    have hmarked : Kept vs { marked { vs with list := list } st with list := list' } saveManifest
        saveManifest ↔ (marked { vs with list := list } st).nextFileNumber = vs.nextFileNumber := by
      constructor
      · exact fun hkept => hkept.nextFileNumber
      · intro hnext
        refine ⟨hnext, ?_, ?_, ?_, ?_, ?_, hlist.1, hlist.2, rfl⟩
        all_goals simp only [marked, markFileNumberUsed_eq]
    rw [hmarked, hfin.tracks.marked_eq]
    rw [show vs.nextFileNumber = ({ vs with list := list } : VersionSet).nextFileNumber from rfl,
      nextFileNumber_markFileNumberUsed_iff]
    constructor
    · intro hleaves current' env₂' edits' s' hreads
      obtain ⟨-, -, rfl, -⟩ := hfin.reads.unique hreads
      exact hleaves
    · intro hall
      exact hall _ _ _ _ hfin.reads

/-- The database `db`, whose manifest holds one edit. -/
def withManifest (edit : VersionEdit) : Env where
  files := AList.insert (text "db/CURRENT") { data := text "MANIFEST-000001\n" }
    (AList.insert (text "db/MANIFEST-000001")
      { data := (Log.Fragment.mk .kFullType (edit.fields.map VersionEdit.Field.encode).flatten).encode }
      ∅)

/-- Whether `recover` fails on a manifest, and with which next-file number. -/
def failsWith (vs : VersionSet) (env : Env) : Option U64 :=
  match vs.recover false 0 env with
  | .ok (s, _, vs', _) => if s.isOk then none else some vs'.nextFileNumber
  | .error _ => none

theorem exists_recover {vs : VersionSet} {env : Env} {n : U64} (h : failsWith vs env = some n) :
    ∃ s saveManifest' vs' env', vs.recover false 0 env = .ok (s, saveManifest', vs', env')
      ∧ s ≠ .ok ∧ vs'.nextFileNumber = n := by
  unfold failsWith at h
  split at h
  · rename_i s saveManifest' vs' env' hrec
    split_ifs at h with hs
    refine ⟨s, saveManifest', vs', env', hrec, ?_, Option.some.inj h⟩
    rintro rfl
    exact hs rfl
  · cases h

/-- An edit with the numbers of two logs, and without a next-file number. -/
def logsEdit (logNumber prevLogNumber : U64) : VersionEdit :=
  (({} : VersionEdit).setLogNumber logNumber).setPrevLogNumber prevLogNumber

/-- The numbers of the logs are smaller than `next_file_number_`, which stays. -/
theorem kept_iff_logs : ∃ s saveManifest' vs' env',
    oneVersionSet.recover false 0 (withManifest (logsEdit 4 3)) = .ok (s, saveManifest', vs', env')
      ∧ vs'.nextFileNumber = 6
      ∧ (Kept oneVersionSet vs' false saveManifest' ↔ ∀ current env₂ edits s',
        oneVersionSet.ReadsManifest (withManifest (logsEdit 4 3)) current env₂ edits s' →
        LeavesNext oneVersionSet.nextFileNumber
          ((lastRecorded VersionEdit.recordedPrevLogNumber edits).getD 0)
          ((lastRecorded VersionEdit.recordedLogNumber edits).getD 0)) := by
  obtain ⟨s, saveManifest', vs', env', hrec, hs, hnext⟩ :=
    exists_recover (show failsWith oneVersionSet (withManifest (logsEdit 4 3)) = some 6
      by decide +kernel)
  exact ⟨s, saveManifest', vs', env', hrec, hnext, kept_iff hrec hs⟩

/-- A manifest that records the log number 10, and no next-file number. -/
theorem not_forall_kept : ¬ ∀ (vs vs' : VersionSet) (saveManifest saveManifest' : Bool)
    (uninit : U32) (env env' : Env) (s : Status),
    vs.recover saveManifest uninit env = .ok (s, saveManifest', vs', env') → s ≠ .ok →
    Kept vs vs' saveManifest saveManifest' := by
  intro hall
  obtain ⟨s, saveManifest', vs', env', hrec, hs, hnext⟩ :=
    exists_recover (show failsWith oneVersionSet
      (withManifest { hasLogNumber := true, logNumber := 10 }) = some 11 by decide +kernel)
  have hkept := (hall _ _ _ _ _ _ _ _ hrec hs).nextFileNumber
  rw [hnext] at hkept
  exact absurd hkept (by decide)

/-! ## Calls that succeed -/

/-- The number of the manifest, when `reuse_manifest` opens it for appending. -/
def reusedNumber (vs : VersionSet) (dscname dscbase : Bytes) (env : Env) : Option U64 :=
  match parseFileName dscbase with
  | some (number, .kDescriptorFile) =>
      let (s, size, env) := env.getFileSize dscname
      if vs.options.reuseLogs ∧ s.isOk ∧ size < vs.options.maxFileSize
          ∧ (env.newAppendableFile dscname).1.isOk then some number
      else none
  | _ => none

/-- **`reuse_manifest`** sets the number of the manifest and the writer that appends to it, or
nothing. -/
theorem reuseManifest_cases {vs vs' : VersionSet} {dscname dscbase : Bytes} {uninit : U32}
    {env env' : Env} {reused : Bool}
    (h : vs.reuseManifest dscname dscbase uninit env = .ok (reused, vs', env')) :
    (reused = false ∧ vs' = vs ∧ vs.reusedNumber dscname dscbase env = none
        ∧ (env' = env ∨ env' = (env.getFileSize dscname).2.2))
      ∨ ∃ number, reused = true ∧ vs.reusedNumber dscname dscbase env = some number
        ∧ vs.options.reuseLogs = true
        ∧ env' = ((env.getFileSize dscname).2.2.newAppendableFile dscname).2
        ∧ vs' = { vs with
          descriptorFile := some dscname
          descriptorLog := some (Log.Writer.newAt dscname (env.getFileSize dscname).2.1 uninit)
          manifestFileNumber := number } := by
  unfold reuseManifest at h
  unfold reusedNumber
  by_cases hreuse : vs.options.reuseLogs = true
  swap
  · rw [if_pos (by simp [hreuse])] at h
    cases h
    refine .inl ⟨rfl, rfl, ?_, .inl rfl⟩
    rcases parseFileName dscbase with _ | ⟨number, type⟩
    · rfl
    · cases type with
      | kDescriptorFile => exact if_neg fun hall => hreuse hall.1
      | _ => rfl
  rw [if_neg (by simp [hreuse])] at h
  generalize parseFileName dscbase = parsed at h ⊢
  rcases parsed with _ | ⟨number, type⟩
  · cases h
    exact .inl ⟨rfl, rfl, rfl, .inl rfl⟩
  cases type with
  | kDescriptorFile =>
      simp only at h ⊢
      split_ifs at h with hsize hopen
      · cases h
        refine .inl ⟨rfl, rfl, if_neg ?_, .inr rfl⟩
        rintro ⟨-, hok, hlt, -⟩
        rcases hsize with hs | hs
        · simp [hok] at hs
        · omega
      · -- the two assertions on `descriptor_file_` contradict each other
        obtain ⟨_, hnone, h⟩ := bind_eq_ok.mp h
        obtain ⟨_, -, h⟩ := bind_eq_ok.mp h
        obtain ⟨_, hsome, h⟩ := bind_eq_ok.mp h
        exact absurd (of_require hnone) (of_require hsome)
      · obtain ⟨_, -, h⟩ := bind_eq_ok.mp h
        obtain ⟨_, -, h⟩ := bind_eq_ok.mp h
        cases h
        simp only [Bool.not_eq_true', not_or, Bool.not_eq_false, not_le] at hsize hopen
        exact .inr ⟨number, rfl, if_pos ⟨hreuse, hsize.1, hsize.2, hopen⟩, hreuse, rfl, rfl⟩
  | _ =>
      cases h
      exact .inl ⟨rfl, rfl, rfl, .inl rfl⟩

/-- The numbers that are recorded last: the ones of the logs, and the one of a manifest that is
opened again, do not exceed the next-file number. -/
structure Ordered (vs : VersionSet) (current : Bytes) (env : Env) (edits : List VersionEdit) :
    Prop where
  logNumber : (lastRecorded VersionEdit.recordedLogNumber edits).getD 0
    ≤ (lastRecorded VersionEdit.recordedNextFile edits).getD 0
  prevLogNumber : (lastRecorded VersionEdit.recordedPrevLogNumber edits).getD 0
    ≤ (lastRecorded VersionEdit.recordedNextFile edits).getD 0
  reused : ∀ number, vs.reusedNumber (vs.dbname ++ text "/" ++ current) current env = some number →
    number ≤ (lastRecorded VersionEdit.recordedNextFile edits).getD 0

/-- What a call that succeeds sets. -/
structure Recovered (vs vs' : VersionSet) (current : Bytes) (env : Env) (edits : List VersionEdit)
    (saveManifest saveManifest' : Bool) : Prop where
  nextFile : (lastRecorded VersionEdit.recordedNextFile edits).isSome
  nextFileNumber : vs'.nextFileNumber
    = (lastRecorded VersionEdit.recordedNextFile edits).getD 0 + 1
  manifestFileNumber : vs'.manifestFileNumber
    = (vs.reusedNumber (vs.dbname ++ text "/" ++ current) current env).getD
      ((lastRecorded VersionEdit.recordedNextFile edits).getD 0)
  lastSequence : lastRecorded VersionEdit.recordedLastSequence edits = some vs'.lastSequence
  logNumber : lastRecorded VersionEdit.recordedLogNumber edits = some vs'.logNumber
  prevLogNumber : vs'.prevLogNumber
    = (lastRecorded VersionEdit.recordedPrevLogNumber edits).getD 0
  saveManifest : saveManifest' = if (vs.reusedNumber (vs.dbname ++ text "/" ++ current) current
    env).isSome then saveManifest else true
  dbname : vs'.dbname = vs.dbname
  descriptorLog : vs.reusedNumber (vs.dbname ++ text "/" ++ current) current env = none →
    vs'.descriptorLog = vs.descriptorLog

theorem Holds.eq_some {value : U64} {recorded : Option U64} (h : Holds true value recorded) :
    recorded = some value := by
  obtain ⟨hsome, rfl⟩ := h
  cases recorded with
  | none => cases hsome
  | some n => rfl

/-- The status after the loop is OK when the loop went well and the three numbers are there. -/
theorem RecoverState.check_eq_ok_iff {st : RecoverState} :
    st.check = .ok ↔ st.s = .ok ∧ st.haveNextFile = true ∧ st.haveLogNumber = true
      ∧ st.haveLastSequence = true := by
  unfold check
  rw [← Status.isOk_iff st.s]
  split_ifs with hs hnext hlog hseq
  all_goals simp_all [Status.isOk_iff, Status.corruption, Status.make]

theorem finishRecover_of_ok {vs vs' : VersionSet} {st : RecoverState} {prevLogNumber : U64}
    {dscname current : Bytes} {saveManifest saveManifest' : Bool} {uninit : U32} {env env' : Env}
    (h : vs.finishRecover st .ok prevLogNumber dscname current saveManifest uninit env
      = .ok (saveManifest', vs', env')) :
    vs'.nextFileNumber = st.nextFile + 1 ∧ vs'.lastSequence = st.lastSequence
      ∧ vs'.logNumber = st.logNumber ∧ vs'.prevLogNumber = prevLogNumber
      ∧ vs'.manifestFileNumber = (vs.reusedNumber dscname current env).getD st.nextFile
      ∧ (saveManifest' = if (vs.reusedNumber dscname current env).isSome then saveManifest
        else true)
      ∧ vs'.dbname = vs.dbname
      ∧ (vs.reusedNumber dscname current env = none → vs'.descriptorLog = vs.descriptorLog) := by
  rw [finishRecover, if_pos (show Status.ok.isOk = true from rfl)] at h
  unfold installRecovered at h
  obtain ⟨_, -, h⟩ := bind_eq_ok.mp h
  obtain ⟨list, -, h⟩ := bind_eq_ok.mp h
  obtain ⟨⟨reused, vs₁, env₁⟩, hreuse, h⟩ := bind_eq_ok.mp h
  cases h
  rcases reuseManifest_cases hreuse with ⟨rfl, rfl, hnone, -⟩ | ⟨number, rfl, hsome, -, -, rfl⟩
  · rw [show vs.reusedNumber dscname current env = none from hnone]
    exact ⟨rfl, rfl, rfl, rfl, rfl, rfl, rfl, fun _ => rfl⟩
  · rw [show vs.reusedNumber dscname current env = some number from hsome]
    exact ⟨rfl, rfl, rfl, rfl, rfl, rfl, rfl, fun hnone => by cases hnone⟩

/-- **A call that succeeds** has read the whole manifest, and sets the numbers that were recorded
last. -/
theorem recovered_of_ok {vs vs' : VersionSet} {saveManifest saveManifest' : Bool} {uninit : U32}
    {env env' : Env}
    (h : vs.recover saveManifest uninit env = .ok (.ok, saveManifest', vs', env')) :
    ∃ current env₂ edits, vs.ReadsManifest env current env₂ edits .ok
      ∧ Recovered vs vs' current env₂ edits saveManifest saveManifest' := by
  rcases recover_cases h with ⟨hne, -⟩ | ⟨current, env₂, edits, st, hfin⟩
  · exact absurd rfl hne
  · obtain ⟨hs, hnext, hlog, hseq⟩ := RecoverState.check_eq_ok_iff.mp hfin.status.symm
    obtain ⟨b, list, vs₁, list', -, -, hfinish, -, rfl⟩ := hfin.rest
    obtain ⟨hnext', hseq', hlog', hprev', hmanifest, hsave, hname, hdescriptor⟩ :=
      finishRecover_of_ok hfinish
    have htracks := hfin.tracks
    have hreads := hfin.reads
    rw [hs] at hreads
    have hlast := htracks.logNumber
    rw [hlog] at hlast
    have hsequence := htracks.lastSequence
    rw [hseq] at hsequence
    have hreused : ∀ dscname env, (marked { vs with list := list } st).reusedNumber dscname current
        env = vs.reusedNumber dscname current env := by
      intro dscname env
      simp only [reusedNumber, marked, markFileNumberUsed_eq]
    have hsame : (marked { vs with list := list } st).dbname = vs.dbname
        ∧ (marked { vs with list := list } st).descriptorLog = vs.descriptorLog := by
      simp only [marked, markFileNumberUsed_eq, and_self]
    rw [hreused] at hmanifest hsave hdescriptor
    rw [hsame.1] at hname
    rw [hsame.2] at hdescriptor
    refine ⟨current, env₂, edits, hreads, ?_, ?_, ?_, ?_, ?_, ?_, hsave, hname, hdescriptor⟩
    · rw [← htracks.nextFile.1, hnext]
    · rw [hnext', htracks.nextFile.2]
    · rw [hmanifest, htracks.nextFile.2]
    · rw [hseq', hsequence.eq_some]
    · rw [hlog', hlast.eq_some]
    · rw [hprev']
      split_ifs with hhave
      · exact htracks.prevLogNumber.2
      · have hnone := htracks.prevLogNumber.1
        cases hp : lastRecorded VersionEdit.recordedPrevLogNumber edits with
        | none => rfl
        | some n => rw [hp] at hnone; exact absurd hnone hhave

/-- Whether `recover` succeeds on a manifest, and what it sets `next_file_number_` and
`log_number_` to. -/
def succeedsWith (vs : VersionSet) (env : Env) : Option (U64 × U64) :=
  match vs.recover false 0 env with
  | .ok (s, _, vs', _) => if s.isOk then some (vs'.nextFileNumber, vs'.logNumber) else none
  | .error _ => none

theorem exists_recover_ok {vs : VersionSet} {env : Env} {n m : U64}
    (h : succeedsWith vs env = some (n, m)) :
    ∃ saveManifest' vs' env', vs.recover false 0 env = .ok (.ok, saveManifest', vs', env')
      ∧ vs'.nextFileNumber = n ∧ vs'.logNumber = m := by
  unfold succeedsWith at h
  split at h
  · rename_i s saveManifest' vs' env' hrec
    split_ifs at h with hs
    cases (Status.isOk_iff s).mp hs
    cases h
    exact ⟨saveManifest', vs', env', hrec, rfl, rfl⟩
  · cases h

/-- An edit with the three numbers that `recover` asks for. -/
def numbersEdit (logNumber nextFile lastSequence : U64) : VersionEdit :=
  (({} : VersionEdit).setLogNumber logNumber).setNextFile nextFile |>.setLastSequence lastSequence

end SimpleLeveldb.VersionSet
