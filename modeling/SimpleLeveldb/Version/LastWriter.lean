import SimpleLeveldb.Log.Reports
import SimpleLeveldb.Log.RoundTrip
import SimpleLeveldb.Version.RecoverNumbers

set_option autoImplicit false

/-! # The last writer wins

For a manifest that the log reader returns without a report, and whose records are edits,
`recover` returns, with a status that depends on the edits alone, and the numbers that it sets are
the last ones that the edits record (`recover_spec`).
-/

namespace SimpleLeveldb.VersionSet

open Log (Reader)
open VersionList (Listed)

/-! ## Applying edits -/

/-- The keys by which the files of an edit are ordered are internal keys: eight bytes and more. -/
def LongKeys (edit : VersionEdit) : Prop := ∀ p ∈ edit.newFiles, 8 ≤ p.2.smallest.length

/-- The same for the files that a builder has. -/
def Builder.LongKeys (b : Builder) : Prop :=
  ∀ level, ∀ f ∈ (b.levels level).addedFiles, 8 ≤ f.smallest.length

theorem bySmallestKey_ok (icmp : InternalKeyComparator) {f g : FileMetaData}
    (hf : 8 ≤ f.smallest.length) (hg : 8 ≤ g.smallest.length) :
    ∃ r, bySmallestKey icmp f g = .ok r := by
  obtain ⟨r, hr⟩ := icmp.compareKeys_ok hf hg
  rw [bySmallestKey, hr, ok_bind]
  split_ifs <;> exact ⟨_, rfl⟩

/-- Inserting a file, by induction on the files that are there. -/
theorem insertFile_ok (icmp : InternalKeyComparator) {f : FileMetaData}
    (hf : 8 ≤ f.smallest.length) (l : List FileMetaData) (hl : ∀ g ∈ l, 8 ≤ g.smallest.length) :
    ∃ l', insertFile icmp f l = .ok l' ∧ ∀ g ∈ l', g = f ∨ g ∈ l := by
  induction l with
  | nil => exact ⟨[f], rfl, by simp⟩
  | cons g l ih =>
      have hg := hl g List.mem_cons_self
      obtain ⟨l', hl', hmem⟩ := ih fun k hk => hl k (List.mem_cons_of_mem g hk)
      obtain ⟨r₁, hr₁⟩ := bySmallestKey_ok icmp hf hg
      obtain ⟨r₂, hr₂⟩ := bySmallestKey_ok icmp hg hf
      rw [insertFile, hr₁, ok_bind]
      cases r₁ with
      | true => exact ⟨f :: g :: l, rfl, by simp⟩
      | false =>
          simp only [Bool.false_eq_true, if_false, hr₂, ok_bind]
          cases r₂ with
          | false => exact ⟨g :: l, rfl, fun k hk => .inr hk⟩
          | true =>
              simp only [if_true, hl', ok_bind]
              refine ⟨g :: l', rfl, fun k hk => ?_⟩
              rcases List.mem_cons.mp hk with rfl | hk
              · exact .inr List.mem_cons_self
              · exact (hmem k hk).imp_right (List.mem_cons_of_mem g)

theorem applyNewFile_ok (icmp : InternalKeyComparator) {levels : Level → LevelState}
    (hlevels : ∀ level, ∀ f ∈ (levels level).addedFiles, 8 ≤ f.smallest.length)
    {p : Nat × FileMetaData} (hlevel : p.1 < kNumLevels) (hkey : 8 ≤ p.2.smallest.length) :
    ∃ levels', applyNewFile icmp levels p = .ok levels'
      ∧ ∀ level, ∀ f ∈ (levels' level).addedFiles, 8 ≤ f.smallest.length := by
  rw [applyNewFile, levelOf_of_lt hlevel]
  simp only [ok_bind]
  obtain ⟨added, hadded, hmem⟩ := insertFile_ok icmp
    (f := { p.2 with refs := 1, allowedSeeks := allowedSeeks p.2.fileSize }) hkey _
    (hlevels ⟨p.1, hlevel⟩)
  rw [hadded, ok_bind]
  refine ⟨_, rfl, fun level f hf => ?_⟩
  by_cases he : level = ⟨p.1, hlevel⟩
  · subst he
    rw [Function.update_self] at hf
    rcases hmem f hf with rfl | hf
    · exact hkey
    · exact hlevels _ f hf
  · rw [Function.update_of_ne he] at hf
    exact hlevels level f hf

/-- Applying an edit returns, when its compact pointers can be written, its levels are there and the
keys of its files are long enough to be compared. -/
theorem Builder.LongKeys.apply_of_pointers {b : Builder} (h : b.LongKeys)
    (icmp : InternalKeyComparator) {cp cp' : Level → Bytes} {edit : VersionEdit}
    (hpointers : edit.compactPointers.foldlM applyCompactPointer cp = .ok cp')
    (hdeleted : ∀ p ∈ edit.deletedFiles, p.1 < kNumLevels)
    (hnew : ∀ p ∈ edit.newFiles, p.1 < kNumLevels) (hkeys : VersionSet.LongKeys edit) :
    ∃ b', b.apply icmp cp edit = .ok (cp', b') ∧ b'.LongKeys := by
  rw [Builder.apply, hpointers, ok_bind, applyDeletedFiles, if_pos hdeleted, ok_bind]
  obtain ⟨levels', hlevels', hlong⟩ := exists_foldlM_of_invariant
    (f := applyNewFile icmp) (l := edit.newFiles)
    (fun levels => ∀ level, ∀ f ∈ (levels level).addedFiles, 8 ≤ f.smallest.length)
    (fun levels p hp hlong => applyNewFile_ok icmp hlong (hnew p hp) (hkeys p hp))
    (a := fun level =>
      ⟨(b.levels level).deletedFiles ∪ deletedAt edit.deletedFiles level, (b.levels level).addedFiles⟩) h
  rw [hlevels', ok_bind]
  exact ⟨_, rfl, hlong⟩

/-- **Applying an edit that was read** returns, as long as the keys are long enough to be
compared. -/
theorem Builder.LongKeys.apply {b : Builder} (h : b.LongKeys) (icmp : InternalKeyComparator)
    (cp : Level → Bytes) {record : Bytes} {s : Status} {edit : VersionEdit}
    (hdecode : VersionEdit.decodeFrom record = .ok (s, edit))
    (hkeys : VersionSet.LongKeys edit) :
    ∃ b', b.apply icmp cp edit = .ok (cp, b') ∧ b'.LongKeys := by
  have hlevelled := VersionEdit.decodeFrom_levelled hdecode
  have hpointers : edit.compactPointers.foldlM applyCompactPointer cp = .ok cp := by
    rw [VersionEdit.decodeFrom_compactPointers hdecode]
    rfl
  exact h.apply_of_pointers icmp hpointers hlevelled.deletedFiles hlevelled.newFiles hkeys

/-! ## The loop -/

/-- The edit in a record is accepted, or it names another comparator. -/
theorem readEdit_eq (name : Bytes) {record : Bytes} {edit : VersionEdit}
    (hdecode : VersionEdit.decodeFrom record = .ok (.ok, edit)) :
    ∃ s, readEdit name record = .ok (s, edit) ∧ (s = .ok ↔ edit.Accepted name) := by
  rw [readEdit, hdecode, ok_bind]
  refine ⟨_, rfl, ?_⟩
  split_ifs with hmismatch
  · constructor
    · intro hs
      cases hs
    · intro haccepted
      exact absurd (haccepted hmismatch.2.1) hmismatch.2.2
  · simp only [Status.isOk_ok, true_and, not_and, not_not] at hmismatch
    exact ⟨fun _ => hmismatch, fun _ => rfl⟩

theorem firstReport_of_quiet {rd : Reader} (h : rd.Quiet) : firstReport rd = .ok := by
  rw [firstReport, h]

theorem nextEdit_of_record (name : Bytes) {record : Bytes} {rd rd' : Reader} {edit : VersionEdit}
    (hread : rd.readRecord = .ok (true, record, rd')) (hquiet : rd'.Quiet)
    (hdecode : VersionEdit.decodeFrom record = .ok (.ok, edit)) :
    ∃ s, nextEdit name rd = .ok (.inl (s, edit, rd')) ∧ (s = .ok ↔ edit.Accepted name) := by
  obtain ⟨s, hedit, hs⟩ := readEdit_eq name hdecode
  refine ⟨s, ?_, hs⟩
  rw [nextEdit, hread, ok_bind]
  simp only [firstReport_of_quiet hquiet, and_self, if_true, hedit, ok_bind]
  rfl

/-- The records of a manifest are these edits. -/
abbrev Decode (records : List Bytes) (edits : List VersionEdit) : Prop :=
  List.Forall₂ (fun record edit => VersionEdit.decodeFrom record = .ok (.ok, edit)) records edits

/-- What is read from a manifest: all edits when all are accepted, and otherwise not. -/
theorem replays_of_readsAll (name : Bytes) {rd rd' : Reader} {records : List Bytes}
    {edits : List VersionEdit} (h : Reader.ReadsAll rd records rd') (hquiet : rd'.Quiet)
    (hdecode : Decode records edits) :
    ∃ read s, Replays name rd read s ∧ (s = .ok ↔ ∀ e ∈ edits, e.Accepted name)
      ∧ (s = .ok → read = edits) := by
  induction h generalizing edits with
  | done hread =>
      cases hdecode
      refine ⟨[], .ok, .stop ?_, by simp, fun _ => rfl⟩
      rw [nextEdit, hread, ok_bind]
      simp only [firstReport_of_quiet hquiet]
      rfl
  | next hread hrest ih =>
      rcases hdecode with _ | ⟨hhead, htail⟩
      obtain ⟨s, hnext, hs⟩ := nextEdit_of_record name hread (hrest.quiet hquiet) hhead
      by_cases hok : s = .ok
      · obtain ⟨read, s', hreplays, hs', hall⟩ := ih hquiet htail
        rw [hok] at hnext
        refine ⟨_ :: read, s', .next hnext hreplays, ?_, fun he => by rw [hall he]⟩
        rw [hs', List.forall_mem_cons]
        exact ⟨fun h => ⟨hs.mp hok, h⟩, fun h => h.2⟩
      · refine ⟨[_], s, .bad hnext hok, ?_, fun he => absurd he hok⟩
        rw [hs, List.forall_mem_cons]
        exact ⟨fun h => absurd (hs.mpr h) hok, fun h => h.1⟩

/-- A turn at the end of the manifest, or after an edit that was not accepted, leaves the loop. -/
theorem recoverTurn_leaves {st : RecoverState} {more : Bool} {record : Bytes} {rd : Reader}
    (hread : st.reader.readRecord = .ok (more, record, rd)) (hleave : more = false ∨ st.s ≠ .ok) :
    ∃ st', recoverTurn st = .ok (.inr st') := by
  rw [recoverTurn, hread, ok_bind]
  simp only
  rw [if_neg]
  · exact ⟨_, rfl⟩
  · rintro ⟨hmore, hok⟩
    rcases hleave with hfalse | hne
    · rw [hfalse] at hmore
      cases hmore
    · rw [report_of_ne (show ({ st with reader := rd } : RecoverState).s ≠ .ok from hne)] at hok
      exact hne ((Status.isOk_iff _).mp hok)

theorem recoverRecord_ok {st : RecoverState} {record : Bytes} {edit : VersionEdit}
    (hdecode : VersionEdit.decodeFrom record = .ok (.ok, edit)) (hb : st.b.LongKeys)
    (hkeys : LongKeys edit) :
    ∃ st', recoverRecord st record = .ok st' ∧ st'.reader = st.reader ∧ st'.b.LongKeys := by
  obtain ⟨b, happly, hlong⟩ := hb.apply st.vs.icmp st.vs.compactPointer hdecode hkeys
  have hedit : ∀ s, ∃ cp b, st.applyEdit s edit = .ok (cp, b) ∧ b.LongKeys := by
    intro s
    unfold RecoverState.applyEdit
    split_ifs
    · exact ⟨_, b, happly, hlong⟩
    · exact ⟨_, st.b, rfl, hb⟩
  rw [recoverRecord, hdecode, ok_bind]
  simp only
  generalize (if Status.ok.isOk = true ∧ edit.hasComparator = true
      ∧ edit.comparator ≠ st.vs.icmp.userComparator.name then
        Status.invalidArgument (edit.comparator ++ text " dose not match exsisting comparator ")
          st.vs.icmp.userComparator.name
      else Status.ok) = s
  obtain ⟨cp, b', happly', hlong'⟩ := hedit s
  rw [happly', ok_bind]
  refine ⟨_, rfl, ?_, ?_⟩
  all_goals rw [RecoverState.fold_eq]
  exact hlong'

/-- A turn at a record that is an edit. -/
theorem recoverTurn_of_record {st : RecoverState} {record : Bytes} {rd : Reader}
    {edit : VersionEdit} (hs : st.s = .ok)
    (hread : st.reader.readRecord = .ok (true, record, rd)) (hquiet : rd.Quiet)
    (hdecode : VersionEdit.decodeFrom record = .ok (.ok, edit)) (hb : st.b.LongKeys)
    (hkeys : LongKeys edit) :
    ∃ st', recoverTurn st = .ok (.inl st') ∧ st'.reader = rd ∧ st'.b.LongKeys := by
  obtain ⟨st', hrecord, hrd, hlong⟩ := recoverRecord_ok hdecode
    (show ({ st with reader := rd, s := .ok } : RecoverState).b.LongKeys from hb) hkeys
  have hreport : RecoverState.report { st with reader := rd } = { st with reader := rd, s := .ok } := by
    rw [report_of_ok (show ({ st with reader := rd } : RecoverState).s = .ok from hs)]
    simp only [firstReport_of_quiet hquiet]
  rw [recoverTurn, hread, ok_bind]
  simp only [hreport, Status.isOk_ok, and_self, if_true, hrecord, ok_bind]
  exact ⟨st', rfl, hrd, hlong⟩

/-- **The loop returns**, by induction on the records of the manifest. -/
theorem exists_run_recoverTurn {rd rd' : Reader} {records : List Bytes} {edits : List VersionEdit}
    (h : Reader.ReadsAll rd records rd') (hquiet : rd'.Quiet) (hdecode : Decode records edits)
    (hkeys : ∀ e ∈ edits, LongKeys e) {st : RecoverState} (hrd : st.reader = rd) (hs : st.s = .ok)
    (hb : st.b.LongKeys) {n : Nat} (hn : records.length < n) :
    ∃ st', Loop.run .endless recoverTurn n st = .ok st' := by
  induction h generalizing edits st n with
  | done hread =>
      obtain ⟨n, rfl⟩ : ∃ k, n = k + 1 := ⟨n - 1, by omega⟩
      rw [← hrd] at hread
      obtain ⟨st', hturn⟩ := recoverTurn_leaves hread (.inl rfl)
      exact ⟨st', Loop.run_inr _ hturn n⟩
  | next hread hrest ih =>
      rcases hdecode with _ | ⟨hhead, htail⟩
      rw [List.length_cons] at hn
      obtain ⟨n, rfl⟩ : ∃ k, n = k + 2 := ⟨n - 2, by omega⟩
      rw [← hrd] at hread
      obtain ⟨st₁, hturn, hrd₁, hb₁⟩ := recoverTurn_of_record hs hread (hrest.quiet hquiet) hhead
        hb (hkeys _ List.mem_cons_self)
      rw [Loop.run_inl _ hturn]
      by_cases hs₁ : st₁.s = .ok
      · exact ih hquiet htail (fun e he => hkeys e (List.mem_cons_of_mem _ he)) hrd₁ hs₁ hb₁
          (by omega)
      · -- one more record is read, and not looked at
        obtain ⟨more, record, rd₂, hread₂⟩ : ∃ more record rd₂,
            st₁.reader.readRecord = .ok (more, record, rd₂) := by
          rw [hrd₁]
          cases hrest with
          | done hread₂ => exact ⟨_, _, _, hread₂⟩
          | next hread₂ _ => exact ⟨_, _, _, hread₂⟩
        obtain ⟨st', hturn₁⟩ := recoverTurn_leaves hread₂ (.inr hs₁)
        exact ⟨st', Loop.run_inr _ hturn₁ n⟩

/-! ## The list of versions -/

/-- The builder refers to the current version. -/
theorem newBuilder_ok {vl : VersionList} {l : List VersionPtr} (h : Listed vl l) (hne : l ≠ []) :
    ∃ c vl', newBuilder vl = .ok ({ base := c }, vl') ∧ Listed vl' l ∧ l.getLast? = some c
      ∧ vl'.refsOf c ≠ 1 := by
  obtain ⟨c, hc⟩ : ∃ c, l.getLast? = some c := ⟨_, List.getLast?_eq_some_getLast hne⟩
  have hcl := List.mem_of_getLast? hc
  obtain ⟨vl', href, hlinked, hrefs, -, -, -, -, hcurrent, -⟩ := h.toLinked.ref hcl
  refine ⟨c, vl', ?_, ⟨hlinked, hcurrent.trans h.current⟩, hc, ?_⟩
  · rw [newBuilder, h.current, hc]
    simp only [deref, ok_bind, href]
    rfl
  · have hpos := h.counted c hcl
    omega

/-- For a version set with the options and the manifest of `vs`, `reuse_manifest` returns and leaves
the versions alone; its environment is `env'` then. -/
def ReuseReturns (vs : VersionSet) (dscname dscbase : Bytes) (uninit : U32) (env env' : Env) : Prop :=
  ∀ vs₁ : VersionSet, vs₁.options = vs.options → vs₁.descriptorFile = vs.descriptorFile →
    vs₁.descriptorLog = vs.descriptorLog → ∃ reused vs₂,
      vs₁.reuseManifest dscname dscbase uninit env = .ok (reused, vs₂, env') ∧ vs₂.list = vs₁.list

theorem reuseReturns_of_not {vs : VersionSet} (hreuse : vs.options.reuseLogs = false)
    (dscname dscbase : Bytes) (uninit : U32) (env : Env) :
    vs.ReuseReturns dscname dscbase uninit env env := by
  intro vs₁ hoptions _ _
  unfold reuseManifest
  rw [if_pos (by simp [hoptions, hreuse])]
  exact ⟨false, vs₁, rfl, rfl⟩

/-- The version of a manifest is put at the end of the list, and the one before stays. -/
theorem installRecovered_ok {vs : VersionSet} {l : List VersionPtr} {c : VersionPtr}
    (h : Listed vs.list l) (hc : l.getLast? = some c) (hrefs : vs.list.refsOf c ≠ 1)
    (st : RecoverState) (prevLogNumber : U64) {dscname current : Bytes} (saveManifest : Bool)
    {uninit : U32} {env env' : Env} (hreuse : vs.ReuseReturns dscname current uninit env env') :
    ∃ saveManifest' vs' l', vs.installRecovered st prevLogNumber dscname current saveManifest uninit
        env = .ok (saveManifest', vs', env') ∧ Listed vs'.list l' ∧ c ∈ l' := by
  obtain ⟨vl₂, hfinalize, h₂⟩ := h.newVersion.finalize
  obtain ⟨u, hu, hurefs, hufiles, -⟩ := h₂.version
  obtain ⟨vl₃, happend, h₃⟩ := h₂.listed.appendVersion hu hurefs hufiles h₂.not_mem h₂.fresh
  have hcl := List.mem_of_getLast? hc
  have hremaining : c ∈ vl₂.remaining l := by
    rw [VersionList.remaining, hc]
    simp only [h₂.refsOf c hcl, if_neg hrefs]
    exact hcl
  unfold installRecovered
  simp only [saveTo]
  rw [show vs.list.newVersion.1 = vs.list.nextVersion from rfl, hfinalize, ok_bind, happend, ok_bind]
  obtain ⟨reused, vs₂, hreused, hlist⟩ := hreuse { vs with
    list := vl₃
    manifestFileNumber := st.nextFile
    nextFileNumber := st.nextFile + 1
    lastSequence := st.lastSequence
    logNumber := st.logNumber
    prevLogNumber := prevLogNumber } rfl rfl rfl
  rw [hreused, ok_bind]
  refine ⟨_, vs₂, vl₂.remaining l ++ [vs.list.nextVersion], rfl, ?_, List.mem_append_left _ hremaining⟩
  rw [hlist]
  exact h₃.listed

theorem finishRecover_ok {vs : VersionSet} {l : List VersionPtr} {c : VersionPtr}
    (h : Listed vs.list l) (hc : l.getLast? = some c) (hrefs : vs.list.refsOf c ≠ 1)
    (st : RecoverState) (s : Status) (prevLogNumber : U64) {dscname current : Bytes}
    (saveManifest : Bool) {uninit : U32} {env env' : Env}
    (hreuse : vs.ReuseReturns dscname current uninit env env') :
    ∃ saveManifest' vs' env₁ l', vs.finishRecover st s prevLogNumber dscname current saveManifest
        uninit env = .ok (saveManifest', vs', env₁) ∧ (env₁ = env ∨ env₁ = env')
      ∧ Listed vs'.list l' ∧ c ∈ l' := by
  unfold finishRecover
  split_ifs
  · obtain ⟨saveManifest', vs', l', hinstall, hlisted, hmem⟩ := installRecovered_ok h hc hrefs st
      prevLogNumber saveManifest hreuse
    exact ⟨saveManifest', vs', env', l', hinstall, .inr rfl, hlisted, hmem⟩
  · exact ⟨saveManifest, vs, env, l, rfl, .inl rfl, h, List.mem_of_getLast? hc⟩

/-! ## The numbers -/

theorem lastRecorded_isSome {number : VersionEdit → Option U64} {edits : List VersionEdit} :
    (lastRecorded number edits).isSome ↔ ∃ e ∈ edits, (number e).isSome := by
  rw [lastRecorded, List.getLast?_isSome, Ne, List.filterMap_eq_nil_iff, not_forall]
  simp [Option.isSome_iff_ne_none]

/-- Everything that `recover` asks of the edits of a manifest. -/
structure Complete (name : Bytes) (edits : List VersionEdit) : Prop where
  accepted : ∀ e ∈ edits, e.Accepted name
  nextFile : ∃ e ∈ edits, e.hasNextFileNumber
  logNumber : ∃ e ∈ edits, e.hasLogNumber
  lastSequence : ∃ e ∈ edits, e.hasLastSequence

/-- The numbers are the ones that the edits recorded last. -/
structure LastWritten (vs : VersionSet) (edits : List VersionEdit) : Prop where
  manifestFileNumber : lastRecorded VersionEdit.recordedNextFile edits = some vs.manifestFileNumber
  nextFileNumber : vs.manifestFileNumber.toNat + 1 ≤ vs.nextFileNumber.toNat
  lastSequence : lastRecorded VersionEdit.recordedLastSequence edits = some vs.lastSequence
  logNumber : lastRecorded VersionEdit.recordedLogNumber edits = some vs.logNumber
  prevLogNumber : vs.prevLogNumber = (lastRecorded VersionEdit.recordedPrevLogNumber edits).getD 0

/-- Without reuse of the manifest, the numbers that `recover` sets are the recorded ones. -/
theorem Recovered.lastWritten {vs vs' : VersionSet} {current : Bytes} {env : Env}
    {edits : List VersionEdit} {saveManifest saveManifest' : Bool}
    (h : Recovered vs vs' current env edits saveManifest saveManifest')
    (hreuse : vs.options.reuseLogs = false)
    (hsmall : ∀ n ∈ edits.filterMap VersionEdit.recordedNextFile, n.toNat < 2 ^ 64 - 1) :
    LastWritten vs' edits ∧ saveManifest' = true := by
  have hnone : vs.reusedNumber (vs.dbname ++ text "/" ++ current) current env = none := by
    unfold reusedNumber
    rcases parseFileName current with _ | ⟨number, type⟩
    · rfl
    · cases type with
      | kDescriptorFile => exact if_neg (by simp [hreuse])
      | _ => rfl
  obtain ⟨next, hnext⟩ := Option.isSome_iff_exists.mp h.nextFile
  have hlt := hsmall next (List.mem_of_getLast? hnext)
  have hmanifest := h.manifestFileNumber
  have hnextFile := h.nextFileNumber
  have hsave := h.saveManifest
  rw [hnone] at hmanifest hsave
  rw [hnext, Option.getD_some] at hnextFile
  rw [hnext, Option.getD_none, Option.getD_some] at hmanifest
  refine ⟨⟨?_, ?_, h.lastSequence, h.logNumber, h.prevLogNumber⟩, hsave⟩
  · rw [hnext, hmanifest]
  · rw [hmanifest, hnextFile, BitVec.toNat_add,
      Nat.mod_eq_of_lt (by rw [show (1 : U64).toNat = 1 from rfl]; omega)]
    exact le_refl _

/-! ## `recover` -/

/-- **`recover` returns** on a manifest that is read without a report and holds edits. -/
theorem recover_returns {vs : VersionSet} {l : List VersionPtr} (hlist : Listed vs.list l)
    (hne : l ≠ []) {env env' env'' : Env} {current : Bytes}
    {file : SequentialFile} (hopen : vs.Opens env current file env') {records : List Bytes}
    {rd : Reader} (hread : (Reader.new file (some []) true 0).readAll = .ok (records, rd))
    (hquiet : rd.Quiet) {edits : List VersionEdit} (hdecode : Decode records edits)
    (hkeys : ∀ e ∈ edits, LongKeys e) (saveManifest : Bool) {uninit : U32}
    (hreuse : vs.ReuseReturns (vs.dbname ++ text "/" ++ current) current uninit env' env'') :
    ∃ s saveManifest' vs' env₁, vs.recover saveManifest uninit env = .ok (s, saveManifest', vs', env₁)
      ∧ (env₁ = env' ∨ env₁ = env'') := by
  obtain ⟨env₁, hcurrent, hfile⟩ := hopen
  obtain ⟨hlen, hreads⟩ := Reader.readsAll_of_readAll hread
  obtain ⟨c, vl, hbuilder, hlisted, hlast, hrefs⟩ := newBuilder_ok hlist hne
  have hlong : Builder.LongKeys { base := c } := by
    intro level f hf
    cases hf
  obtain ⟨st, hrun⟩ : ∃ st, Loop.run .endless recoverTurn
      ((Reader.new file (some []) true 0).unread + 1)
      { reader := Reader.new file (some []) true 0, s := .ok, vs := { vs with list := vl },
        b := { base := c } } = .ok st :=
    exists_run_recoverTurn hreads hquiet hdecode hkeys rfl rfl hlong hlen
  obtain ⟨read, hr⟩ := run_recoverTurn rfl tracks_nil hrun
  have hvs : st.vs = { vs with list := vl } := hr.vs
  have hmarked : (marked st.vs st).list = vl ∧ (marked st.vs st).options = vs.options
      ∧ (marked st.vs st).descriptorFile = vs.descriptorFile
      ∧ (marked st.vs st).descriptorLog = vs.descriptorLog := by
    rw [marked, hvs]
    simp only [markFileNumberUsed_eq, and_self]
  obtain ⟨hlist₁, hoptions, hfile₁, hlog₁⟩ := hmarked
  rw [← hlist₁] at hlisted hrefs
  have hreuse₁ : (marked st.vs st).ReuseReturns (vs.dbname ++ text "/" ++ current) current uninit
      env' env'' := fun vs₁ h₁ h₂ h₃ =>
    hreuse vs₁ (h₁.trans hoptions) (h₂.trans hfile₁) (h₃.trans hlog₁)
  obtain ⟨save, vs', env₁', l', hfinish, henv, hlisted', hmem⟩ := finishRecover_ok hlisted hlast hrefs
    st st.check (if st.havePrevLogNumber then st.prevLogNumber else 0) saveManifest hreuse₁
  obtain ⟨vl', hun, -⟩ := hlisted'.toLinked.unRef hmem
  have hbase : st.b.base = c := hr.base
  have hfrom : vs.recoverFrom file (vs.dbname ++ text "/" ++ current) current saveManifest uninit env'
      = .ok (st.check, save, { vs' with list := vl' }, env₁') := by
    rw [recoverFrom, hbuilder]
    simp only [ok_bind, hrun]
    rw [marked] at hfinish
    rw [hfinish]
    simp only [ok_bind, deleteBuilder, hbase, hun]
    rfl
  refine ⟨st.check, save, { vs' with list := vl' }, env₁', ?_, henv⟩
  rw [recover, hcurrent]
  simp only [ok_bind]
  rw [if_neg (by simp), if_neg (by simp), List.dropLast_concat, hfile]
  simp only
  rw [if_neg (by simp)]
  exact hfrom

/-- **`recover` accepts a manifest** whose edits are complete. -/
theorem recover_accepts {vs : VersionSet} {l : List VersionPtr} (hlist : Listed vs.list l)
    (hne : l ≠ []) {env env' env'' : Env} {current : Bytes}
    {file : SequentialFile} (hopen : vs.Opens env current file env') {records : List Bytes}
    {rd : Reader} (hread : (Reader.new file (some []) true 0).readAll = .ok (records, rd))
    (hquiet : rd.Quiet) {edits : List VersionEdit} (hdecode : Decode records edits)
    (hkeys : ∀ e ∈ edits, LongKeys e) (saveManifest : Bool) {uninit : U32}
    (hreuse : vs.ReuseReturns (vs.dbname ++ text "/" ++ current) current uninit env' env'') :
    ∃ s saveManifest' vs' env₁, vs.recover saveManifest uninit env = .ok (s, saveManifest', vs', env₁)
      ∧ (env₁ = env' ∨ env₁ = env'') ∧ (s = .ok ↔ Complete vs.icmp.userComparator.name edits)
      ∧ (s = .ok → vs.ReadsManifest env current env' edits .ok) := by
  obtain ⟨s, saveManifest', vs', env₁, hrec, henv⟩ := recover_returns hlist hne hopen hread hquiet
    hdecode hkeys saveManifest hreuse
  -- what was read is what `replays_of_readsAll` says
  obtain ⟨-, hreads⟩ := Reader.readsAll_of_readAll hread
  obtain ⟨read, s', hreplays, hs', hall⟩ := replays_of_readsAll
    vs.icmp.userComparator.name hreads hquiet hdecode
  rcases recover_cases hrec with ⟨-, -, -, hnot⟩ | ⟨current', env₂, edits', st, hfin⟩
  · exact absurd hopen (hnot current file env')
  obtain ⟨-, -, rfl, hst⟩ := ReadsManifest.unique ⟨file, hopen, hreplays⟩ hfin.reads
  have htracks := hfin.tracks
  have hiff : s = .ok ↔ s' = .ok ∧ (∃ e ∈ edits', e.hasNextFileNumber) ∧ (∃ e ∈ edits', e.hasLogNumber)
      ∧ ∃ e ∈ edits', e.hasLastSequence := by
    rw [hfin.status, RecoverState.check_eq_ok_iff, hst, htracks.nextFile.1, htracks.logNumber.1,
      htracks.lastSequence.1]
    simp only [lastRecorded_isSome, VersionEdit.recordedNextFile_isSome,
      VersionEdit.recordedLogNumber_isSome, VersionEdit.recordedLastSequence_isSome]
  refine ⟨s, saveManifest', vs', env₁, hrec, henv, hiff.trans ?_, fun hok => ?_⟩
  · constructor
    · rintro ⟨hok, hnext, hlog, hseq⟩
      rw [hall hok] at hnext hlog hseq
      exact ⟨hs'.mp hok, hnext, hlog, hseq⟩
    · intro hcomplete
      have hok := hs'.mpr hcomplete.accepted
      rw [hall hok]
      exact ⟨hok, hcomplete.nextFile, hcomplete.logNumber, hcomplete.lastSequence⟩
  · have hok' := (hiff.mp hok).1
    rw [← hall hok', ← hok']
    exact ⟨file, hopen, hreplays⟩

/-- **The last writer wins.** -/
theorem recover_spec {vs : VersionSet} {l : List VersionPtr} (hlist : Listed vs.list l)
    (hne : l ≠ []) (hreuse : vs.options.reuseLogs = false) {env env' : Env} {current : Bytes}
    {file : SequentialFile} (hopen : vs.Opens env current file env') {records : List Bytes}
    {rd : Reader} (hread : (Reader.new file (some []) true 0).readAll = .ok (records, rd))
    (hquiet : rd.Quiet) {edits : List VersionEdit} (hdecode : Decode records edits)
    (hkeys : ∀ e ∈ edits, LongKeys e)
    (hsmall : ∀ n ∈ edits.filterMap VersionEdit.recordedNextFile, n.toNat < 2 ^ 64 - 1)
    (saveManifest : Bool) (uninit : U32) :
    ∃ s saveManifest' vs', vs.recover saveManifest uninit env = .ok (s, saveManifest', vs', env')
      ∧ (s = .ok ↔ Complete vs.icmp.userComparator.name edits)
      ∧ (s = .ok → LastWritten vs' edits ∧ saveManifest' = true) := by
  obtain ⟨s, saveManifest', vs', env₁, hrec, henv, hs, hreads⟩ := recover_accepts hlist hne hopen hread
    hquiet hdecode hkeys saveManifest (reuseReturns_of_not hreuse _ _ uninit env')
  obtain rfl : env₁ = env' := henv.elim id id
  refine ⟨s, saveManifest', vs', hrec, hs, ?_⟩
  rintro rfl
  obtain ⟨current', env₂, edits', hreads', hset⟩ := recovered_of_ok hrec
  obtain ⟨rfl, rfl, rfl, -⟩ := (hreads rfl).unique hreads'
  exact hset.lastWritten hreuse hsmall

/-- The record of the manifest that `withManifest` makes. -/
def manifestRecord (edit : VersionEdit) : Bytes := (edit.fields.map VersionEdit.Field.encode).flatten

theorem withManifest_opens {vs : VersionSet} (hname : vs.dbname = text "db") (edit : VersionEdit) :
    vs.Opens (withManifest edit) (text "MANIFEST-000001")
      ⟨(Log.Fragment.mk .kFullType (manifestRecord edit)).encode, []⟩ (withManifest edit) := by
  have hok : (withManifest edit).AllOk := by
    intro s hs
    cases hs
  have hmanifest : (withManifest edit).files.lookup (text "db/MANIFEST-000001")
      = some { data := (Log.Fragment.mk .kFullType (manifestRecord edit)).encode } := by
    rw [withManifest, AList.lookup_insert_ne (by decide)]
    exact AList.lookup_insert _
  refine ⟨withManifest edit, ?_, ?_⟩
  · rw [hname]
    exact Env.readFileToString_of_allOk hok (AList.lookup_insert _) rfl
  · rw [hname]
    exact Env.newSequentialFile_of_allOk hok hmanifest

/-- A manifest that fits into a block is read without a report. -/
theorem withManifest_reads {edit : VersionEdit}
    (hfit : 7 + (manifestRecord edit).length ≤ Log.kBlockSize) :
    ∃ rd, (Reader.new ⟨(Log.Fragment.mk .kFullType (manifestRecord edit)).encode, []⟩ (some []) true
        0).readAll = .ok ([manifestRecord edit], rd) ∧ rd.Quiet := by
  have hnext : Log.next 0 (Log.Fragment.mk .kFullType (manifestRecord edit)) ≤ Log.kBlockSize := by
    rw [Log.next]
    exact hfit
  have hfits : Log.Fits 0 [Log.Fragment.mk .kFullType (manifestRecord edit)] :=
    ⟨Log.RecordType.noConfusion, hnext, trivial⟩
  obtain ⟨rd, hread, hrep⟩ := Reader.readAll_layout hfits
    (Log.torn_nil (Log.endOffset_le (Nat.zero_le _) hfits)) (some []) true
  refine ⟨rd, ?_, hrep ⟨rfl, trivial⟩⟩
  have hlayout : Log.layout 0 [Log.Fragment.mk .kFullType (manifestRecord edit)] ++ []
      = (Log.Fragment.mk .kFullType (manifestRecord edit)).encode := by
    rw [List.append_nil, Log.layout, Log.layout, List.append_nil,
      show Log.padding 0 = 0 from rfl]
    rfl
  rw [← hlayout]
  exact hread

/-- The manifest with the log number 4 and the next-file number 7 is accepted. -/
theorem recover_spec_seven : ∃ s saveManifest' vs',
    oneVersionSet.recover false 0 (withManifest (numbersEdit 4 7 0))
        = .ok (s, saveManifest', vs', withManifest (numbersEdit 4 7 0))
      ∧ (s = .ok ↔ Complete oneVersionSet.icmp.userComparator.name [numbersEdit 4 7 0])
      ∧ (s = .ok → LastWritten vs' [numbersEdit 4 7 0] ∧ saveManifest' = true) := by
  obtain ⟨rd, hread, hquiet⟩ := withManifest_reads (show 7 + (manifestRecord
    (numbersEdit 4 7 0)).length ≤ Log.kBlockSize by decide +kernel)
  have hsmall : ∀ n ∈ [numbersEdit 4 7 0].filterMap VersionEdit.recordedNextFile,
      n.toNat < 2 ^ 64 - 1 := by
    intro n hn
    obtain rfl : n = 7 := List.mem_singleton.mp hn
    decide
  exact recover_spec oneVersionSet_ready.listed oneVersionSet_ready.ne_nil rfl
    (withManifest_opens rfl _) hread hquiet (.cons (by decide +kernel) .nil)
    (by simp [LongKeys, numbersEdit, VersionEdit.setLogNumber, VersionEdit.setNextFile,
      VersionEdit.setLastSequence]) hsmall false 0

/-- Two files of level 0 with keys of one byte. -/
def shortKeysEdit : VersionEdit :=
  ((numbersEdit 4 7 0).addFile 0 5 100 (text "a") (text "a")).addFile 0 6 100 (text "b") (text "b")

/-- Without the assumption on the keys it fails: the keys of the files of a level are compared,
which an assertion allows for internal keys only. -/
theorem not_forall_recover_spec : ¬ ∀ (vs : VersionSet) (l : List VersionPtr) (env env' : Env)
    (current : Bytes) (file : SequentialFile) (records : List Bytes) (rd : Reader)
    (edits : List VersionEdit) (saveManifest : Bool) (uninit : U32),
    Listed vs.list l → l ≠ [] → vs.options.reuseLogs = false → vs.Opens env current file env' →
    (Reader.new file (some []) true 0).readAll = .ok (records, rd) → rd.Quiet →
    Decode records edits →
    (∀ n ∈ edits.filterMap VersionEdit.recordedNextFile, n.toNat < 2 ^ 64 - 1) →
    ∃ s saveManifest' vs', vs.recover saveManifest uninit env = .ok (s, saveManifest', vs', env')
      ∧ (s = .ok ↔ Complete vs.icmp.userComparator.name edits)
      ∧ (s = .ok → LastWritten vs' edits ∧ saveManifest' = true) := by
  intro hall
  obtain ⟨rd, hread, hquiet⟩ := withManifest_reads (show 7 + (manifestRecord
    shortKeysEdit).length ≤ Log.kBlockSize by decide +kernel)
  have hsmall : ∀ n ∈ [shortKeysEdit].filterMap VersionEdit.recordedNextFile,
      n.toNat < 2 ^ 64 - 1 := by
    intro n hn
    obtain rfl : n = 7 := List.mem_singleton.mp hn
    decide
  obtain ⟨s, saveManifest', vs', hrec, -⟩ := hall oneVersionSet [1] _ _ _ _ _ rd [shortKeysEdit]
    false 0 oneVersionSet_ready.listed oneVersionSet_ready.ne_nil rfl
    (withManifest_opens rfl shortKeysEdit) hread hquiet (.cons (by decide +kernel) .nil)
    hsmall
  have hfault : (oneVersionSet.recover false 0 (withManifest shortKeysEdit)).isOk = false := by
    decide +kernel
  rw [hrec] at hfault
  cases hfault

end SimpleLeveldb.VersionSet
