import SimpleLeveldb.Version.Install

set_option autoImplicit false

/-! # Reading a manifest

The loop of `recover` reads the records of a manifest until one of them is no edit, names another
comparator, or is damaged. `Replays` says which edits it has read then, and with which status,
without the variables of the loop; what the loop leaves in these variables are the numbers that
the edits recorded last (`Tracks`).
-/

namespace SimpleLeveldb

open Log (Reader)

namespace VersionEdit

/-! ## The numbers of an edit -/

def recordedLogNumber (e : VersionEdit) : Option U64 :=
  if e.hasLogNumber then some e.logNumber else none

def recordedPrevLogNumber (e : VersionEdit) : Option U64 :=
  if e.hasPrevLogNumber then some e.prevLogNumber else none

def recordedNextFile (e : VersionEdit) : Option U64 :=
  if e.hasNextFileNumber then some e.nextFileNumber else none

def recordedLastSequence (e : VersionEdit) : Option U64 :=
  if e.hasLastSequence then some e.lastSequence else none

@[simp] theorem recordedLogNumber_isSome (e : VersionEdit) :
    e.recordedLogNumber.isSome = e.hasLogNumber := by
  unfold recordedLogNumber
  cases e.hasLogNumber <;> rfl

@[simp] theorem recordedNextFile_isSome (e : VersionEdit) :
    e.recordedNextFile.isSome = e.hasNextFileNumber := by
  unfold recordedNextFile
  cases e.hasNextFileNumber <;> rfl

@[simp] theorem recordedLastSequence_isSome (e : VersionEdit) :
    e.recordedLastSequence.isSome = e.hasLastSequence := by
  unfold recordedLastSequence
  cases e.hasLastSequence <;> rfl

/-- The comparator of an edit is the one with the given name, or it has none. -/
def Accepted (name : Bytes) (e : VersionEdit) : Prop := e.hasComparator → e.comparator = name

instance (name : Bytes) (e : VersionEdit) : Decidable (e.Accepted name) :=
  inferInstanceAs (Decidable (_ → _))

end VersionEdit

namespace VersionSet

/-- The number that edits record last. -/
def lastRecorded (number : VersionEdit → Option U64) (edits : List VersionEdit) : Option U64 :=
  (edits.filterMap number).getLast?

theorem lastRecorded_append (number : VersionEdit → Option U64) (edits : List VersionEdit)
    (e : VersionEdit) :
    lastRecorded number (edits ++ [e]) = (number e).or (lastRecorded number edits) := by
  unfold lastRecorded
  cases h : number e with
  | none => simp [List.filterMap_append, h]
  | some n => simp [List.filterMap_append, h]

/-- A flag and a number of the loop hold what edits record last, and nothing and 0 before. -/
def Holds (have_ : Bool) (value : U64) (recorded : Option U64) : Prop :=
  have_ = recorded.isSome ∧ value = recorded.getD 0

theorem Holds.next {have_ : Bool} {value : U64} {recorded : Option U64}
    (h : Holds have_ value recorded) (present : Bool) (n : U64) :
    Holds (if present then true else have_) (if present then n else value)
      ((if present then some n else none).or recorded) := by
  cases present with
  | false => exact h
  | true => exact ⟨rfl, rfl⟩

namespace RecoverState

/-- The variables of the loop hold the numbers that the edits recorded last. -/
structure Tracks (st : RecoverState) (edits : List VersionEdit) : Prop where
  logNumber : Holds st.haveLogNumber st.logNumber
    (lastRecorded VersionEdit.recordedLogNumber edits)
  prevLogNumber : Holds st.havePrevLogNumber st.prevLogNumber
    (lastRecorded VersionEdit.recordedPrevLogNumber edits)
  nextFile : Holds st.haveNextFile st.nextFile
    (lastRecorded VersionEdit.recordedNextFile edits)
  lastSequence : Holds st.haveLastSequence st.lastSequence
    (lastRecorded VersionEdit.recordedLastSequence edits)

/-- `fold`, field by field. -/
theorem fold_eq (st : RecoverState) (e : VersionEdit) :
    st.fold e = { st with
      haveLogNumber := if e.hasLogNumber then true else st.haveLogNumber
      logNumber := if e.hasLogNumber then e.logNumber else st.logNumber
      havePrevLogNumber := if e.hasPrevLogNumber then true else st.havePrevLogNumber
      prevLogNumber := if e.hasPrevLogNumber then e.prevLogNumber else st.prevLogNumber
      haveNextFile := if e.hasNextFileNumber then true else st.haveNextFile
      nextFile := if e.hasNextFileNumber then e.nextFileNumber else st.nextFile
      haveLastSequence := if e.hasLastSequence then true else st.haveLastSequence
      lastSequence := if e.hasLastSequence then e.lastSequence else st.lastSequence } := by
  unfold fold
  split_ifs <;> rfl

theorem Tracks.fold {st : RecoverState} {edits : List VersionEdit} (h : st.Tracks edits)
    (e : VersionEdit) : (st.fold e).Tracks (edits ++ [e]) := by
  rw [fold_eq]
  constructor
  all_goals rw [lastRecorded_append]
  · exact h.logNumber.next _ _
  · exact h.prevLogNumber.next _ _
  · exact h.nextFile.next _ _
  · exact h.lastSequence.next _ _

end RecoverState

/-! ## The edits that are read -/

/-- The first report of a reader. -/
def firstReport (rd : Reader) : Status :=
  match rd.reporter with
  | some ((_, reason) :: _) => reason
  | _ => .ok

theorem report_of_ok {st : RecoverState} (h : st.s = .ok) :
    st.report = { st with s := firstReport st.reader } := by
  have hsame : st = { st with s := .ok } := by rw [← h]
  rw [RecoverState.report, firstReport, h, Status.isOk_ok]
  rcases st.reader.reporter with _ | _ | ⟨⟨n, reason⟩, calls⟩
  · exact hsame
  · exact hsame
  · rfl

theorem report_of_ne {st : RecoverState} (h : st.s ≠ .ok) : st.report = st := by
  have hnot : st.s.isOk = false := by
    rw [Bool.eq_false_iff]
    exact mt (Status.isOk_iff _).mp h
  unfold RecoverState.report
  rw [hnot]
  split <;> rfl

/-- The edit in a record of a manifest, and the status that `recover` has after it. -/
def readEdit (name record : Bytes) : Except Fault (Status × VersionEdit) := do
  let (s, edit) ← VersionEdit.decodeFrom record
  return (
    if s.isOk ∧ edit.hasComparator ∧ edit.comparator ≠ name then
      .invalidArgument (edit.comparator ++ text " dose not match exsisting comparator ") name
    else s, edit)

/-- What is read next from a manifest: an edit, or the status at the end of what can be read. -/
def nextEdit (name : Bytes) (rd : Reader) :
    Except Fault ((Status × VersionEdit × Reader) ⊕ Status) := do
  let (more, record, rd) ← rd.readRecord
  if more ∧ firstReport rd = .ok then
    let (s, edit) ← readEdit name record
    return .inl (s, edit, rd)
  else return .inr (firstReport rd)

/-- `Replays name rd edits s`: reading on from `rd`, these are the edits up to the first problem,
or all of them; `s` is the problem. An edit that is the problem itself is read with the others. -/
inductive Replays (name : Bytes) : Reader → List VersionEdit → Status → Prop
  | stop {rd : Reader} {s : Status} : nextEdit name rd = .ok (.inr s) → Replays name rd [] s
  | bad {rd rd' : Reader} {s : Status} {edit : VersionEdit} :
      nextEdit name rd = .ok (.inl (s, edit, rd')) → s ≠ .ok → Replays name rd [edit] s
  | next {rd rd' : Reader} {edit : VersionEdit} {edits : List VersionEdit} {s : Status} :
      nextEdit name rd = .ok (.inl (.ok, edit, rd')) → Replays name rd' edits s →
      Replays name rd (edit :: edits) s

/-- What is read is determined. -/
theorem Replays.unique {name : Bytes} {rd : Reader} {edits edits' : List VersionEdit}
    {s s' : Status} (h : Replays name rd edits s) (h' : Replays name rd edits' s') :
    edits' = edits ∧ s' = s := by
  induction h generalizing edits' s' with
  | stop hnext =>
      cases h' with
      | stop hnext' => cases hnext.symm.trans hnext'; exact ⟨rfl, rfl⟩
      | bad hnext' _ => cases hnext.symm.trans hnext'
      | next hnext' _ => cases hnext.symm.trans hnext'
  | bad hnext hne =>
      cases h' with
      | stop hnext' => cases hnext.symm.trans hnext'
      | bad hnext' _ => cases hnext.symm.trans hnext'; exact ⟨rfl, rfl⟩
      | next hnext' _ => cases hnext.symm.trans hnext'; exact absurd rfl hne
  | next hnext _ ih =>
      cases h' with
      | stop hnext' => cases hnext.symm.trans hnext'
      | bad hnext' hne => cases hnext.symm.trans hnext'; exact absurd rfl hne
      | next hnext' hrest =>
          cases hnext.symm.trans hnext'
          obtain ⟨rfl, rfl⟩ := ih hrest
          exact ⟨rfl, rfl⟩

/-! ## The loop of `recover` -/

/-- An edit that has been read has no compact pointers, so that it changes nothing but the
builder. -/
theorem applyEdit_eq {st : RecoverState} {record : Bytes} {s s' : Status} {edit : VersionEdit}
    {cp : Level → Bytes} {b : Builder} (hdecode : VersionEdit.decodeFrom record = .ok (s, edit))
    (h : st.applyEdit s' edit = .ok (cp, b)) :
    cp = st.vs.compactPointer ∧ b.base = st.b.base := by
  unfold RecoverState.applyEdit at h
  split_ifs at h
  · refine ⟨?_, apply_base h⟩
    obtain ⟨cp', hcp, h⟩ := bind_eq_ok.mp h
    obtain ⟨_, -, h⟩ := bind_eq_ok.mp h
    obtain ⟨_, -, h⟩ := bind_eq_ok.mp h
    cases h
    rw [VersionEdit.decodeFrom_compactPointers hdecode] at hcp
    exact (Except.ok.inj hcp).symm
  · cases h
    exact ⟨rfl, rfl⟩

/-- What one turn does: it folds in the next edit, or it leaves with the status. -/
theorem recoverTurn_cases {st : RecoverState} {r : RecoverState ⊕ RecoverState} (hs : st.s = .ok)
    (h : recoverTurn st = .ok r) :
    (∃ s edit rd b, nextEdit st.vs.icmp.userComparator.name st.reader = .ok (.inl (s, edit, rd))
        ∧ b.base = st.b.base
        ∧ r = .inl (RecoverState.fold { st with reader := rd, s := s, b := b } edit))
      ∨ ∃ s rd, nextEdit st.vs.icmp.userComparator.name st.reader = .ok (.inr s)
        ∧ r = .inr { st with reader := rd, s := s } := by
  unfold recoverTurn at h
  obtain ⟨⟨more, record, rd⟩, hread, h⟩ := bind_eq_ok.mp h
  rw [nextEdit, hread, ok_bind]
  simp only at h ⊢
  rw [report_of_ok (show ({ st with reader := rd } : RecoverState).s = .ok from hs)] at h
  by_cases hmore : more = true ∧ firstReport rd = .ok
  · rw [if_pos ⟨hmore.1, (Status.isOk_iff _).mpr hmore.2⟩] at h
    rw [if_pos hmore]
    obtain ⟨st', hrecord, h⟩ := bind_eq_ok.mp h
    cases h
    obtain ⟨⟨s, edit⟩, hdecode, hrecord⟩ := bind_eq_ok.mp hrecord
    obtain ⟨⟨cp, b⟩, happly, hrecord⟩ := bind_eq_ok.mp hrecord
    cases hrecord
    obtain ⟨rfl, hbase⟩ := applyEdit_eq hdecode happly
    refine .inl ⟨_, edit, rd, b, ?_, hbase, rfl⟩
    rw [readEdit, hdecode]
    rfl
  · rw [if_neg (mt (And.imp_right (Status.isOk_iff _).mp) hmore)] at h
    rw [if_neg hmore]
    cases h
    exact .inr ⟨_, rd, rfl, rfl⟩

/-- After a problem the loop leaves with what it has. -/
theorem recoverTurn_of_ne {st : RecoverState} {r : RecoverState ⊕ RecoverState} (hs : st.s ≠ .ok)
    (h : recoverTurn st = .ok r) : ∃ rd, r = .inr { st with reader := rd } := by
  unfold recoverTurn at h
  obtain ⟨⟨more, record, rd⟩, -, h⟩ := bind_eq_ok.mp h
  simp only at h
  rw [report_of_ne (show ({ st with reader := rd } : RecoverState).s ≠ .ok from hs)] at h
  rw [if_neg fun hc => hs ((Status.isOk_iff _).mp hc.2)] at h
  cases h
  exact ⟨rd, rfl⟩

/-- What the loop leaves behind. -/
structure Replayed (st st' : RecoverState) (edits₀ edits : List VersionEdit) : Prop where
  replays : Replays st.vs.icmp.userComparator.name st.reader edits st'.s
  tracks : st'.Tracks (edits₀ ++ edits)
  vs : st'.vs = st.vs
  base : st'.b.base = st.b.base

/-- **The loop** folds the edits of the manifest, by induction on its rounds. -/
theorem run_recoverTurn {n : Nat} {st st' : RecoverState} {edits₀ : List VersionEdit}
    (hs : st.s = .ok) (htracks : st.Tracks edits₀)
    (h : Loop.run .endless recoverTurn n st = .ok st') : ∃ edits, Replayed st st' edits₀ edits := by
  induction n generalizing st edits₀ with
  | zero => cases h
  | succ n ih =>
      match hturn : recoverTurn st with
      | .error e => rw [Loop.run_error _ hturn] at h; cases h
      | .ok r =>
          rcases recoverTurn_cases hs hturn with ⟨s, edit, rd, b, hnext, hbase, rfl⟩ | ⟨s, rd, hnext, rfl⟩
          · rw [Loop.run_inl _ hturn] at h
            set st₁ := RecoverState.fold { st with reader := rd, s := s, b := b } edit with hst₁
            have hfold : st₁.reader = rd ∧ st₁.s = s ∧ st₁.vs = st.vs ∧ st₁.b = b := by
              rw [hst₁, RecoverState.fold_eq]
              exact ⟨rfl, rfl, rfl, rfl⟩
            have htracks₀ : RecoverState.Tracks { st with reader := rd, s := s, b := b } edits₀ :=
              ⟨htracks.logNumber, htracks.prevLogNumber, htracks.nextFile, htracks.lastSequence⟩
            have htracks₁ : st₁.Tracks (edits₀ ++ [edit]) := htracks₀.fold edit
            obtain ⟨hrd, hs₁, hvs, hb⟩ := hfold
            by_cases hok : s = .ok
            · subst hok
              obtain ⟨edits, hr⟩ := ih hs₁ htracks₁ h
              have hreplays := hr.replays
              rw [hvs, hrd] at hreplays
              refine ⟨edit :: edits, .next hnext hreplays, ?_, hr.vs.trans hvs, ?_⟩
              · have := hr.tracks
                rwa [List.append_assoc] at this
              · rw [hr.base, hb, hbase]
            · -- the loop is left at the next turn, whatever the reader has
              cases n with
              | zero => cases h
              | succ n =>
                  match hturn₁ : recoverTurn st₁ with
                  | .error e => rw [Loop.run_error _ hturn₁] at h; cases h
                  | .ok r =>
                      obtain ⟨rd', rfl⟩ := recoverTurn_of_ne (by rw [hs₁]; exact hok) hturn₁
                      rw [Loop.run_inr _ hturn₁] at h
                      cases h
                      refine ⟨[edit], ?_, ?_, hvs, ?_⟩
                      · rw [show ({ st₁ with reader := rd' } : RecoverState).s = s from hs₁]
                        exact .bad hnext hok
                      · exact ⟨htracks₁.logNumber, htracks₁.prevLogNumber, htracks₁.nextFile,
                          htracks₁.lastSequence⟩
                      · rw [show ({ st₁ with reader := rd' } : RecoverState).b = b from hb, hbase]
          · rw [Loop.run_inr _ hturn] at h
            cases h
            refine ⟨[], .stop hnext, ?_, rfl, rfl⟩
            rw [List.append_nil]
            exact ⟨htracks.logNumber, htracks.prevLogNumber, htracks.nextFile, htracks.lastSequence⟩

/-! ## `recover` -/

/-- `CURRENT` can be read and names the manifest `current`; the manifest is opened as `file`, and
then its environment is `env'`. -/
def Opens (vs : VersionSet) (env : Env) (current : Bytes) (file : SequentialFile) (env' : Env) :
    Prop :=
  ∃ env₁, env.readFileToString (currentFileName vs.dbname) = .ok (.ok, current ++ [10#8], env₁)
    ∧ env₁.newSequentialFile (vs.dbname ++ text "/" ++ current) = (.ok, file, env')

theorem Opens.unique {vs : VersionSet} {env env' env'' : Env} {current current' : Bytes}
    {file file' : SequentialFile} (h : vs.Opens env current file env')
    (h' : vs.Opens env current' file' env'') : current' = current ∧ file' = file ∧ env'' = env' := by
  obtain ⟨env₁, hread, hopen⟩ := h
  obtain ⟨env₁', hread', hopen'⟩ := h'
  have hsame := Except.ok.inj (hread.symm.trans hread')
  simp only [Prod.mk.injEq, List.append_cancel_right_eq, true_and] at hsame
  obtain ⟨rfl, rfl⟩ := hsame
  cases hopen.symm.trans hopen'
  exact ⟨rfl, rfl, rfl⟩

/-- The manifest that `CURRENT` names, and what `recover` reads from it. -/
def ReadsManifest (vs : VersionSet) (env : Env) (current : Bytes) (env' : Env)
    (edits : List VersionEdit) (s : Status) : Prop :=
  ∃ file, vs.Opens env current file env'
    ∧ Replays vs.icmp.userComparator.name (Reader.new file (some []) true 0) edits s

theorem ReadsManifest.unique {vs : VersionSet} {env env' env'' : Env} {current current' : Bytes}
    {edits edits' : List VersionEdit} {s s' : Status}
    (h : vs.ReadsManifest env current env' edits s)
    (h' : vs.ReadsManifest env current' env'' edits' s') :
    current' = current ∧ env'' = env' ∧ edits' = edits ∧ s' = s := by
  obtain ⟨file, hopen, hreplays⟩ := h
  obtain ⟨file', hopen', hreplays'⟩ := h'
  obtain ⟨rfl, rfl, rfl⟩ := hopen.unique hopen'
  obtain ⟨rfl, rfl⟩ := hreplays.unique hreplays'
  exact ⟨rfl, rfl, rfl, rfl⟩

/-- The numbers before the loop are those of no edits. -/
theorem tracks_nil {reader : Reader} {s : Status} {vs : VersionSet} {b : Builder} :
    RecoverState.Tracks { reader := reader, s := s, vs := vs, b := b } [] :=
  ⟨⟨rfl, rfl⟩, ⟨rfl, rfl⟩, ⟨rfl, rfl⟩, ⟨rfl, rfl⟩⟩

/-- The version set after the loop: the numbers of the logs are marked as used. -/
def marked (vs : VersionSet) (st : RecoverState) : VersionSet :=
  (vs.markFileNumberUsed (if st.havePrevLogNumber then st.prevLogNumber else 0)).markFileNumberUsed
    st.logNumber

/-- What `recover` does once the manifest has been opened. -/
structure Finished (vs : VersionSet) (env : Env) (saveManifest : Bool) (uninit : U32)
    (current : Bytes) (env₂ : Env) (edits : List VersionEdit) (st : RecoverState) (s : Status)
    (saveManifest' : Bool) (vs' : VersionSet) (env' : Env) : Prop where
  reads : vs.ReadsManifest env current env₂ edits st.s
  tracks : st.Tracks edits
  status : s = st.check
  rest : ∃ b list vs₁ list', newBuilder vs.list = .ok (b, list) ∧ st.b.base = b.base
    ∧ finishRecover (marked { vs with list := list } st) st s
        (if st.havePrevLogNumber then st.prevLogNumber else 0)
        (vs.dbname ++ text "/" ++ current) current saveManifest uninit env₂
      = .ok (saveManifest', vs₁, env')
    ∧ deleteBuilder st.b vs₁.list = .ok list' ∧ vs' = { vs₁ with list := list' }

/-- **`recover`** fails before there is a manifest to read, and then changes nothing; or it reads
the manifest. -/
theorem recover_cases {vs vs' : VersionSet} {saveManifest saveManifest' : Bool} {uninit : U32}
    {env env' : Env} {s : Status}
    (h : vs.recover saveManifest uninit env = .ok (s, saveManifest', vs', env')) :
    (s ≠ .ok ∧ saveManifest' = saveManifest ∧ vs' = vs
        ∧ ∀ current file env₂, ¬ vs.Opens env current file env₂)
      ∨ ∃ current env₂ edits st,
        Finished vs env saveManifest uninit current env₂ edits st s saveManifest' vs' env' := by
  unfold recover at h
  obtain ⟨⟨s₁, data, env₁⟩, hread, h⟩ := bind_eq_ok.mp h
  simp only at h
  by_cases hs₁ : s₁ = .ok
  swap
  · rw [if_pos (by simp [mt (Status.isOk_iff _).mp hs₁])] at h
    cases h
    refine .inl ⟨hs₁, rfl, rfl, ?_⟩
    rintro current file env₂ ⟨env₃, hread', -⟩
    cases hread.symm.trans hread'
    exact hs₁ rfl
  subst hs₁
  rw [if_neg (by simp)] at h
  by_cases hlast : data.getLast? = some 10#8
  swap
  · rw [if_pos hlast] at h
    cases h
    refine .inl ⟨Status.noConfusion, rfl, rfl, ?_⟩
    rintro current file env₂ ⟨env₃, hread', -⟩
    cases hread.symm.trans hread'
    exact hlast (by simp)
  rw [if_neg (not_not.mpr hlast)] at h
  obtain ⟨current, rfl⟩ : ∃ current, data = current ++ [10#8] := by
    obtain ⟨current, hdata⟩ := List.getLast?_eq_some_iff.mp hlast
    exact ⟨current, hdata⟩
  simp only [List.dropLast_concat] at h
  rcases hnew : env₁.newSequentialFile (vs.dbname ++ text "/" ++ current) with ⟨s₂, file, env₂⟩
  simp only [hnew] at h
  by_cases hs₂ : s₂ = .ok
  swap
  · have hnot : ∀ current' file' env₃, ¬ vs.Opens env current' file' env₃ := by
      rintro current' file' env₃ ⟨env₄, hread', hnew'⟩
      have hsame := Except.ok.inj (hread.symm.trans hread')
      simp only [Prod.mk.injEq, List.append_cancel_right_eq, true_and] at hsame
      obtain ⟨rfl, rfl⟩ := hsame
      cases hnew.symm.trans hnew'
      exact hs₂ rfl
    rw [if_pos (by simp [mt (Status.isOk_iff _).mp hs₂])] at h
    split_ifs at h
    · cases h
      exact .inl ⟨Status.noConfusion, rfl, rfl, hnot⟩
    · cases h
      exact .inl ⟨hs₂, rfl, rfl, hnot⟩
  subst hs₂
  rw [if_neg (by simp)] at h
  unfold recoverFrom at h
  obtain ⟨⟨b, list⟩, hbuilder, h⟩ := bind_eq_ok.mp h
  obtain ⟨st, hrun, h⟩ := bind_eq_ok.mp h
  obtain ⟨⟨save, vs₁, env₃⟩, hfinish, h⟩ := bind_eq_ok.mp h
  obtain ⟨list', hdelete, h⟩ := bind_eq_ok.mp h
  cases h
  obtain ⟨edits, hr⟩ := run_recoverTurn rfl tracks_nil hrun
  refine .inr ⟨current, env₂, edits, st, ⟨file, ⟨env₁, hread, hnew⟩, hr.replays⟩, hr.tracks, rfl,
    b, list, vs₁, list', hbuilder, hr.base, ?_, hdelete, rfl⟩
  have hvs := hr.vs
  simp only at hvs hfinish
  rw [hvs] at hfinish
  exact hfinish

end VersionSet

end SimpleLeveldb
