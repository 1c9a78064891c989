import SimpleLeveldb.Log.Reader

set_option autoImplicit false

/-! # A log that is read to its end without a report

The calls of `reporter_->corruption` are collected, so that a reader that has reported nothing
when the end of the file is reached had reported nothing at any record before. Then no read of the
file has failed either, and the records are those of a file whose reads all succeed
(`Calm.sound_of_readRecord`).
-/

namespace SimpleLeveldb.Log

namespace Reader

/-- Nothing has been reported to the reporter. -/
def Quiet (rd : Reader) : Prop := rd.reporter = some []

/-! ## Reports -/

/-- Between two readers, some errors have been reported. -/
structure Reports (rd rd' : Reader) : Prop where
  calls : ∃ calls, rd'.reporter = rd.reporter.map (· ++ calls) ∧ ∀ c ∈ calls, c.2 ≠ .ok
  initialOffset : rd'.initialOffset = rd.initialOffset

variable {rd rd₁ rd' : Reader}

theorem Reports.of_eq (h : rd'.reporter = rd.reporter)
    (hoffset : rd'.initialOffset = rd.initialOffset) : Reports rd rd' := by
  refine ⟨⟨[], ?_, nofun⟩, hoffset⟩
  rw [h]
  cases rd.reporter <;> simp

theorem Reports.trans {rd₁ rd₂ rd₃ : Reader} (h₁ : Reports rd₁ rd₂) (h₂ : Reports rd₂ rd₃) :
    Reports rd₁ rd₃ := by
  obtain ⟨calls, hrep, hall⟩ := h₁.calls
  obtain ⟨calls', hrep', hall'⟩ := h₂.calls
  refine ⟨⟨calls ++ calls', ?_, fun c hc => (List.mem_append.mp hc).elim (hall c) (hall' c)⟩,
    h₂.initialOffset.trans h₁.initialOffset⟩
  rw [hrep', hrep, Option.map_map]
  congr 1
  funext l
  exact List.append_assoc _ _ _

theorem Quiet.of_reports (h : rd'.Quiet) (hrep : Reports rd rd') : rd.Quiet := by
  obtain ⟨calls, hcalls, -⟩ := hrep.calls
  rw [h] at hcalls
  obtain ⟨before, hbefore, hnil⟩ := Option.map_eq_some_iff.mp hcalls.symm
  rw [Quiet, hbefore, (List.append_eq_nil_iff.mp hnil).1]

theorem initialOffset_reportDrop (rd : Reader) (bytes : Nat) (reason : Status) :
    (rd.reportDrop bytes reason).initialOffset = rd.initialOffset := by
  unfold reportDrop
  split
  · rfl
  · split_ifs <;> rfl

/-- A report changes nothing but the calls, and may come between other changes. -/
theorem Reports.of_drop {bytes : Nat} {reason : Status}
    (hafter : rd'.reporter = (rd₁.reportDrop bytes reason).reporter)
    (hbefore : rd₁.reporter = rd.reporter) (h : reason ≠ .ok)
    (hoffset : rd'.initialOffset = rd.initialOffset) : Reports rd rd' := by
  unfold reportDrop at hafter
  split at hafter
  · exact .of_eq (hafter.trans hbefore) hoffset
  · rename_i calls hcalls
    split_ifs at hafter
    · refine ⟨⟨[(bytes, reason)], ?_, fun c hc => ?_⟩, hoffset⟩
      · rw [hafter, ← hbefore, hcalls, Option.map_some]
      · rw [List.mem_singleton.mp hc]
        exact h
    · exact .of_eq (hafter.trans hbefore) hoffset

theorem reports_reportPartial {st : ReadState} {reason : Bytes} :
    Reports st.rd (reportPartial st reason) := by
  unfold reportPartial
  split_ifs
  · exact .of_drop rfl rfl Status.noConfusion (initialOffset_reportDrop _ _ _)
  · exact .of_eq rfl rfl
  · exact .of_eq rfl rfl

/-- The reader that a turn of `read_physical_record` ends with. -/
def ofTurn (r : Reader ⊕ (U32 × Bytes × Reader)) : Reader := r.elim id fun x => x.2.2

theorem reports_readPhysicalRecordTurn {result : Bytes} {r : Reader ⊕ (U32 × Bytes × Reader)}
    (hturn : readPhysicalRecordTurn result rd = .ok r) : Reports rd (ofTurn r) := by
  unfold readPhysicalRecordTurn at hturn
  simp only at hturn
  split_ifs at hturn with _ _ hfailed
  · cases hturn
    refine .of_drop rfl rfl (fun hok => ?_) (initialOffset_reportDrop _ _ _)
    rw [hok] at hfailed
    cases hfailed
  all_goals cases hturn
  · exact .of_eq rfl rfl
  · exact .of_eq rfl rfl
  · exact .of_eq rfl rfl
  · exact .of_drop rfl rfl Status.noConfusion (initialOffset_reportDrop _ _ _)
  · exact .of_eq rfl rfl
  · exact .of_eq rfl rfl
  · exact .of_drop rfl rfl Status.noConfusion (initialOffset_reportDrop _ _ _)
  · exact .of_eq rfl rfl
  · exact .of_eq rfl rfl

theorem reports_readPhysicalRecord {result fragment : Bytes} {type : U32}
    (hread : rd.readPhysicalRecord result = .ok (type, fragment, rd')) : Reports rd rd' := by
  refine Loop.run_of_invariant Fault.endless (fun rd₁ : Reader => Reports rd rd₁)
    (fun r : U32 × Bytes × Reader => Reports rd r.2.2) ?_ ?_ 3 rd (type, fragment, rd')
    (.of_eq rfl rfl) hread
  · intro rd₁ rd₂ hinv hturn
    exact hinv.trans (reports_readPhysicalRecordTurn hturn)
  · intro rd₁ r hinv hturn
    exact hinv.trans (reports_readPhysicalRecordTurn hturn)

/-- The reader that a turn of `read_record` ends with. -/
def ofRecordTurn (r : ReadState ⊕ (Bool × Bytes × Reader)) : Reader :=
  r.elim ReadState.rd fun x => x.2.2

/-- Both branches of a decision report. -/
theorem reports_ite {c : Prop} [Decidable c] {r r' : ReadState ⊕ (Bool × Bytes × Reader)}
    (h : Reports rd (ofRecordTurn r)) (h' : Reports rd (ofRecordTurn r')) :
    Reports rd (ofRecordTurn (if c then r else r')) := by
  by_cases hc : c
  · rw [if_pos hc]
    exact h
  · rw [if_neg hc]
    exact h'

theorem reports_dispatch {st : ReadState} {recordType : U32} {offset : U64}
    {r : ReadState ⊕ (Bool × Bytes × Reader)} (hr : dispatch st recordType offset = r)
    (hrd : st.rd = rd) : Reports rd (ofRecordTurn r) := by
  subst hr hrd
  -- the cases of the switch; three of them look at `inFragmentedRecord`
  refine reports_ite ?_ (reports_ite ?_ (reports_ite (reports_ite ?_ ?_)
    (reports_ite (reports_ite ?_ ?_) (reports_ite ?_ (reports_ite (reports_ite ?_ ?_) ?_)))))
  · exact Reports.trans reports_reportPartial (.of_eq rfl rfl)
  · exact reports_reportPartial
  · exact .of_drop rfl rfl Status.noConfusion (initialOffset_reportDrop _ _ _)
  · exact .of_eq rfl rfl
  · exact .of_drop rfl rfl Status.noConfusion (initialOffset_reportDrop _ _ _)
  · exact .of_eq rfl rfl
  · exact .of_eq rfl rfl
  · exact .of_drop rfl rfl Status.noConfusion (initialOffset_reportDrop _ _ _)
  · exact .of_eq rfl rfl
  · exact .of_drop rfl rfl Status.noConfusion (initialOffset_reportDrop _ _ _)

theorem reports_readRecordTurn {st : ReadState} {r : ReadState ⊕ (Bool × Bytes × Reader)}
    (hturn : readRecordTurn st = .ok r) : Reports st.rd (ofRecordTurn r) := by
  obtain ⟨⟨type, fragment, rd₁⟩, hread, hturn⟩ := bind_eq_ok.mp hturn
  have hresync : Reports rd₁ (rd₁.resync type).1 := by
    unfold resync
    split_ifs <;> exact .of_eq rfl rfl
  have hbefore := (reports_readPhysicalRecord hread).trans hresync
  simp only at hturn
  split_ifs at hturn
  · cases hturn
    exact hbefore
  · cases hturn
    exact hbefore.trans (reports_dispatch rfl rfl)

theorem reports_skipToInitialBlock (rd : Reader) : Reports rd rd.skipToInitialBlock.2 := by
  unfold skipToInitialBlock
  extract_lets offsetInBlock before location rd₁
  clear_value location
  split_ifs with hpos
  · have hsame : rd₁.reporter = rd.reporter := rfl
    have hoffset : rd₁.initialOffset = rd.initialOffset := rfl
    clear_value rd₁
    rcases hskip : rd₁.file.skip location.toNat with ⟨s, file⟩
    simp only
    split_ifs with hfailed
    · refine .of_drop rfl hsame (fun hok => ?_) ((initialOffset_reportDrop _ _ _).trans hoffset)
      rw [hok] at hfailed
      cases hfailed
    · exact .of_eq hsame hoffset
  · exact .of_eq rfl rfl

/-- Reading a record reports errors only. -/
theorem reports_readRecord {more : Bool} {record : Bytes}
    (hread : rd.readRecord = .ok (more, record, rd')) : Reports rd rd' := by
  have hloop : ∀ rd₀ : Reader, rd₀.readRecordLoop = .ok (more, record, rd') → Reports rd₀ rd' := by
    intro rd₀ hrun
    refine Loop.run_of_invariant Fault.endless (fun st : ReadState => Reports rd₀ st.rd)
      (fun r : Bool × Bytes × Reader => Reports rd₀ r.2.2) ?_ ?_ _ _ (more, record, rd')
      (.of_eq rfl rfl) hrun
    · intro st st' hinv hturn
      exact hinv.trans (reports_readRecordTurn hturn)
    · intro st r hinv hturn
      exact hinv.trans (reports_readRecordTurn hturn)
  have hskip := rd.reports_skipToInitialBlock
  unfold readRecord at hread
  simp only at hread
  split_ifs at hread
  · cases hread
    exact hskip
  · exact hskip.trans (hloop _ hread)
  · exact hloop _ hread

/-- **A reader that is quiet after a record was quiet before it.** -/
theorem Quiet.of_readRecord {more : Bool} {record : Bytes}
    (hread : rd.readRecord = .ok (more, record, rd')) (h : rd'.Quiet) : rd.Quiet :=
  h.of_reports (reports_readRecord hread)

/-! ## Reads that fail -/

/-- The reader of a file whose reads all succeed. -/
def sound (rd : Reader) : Reader := { rd with file := ⟨rd.file.rest, []⟩ }

/-- Nothing has been reported about a file that is read from its beginning. -/
structure Calm (rd : Reader) : Prop where
  quiet : rd.Quiet
  initialOffset : rd.initialOffset = 0

theorem Calm.of_reports (h : rd'.Calm) (hrep : Reports rd rd') : rd.Calm :=
  ⟨h.quiet.of_reports hrep, hrep.initialOffset.symm.trans h.initialOffset⟩

/-- A reader that starts at the beginning of the file reports everything. -/
theorem not_calm_of_drop {bytes : Nat} {reason : Status}
    (hreporter : rd'.reporter = (rd₁.reportDrop bytes reason).reporter)
    (hoffset : rd'.initialOffset = (rd₁.reportDrop bytes reason).initialOffset) : ¬ rd'.Calm := by
  rintro ⟨hquiet, hzero⟩
  rw [Quiet, hreporter] at hquiet
  rw [hoffset] at hzero
  unfold reportDrop at hquiet hzero
  split at hquiet
  · rename_i hnone
    rw [hnone] at hquiet
    cases hquiet
  · rename_i calls hcalls
    simp only [hcalls] at hzero
    split_ifs at hquiet hzero with hge
    · simp at hquiet
    · rw [hzero] at hge
      exact hge (BitVec.le_def.mpr (Nat.zero_le _))

/-- What a turn of `read_physical_record` makes, for a file whose reads all succeed. -/
def soundTurn (r : Reader ⊕ (U32 × Bytes × Reader)) : Reader ⊕ (U32 × Bytes × Reader) :=
  r.map sound fun x => (x.1, x.2.1, x.2.2.sound)

theorem Calm.readPhysicalRecordTurn_sound {result : Bytes} {r : Reader ⊕ (U32 × Bytes × Reader)}
    (hturn : readPhysicalRecordTurn result rd = .ok r) (h : (ofTurn r).Calm) :
    rd.Calm ∧ readPhysicalRecordTurn result rd.sound = .ok (soundTurn r) := by
  refine ⟨h.of_reports (reports_readPhysicalRecordTurn hturn), ?_⟩
  have hread := SequentialFile.read_of_sound (f := rd.sound.file) rfl kBlockSize
  unfold readPhysicalRecordTurn at hturn ⊢
  simp only [hread]
  simp only at hturn
  split_ifs at hturn with hshort heof hfailed hpart hlength hfull hzero hcrc hskipped
  · cases hturn
    exact absurd h (not_calm_of_drop rfl rfl)
  · have hok : (rd.file.read kBlockSize).1 = .ok := by simpa [Status.isOk_iff] using hfailed
    have hgood := SequentialFile.read_of_ok hok
    rw [hgood] at hturn hpart
    cases hturn
    refine (if_pos (by exact hshort)).trans ?_
    refine (if_pos (by exact heof)).trans ?_
    refine (if_neg (by simp)).trans ?_
    refine (if_pos (by exact hpart)).trans ?_
    rfl
  · have hok : (rd.file.read kBlockSize).1 = .ok := by simpa [Status.isOk_iff] using hfailed
    have hgood := SequentialFile.read_of_ok hok
    rw [hgood] at hturn hpart
    cases hturn
    refine (if_pos (by exact hshort)).trans ?_
    refine (if_pos (by exact heof)).trans ?_
    refine (if_neg (by simp)).trans ?_
    refine (if_neg (by exact hpart)).trans ?_
    rfl
  · cases hturn
    refine (if_pos (by exact hshort)).trans ?_
    refine (if_neg (by exact heof)).trans ?_
    rfl
  · cases hturn
    exact absurd h (not_calm_of_drop rfl rfl)
  · cases hturn
    refine (if_neg (by exact hshort)).trans ?_
    refine (if_pos (by exact hlength)).trans ?_
    refine (if_neg (by exact hfull)).trans ?_
    rfl
  · cases hturn
    refine (if_neg (by exact hshort)).trans ?_
    refine (if_neg (by exact hlength)).trans ?_
    refine (if_pos (by exact hzero)).trans ?_
    rfl
  · cases hturn
    exact absurd h (not_calm_of_drop rfl rfl)
  · cases hturn
    refine (if_neg (by exact hshort)).trans ?_
    refine (if_neg (by exact hlength)).trans ?_
    refine (if_neg (by exact hzero)).trans ?_
    refine (if_neg (by exact hcrc)).trans ?_
    refine (if_pos (by exact hskipped)).trans ?_
    rfl
  · cases hturn
    refine (if_neg (by exact hshort)).trans ?_
    refine (if_neg (by exact hlength)).trans ?_
    refine (if_neg (by exact hzero)).trans ?_
    refine (if_neg (by exact hcrc)).trans ?_
    refine (if_neg (by exact hskipped)).trans ?_
    rfl

theorem Calm.readPhysicalRecord_sound {result fragment : Bytes} {type : U32}
    (hread : rd.readPhysicalRecord result = .ok (type, fragment, rd')) (h : rd'.Calm) :
    rd.Calm ∧ rd.sound.readPhysicalRecord result = .ok (type, fragment, rd'.sound) :=
  Loop.run_simulates Fault.endless sound (fun x : U32 × Bytes × Reader => (x.1, x.2.1, x.2.2.sound))
    Calm (fun x => x.2.2.Calm) (fun _ _ hturn h => h.readPhysicalRecordTurn_sound hturn)
    (fun _ _ hturn h => h.readPhysicalRecordTurn_sound hturn) 3 rd (type, fragment, rd') hread h

/-- The variables of `read_record`, for a file whose reads all succeed. -/
def ReadState.sound (st : ReadState) : ReadState := { st with rd := st.rd.sound }

def soundRecordTurn (r : ReadState ⊕ (Bool × Bytes × Reader)) : ReadState ⊕ (Bool × Bytes × Reader) :=
  r.map ReadState.sound fun x => (x.1, x.2.1, x.2.2.sound)

theorem reportPartial_sound {st : ReadState} {reason : Bytes} (h : (reportPartial st reason).Calm) :
    reportPartial st reason = st.rd ∧ reportPartial st.sound reason = st.rd.sound := by
  unfold reportPartial at h ⊢
  split_ifs at h with hfragment hscratch
  · exact absurd h (not_calm_of_drop rfl rfl)
  · rw [if_pos hfragment, if_neg hscratch]
    exact ⟨rfl, (if_pos (by exact hfragment)).trans (if_neg (by exact hscratch))⟩
  · rw [if_neg hfragment]
    exact ⟨rfl, if_neg (by exact hfragment)⟩

/-- A decision on the same condition, branch by branch. -/
theorem sound_ite {c : Prop} [Decidable c] {r r' s s' : ReadState ⊕ (Bool × Bytes × Reader)}
    (h : (ofRecordTurn r).Calm → s = soundRecordTurn r)
    (h' : (ofRecordTurn r').Calm → s' = soundRecordTurn r')
    (hcalm : (ofRecordTurn (if c then r else r')).Calm) :
    (if c then s else s') = soundRecordTurn (if c then r else r') := by
  by_cases hc : c
  · rw [if_pos hc] at hcalm
    rw [if_pos hc, if_pos hc]
    exact h hcalm
  · rw [if_neg hc] at hcalm
    rw [if_neg hc, if_neg hc]
    exact h' hcalm

theorem Calm.dispatch_sound {st : ReadState} {recordType : U32} {offset : U64}
    {r : ReadState ⊕ (Bool × Bytes × Reader)} (hr : dispatch st recordType offset = r)
    (h : (ofRecordTurn r).Calm) :
    dispatch st.sound recordType offset = soundRecordTurn r := by
  subst hr
  -- a case that drops bytes is not calm; the others make of `st.sound` what they make of `st`
  refine sound_ite ?_ (sound_ite ?_ (sound_ite (sound_ite ?_ ?_) (sound_ite (sound_ite ?_ ?_)
    (sound_ite ?_ (sound_ite (sound_ite ?_ ?_) ?_))))) h
  · intro hcalm
    have hpartial : (reportPartial st (text "partial record without end(1)")).Calm :=
      ⟨hcalm.quiet, hcalm.initialOffset⟩
    obtain ⟨hsame, hsound⟩ := reportPartial_sound hpartial
    rw [hsound, hsame]
    rfl
  · intro hcalm
    obtain ⟨hsame, hsound⟩ := reportPartial_sound hcalm
    rw [hsound, hsame]
    rfl
  · intro hcalm
    exact absurd hcalm (not_calm_of_drop rfl rfl)
  · intro _
    rfl
  · intro hcalm
    exact absurd hcalm (not_calm_of_drop rfl rfl)
  · intro _
    rfl
  · intro _
    rfl
  · intro hcalm
    exact absurd hcalm (not_calm_of_drop rfl rfl)
  · intro _
    rfl
  · intro hcalm
    exact absurd hcalm (not_calm_of_drop rfl rfl)

theorem resync_sound (rd : Reader) (recordType : U32) :
    rd.sound.resync recordType = ((rd.resync recordType).1.sound, (rd.resync recordType).2)
      ∧ (rd.resync recordType).1.initialOffset = rd.initialOffset
      ∧ (rd.resync recordType).1.reporter = rd.reporter := by
  unfold resync
  rw [show rd.sound.resyncing = rd.resyncing from rfl]
  split_ifs <;> exact ⟨rfl, rfl, rfl⟩

theorem Calm.readRecordTurn_sound {st : ReadState} {r : ReadState ⊕ (Bool × Bytes × Reader)}
    (hturn : readRecordTurn st = .ok r) (h : (ofRecordTurn r).Calm) :
    st.rd.Calm ∧ readRecordTurn st.sound = .ok (soundRecordTurn r) := by
  refine ⟨h.of_reports (reports_readRecordTurn hturn), ?_⟩
  obtain ⟨⟨type, fragment, rd₁⟩, hread, hturn⟩ := bind_eq_ok.mp hturn
  obtain ⟨hsync, hoffset, hreporter⟩ := resync_sound rd₁ type
  simp only at hturn
  split_ifs at hturn with hagain
  · cases hturn
    have hcalm : rd₁.Calm := ⟨hreporter.symm.trans h.quiet, hoffset ▸ h.initialOffset⟩
    obtain ⟨-, hsound⟩ := hcalm.readPhysicalRecord_sound hread
    rw [readRecordTurn, show st.sound.rd = st.rd.sound from rfl,
      show st.sound.fragment = st.fragment from rfl, hsound, ok_bind]
    simp only [hsync, hagain, if_true]
    rfl
  · cases hturn
    have hdispatch := h.dispatch_sound rfl
    have hsynced : (rd₁.resync type).1.Calm := h.of_reports (reports_dispatch rfl rfl)
    have hcalm : rd₁.Calm := ⟨hreporter.symm.trans hsynced.quiet, hoffset ▸ hsynced.initialOffset⟩
    obtain ⟨-, hsound⟩ := hcalm.readPhysicalRecord_sound hread
    rw [readRecordTurn, show st.sound.rd = st.rd.sound from rfl,
      show st.sound.fragment = st.fragment from rfl, hsound, ok_bind]
    simp only [hsync, hagain]
    rw [← hdispatch]
    rfl

theorem Calm.readRecordLoop_sound {more : Bool} {record : Bytes}
    (hread : rd.readRecordLoop = .ok (more, record, rd')) (h : rd'.Calm) :
    rd.Calm ∧ rd.sound.readRecordLoop = .ok (more, record, rd'.sound) :=
  Loop.run_simulates Fault.endless ReadState.sound
    (fun x : Bool × Bytes × Reader => (x.1, x.2.1, x.2.2.sound)) (fun st => st.rd.Calm)
    (fun x => x.2.2.Calm) (fun _ _ hturn h => h.readRecordTurn_sound hturn)
    (fun _ _ hturn h => h.readRecordTurn_sound hturn) _ _ _ hread h

/-- **A record that is read without a report** is read in the same way when no read fails. -/
theorem Calm.sound_of_readRecord {more : Bool} {record : Bytes}
    (hread : rd.readRecord = .ok (more, record, rd')) (h : rd'.Calm) :
    rd.Calm ∧ rd.sound.readRecord = .ok (more, record, rd'.sound) := by
  have hzero : ∀ {rd₀ : Reader}, rd₀.Calm → rd₀.initialOffset = rd.initialOffset →
      ¬ rd.lastRecordOffset < rd.initialOffset := by
    intro rd₀ hcalm hsame
    rw [← hsame, hcalm.initialOffset]
    exact BitVec.not_lt.mpr (BitVec.le_def.mpr (Nat.zero_le _))
  have hoffset := rd.reports_skipToInitialBlock.initialOffset
  unfold readRecord at hread
  simp only at hread
  split_ifs at hread with hbefore hskipped
  · cases hread
    exact absurd hbefore (hzero h hoffset)
  · exact absurd hbefore (hzero (h.readRecordLoop_sound hread).1 hoffset)
  · rw [readRecord, if_neg (by exact hbefore)]
    exact h.readRecordLoop_sound hread

/-! ## All records -/

/-- `ReadsAll rd records rd'`: reading on from `rd`, `records` come, and then the end, where the
reader is `rd'`. -/
inductive ReadsAll : Reader → List Bytes → Reader → Prop
  | done {rd rd' : Reader} {record : Bytes} :
      rd.readRecord = .ok (false, record, rd') → ReadsAll rd [] rd'
  | next {rd rd₁ rd' : Reader} {record : Bytes} {records : List Bytes} :
      rd.readRecord = .ok (true, record, rd₁) → ReadsAll rd₁ records rd' →
      ReadsAll rd (record :: records) rd'

theorem ReadsAll.quiet {rd rd' : Reader} {records : List Bytes} (h : ReadsAll rd records rd')
    (hquiet : rd'.Quiet) : rd.Quiet := by
  induction h with
  | done hread => exact hquiet.of_readRecord hread
  | next hread _ ih => exact (ih hquiet).of_readRecord hread

theorem ReadsAll.initialOffset {rd rd' : Reader} {records : List Bytes}
    (h : ReadsAll rd records rd') : rd'.initialOffset = rd.initialOffset := by
  induction h with
  | done hread => exact (reports_readRecord hread).initialOffset
  | next hread _ ih => exact ih.trans (reports_readRecord hread).initialOffset

/-- What is read is determined. -/
theorem ReadsAll.unique {rd rd' rd'' : Reader} {records records' : List Bytes}
    (h : ReadsAll rd records rd') (h' : ReadsAll rd records' rd'') : records' = records := by
  induction h generalizing records' with
  | done hread =>
      cases h' with
      | done _ => rfl
      | next hread' _ => cases hread.symm.trans hread'
  | next hread _ ih =>
      cases h' with
      | done hread' => cases hread.symm.trans hread'
      | next hread' hrest =>
          cases hread.symm.trans hread'
          rw [ih hrest]

/-- What is read without a report is what is read when no read fails. -/
theorem ReadsAll.sound {rd rd' : Reader} {records : List Bytes} (h : ReadsAll rd records rd')
    (hcalm : rd'.Calm) : rd.Calm ∧ ReadsAll rd.sound records rd'.sound := by
  induction h with
  | done hread =>
      obtain ⟨hbefore, hsound⟩ := hcalm.sound_of_readRecord hread
      exact ⟨hbefore, .done hsound⟩
  | next hread _ ih =>
      obtain ⟨hafter, hrest⟩ := ih hcalm
      obtain ⟨hbefore, hsound⟩ := hafter.sound_of_readRecord hread
      exact ⟨hbefore, .next hsound hrest⟩

/-- The loop that reads all records, by induction on its rounds. -/
theorem readsAll_of_run {n : Nat} {acc all : List Bytes} {rd rd' : Reader}
    (h : Loop.run .endless readAllTurn n (acc, rd) = .ok (all, rd')) :
    ∃ records, all = acc ++ records ∧ records.length < n ∧ ReadsAll rd records rd' := by
  induction n generalizing acc rd with
  | zero => cases h
  | succ n ih =>
      match hread : rd.readRecord with
      | .error e =>
          have hturn : readAllTurn (acc, rd) = .error e := by
            rw [readAllTurn, hread]
            rfl
          rw [Loop.run_error _ hturn] at h
          cases h
      | .ok (true, record, rd₁) =>
          have hturn : readAllTurn (acc, rd) = .ok (.inl (acc ++ [record], rd₁)) := by
            rw [readAllTurn, hread]
            rfl
          rw [Loop.run_inl _ hturn] at h
          obtain ⟨records, hall, hlen, hreads⟩ := ih h
          refine ⟨record :: records, by rw [hall, List.append_assoc]; rfl, ?_, .next hread hreads⟩
          rw [List.length_cons]
          omega
      | .ok (false, record, rd₁) =>
          have hturn : readAllTurn (acc, rd) = .ok (.inr (acc, rd₁)) := by
            rw [readAllTurn, hread]
            rfl
          rw [Loop.run_inr _ hturn] at h
          cases h
          exact ⟨[], (List.append_nil _).symm, Nat.succ_pos n, .done hread⟩

theorem readsAll_of_readAll {rd rd' : Reader} {records : List Bytes}
    (h : rd.readAll = .ok (records, rd')) :
    records.length < rd.unread + 1 ∧ ReadsAll rd records rd' := by
  obtain ⟨records', hall, hlen, hreads⟩ := readsAll_of_run h
  rw [List.nil_append] at hall
  subst hall
  exact ⟨hlen, hreads⟩

end Reader

end SimpleLeveldb.Log
