import SimpleLeveldb.Version.JournalRuns

set_option autoImplicit false

/-! # Opening what a run has made

In a run whose calls of `log_any_apply` succeed and write what a manifest can record, the directory
can be opened at any time: a version set that has just been made recovers from it, and has the
numbers of the last edit (`Run.reopens`).
-/

namespace SimpleLeveldb

open Log (AllFit fulls layout)
open VersionSet (LongKeys)

/-- Without a failed call, the manifest on disk consists of whole records. -/
theorem Stored.untorn {dbname name : Bytes} {env : Env} {log : Option Log.Writer}
    {applied : List VersionEdit} (h : Stored False dbname name env log applied) :
    Untorn dbname env := by
  intro c hc
  cases h with
  | nothing _ _ habsent => cases hc.symm.trans habsent
  | manifest number records tail read hdisk _ _ htail _ =>
      obtain rfl : tail = [] := not_not.mp htail
      obtain rfl := Option.some.inj (hc.symm.trans hdisk.current)
      refine ⟨records, hdisk.fits, ?_⟩
      rw [manifestPath_eq, hdisk.content, List.append_nil]

namespace Journal

/-- A call of `log_any_apply` during which nothing fails: the edit names no other comparator, the
smallest keys of its files are internal keys, and there is a file number left. -/
def Call.Succeeds (name : Bytes) (j : Journal) : Call → Prop
  | .logAnyApply us _ => j.env.AllOk ∧ LongKeys (VersionEdit.built us)
      ∧ (VersionEdit.built us).Accepted name
      ∧ ∀ vs, j.versions = some vs → vs.nextFileNumber.toNat < 2 ^ 64 - 1
  | _ => True

/-- What the call writes is within what a manifest can record: no compact pointers, and every record
fits into its block. -/
def Call.Recorded (j : Journal) : Call → Prop
  | .newDb db _ => ∀ record, (DbImpl.newDbEdit db.userComparator.name).encodeTo = .ok record →
      AllFit 0 [record]
  | .logAnyApply us _ => (VersionEdit.built us).compactPointers = [] ∧ ∀ vs, j.versions = some vs →
      ∀ o records, vs.callRecords (VersionEdit.built us) = .ok (o, records) → AllFit o records
  | _ => True

/-- **The directory can be opened**: every version set that has just been made recovers from it, and
its numbers are those of the last edit. -/
def Reopens (dbname name : Bytes) (j : Journal) : Prop :=
  ∀ vs : VersionSet, vs.Fresh dbname name → ∀ saveManifest uninit, ∃ saveManifest' vs' env' last,
    vs.recover saveManifest uninit j.env = .ok (.ok, saveManifest', vs', env')
      ∧ j.applied.getLast? = some last ∧ vs'.logNumber = last.logNumber
      ∧ vs'.prevLogNumber = last.prevLogNumber ∧ vs'.lastSequence = last.lastSequence
      ∧ last.nextFileNumber ≤ vs'.nextFileNumber

/-! ## One step -/

/-- An edit that `recover` can apply. -/
structure Readable (name : Bytes) (e : VersionEdit) : Prop where
  longKeys : LongKeys e
  accepted : e.Accepted name
  nextFile : e.nextFileNumber.toNat < 2 ^ 64 - 1

theorem readable_newDbEdit (name : Bytes) : Readable name (DbImpl.newDbEdit name) where
  longKeys := nofun
  accepted := fun _ => rfl
  nextFile := by
    show (2 : U64).toNat < 2 ^ 64 - 1
    decide

variable {dbname name : Bytes} {j j' : Journal} {call : Call}

theorem Kept.writable (h : Kept False dbname name j) (hsucceeds : call.Succeeds name j)
    (hrecorded : call.Recorded j) : call.Writable dbname j := by
  cases call with
  | newDb db uninit => exact hrecorded
  | recover saveManifest uninit => exact fun _ _ _ => h.stored.untorn
  | logAnyApply us uninit =>
      exact fun vs hvs => ⟨hrecorded.1, hrecorded.2 vs hvs, fun ops _ => hsucceeds.1.ignoresNone ops⟩
  | _ => trivial

/-- The edits stay such that `recover` can apply them. -/
theorem Kept.readable (h : Kept False dbname name j) (hallowed : call.Allowed dbname name j)
    (hsucceeds : call.Succeeds name j) (hrecorded : call.Recorded j)
    (hret : call.returns j = .ok j') (hall : ∀ e ∈ j.applied, Readable name e) :
    ∀ e ∈ j'.applied, Readable name e := by
  have hadd : ∀ (b : Bool) (e' : VersionEdit), Readable name e' →
      ∀ e ∈ (if b then j.applied ++ [e'] else j.applied), Readable name e := by
    intro b e' he'
    cases b with
    | false => exact hall
    | true => exact List.forall_mem_append.mpr ⟨hall, by simpa using he'⟩
  cases call with
  | newDb db uninit =>
      obtain ⟨r, -, hret⟩ := bind_eq_ok.mp hret
      cases hret
      obtain ⟨-, rfl, -⟩ := hallowed
      exact hadd _ _ (readable_newDbEdit _)
  | logAnyApply us uninit =>
      obtain ⟨vs, hvs, hret⟩ := bind_eq_ok.mp hret
      obtain ⟨⟨s, edit', vs', env⟩, hrun, hret⟩ := bind_eq_ok.mp hret
      cases hret
      have hvs := deref_eq_ok.mp hvs
      obtain ⟨-, happlied⟩ := (h.bare vs hvs).applied_of_ok hrecorded.1 hrun
      have hcompleted := VersionSet.completed_of_ok happlied.completed
      obtain ⟨-, hkeys, haccepted, hnext⟩ := hsucceeds
      refine hadd _ _ ⟨?_, ?_, ?_⟩
      · rw [LongKeys, hcompleted.newFiles]
        exact hkeys
      · rw [VersionEdit.Accepted, hcompleted.hasComparator, hcompleted.comparator]
        exact haccepted
      · rw [hcompleted.nextFileNumber]
        exact hnext vs hvs
  | recover saveManifest uninit =>
      obtain ⟨vs, -, hret⟩ := bind_eq_ok.mp hret
      obtain ⟨r, -, hret⟩ := bind_eq_ok.mp hret
      cases hret
      exact hall
  | newFileNumber =>
      obtain ⟨vs, -, hret⟩ := bind_eq_ok.mp hret
      cases hret
      exact hall
  | markFileNumberUsed number =>
      obtain ⟨vs, -, hret⟩ := bind_eq_ok.mp hret
      cases hret
      exact hall
  | setLastSequence s =>
      obtain ⟨vs, -, hret⟩ := bind_eq_ok.mp hret
      obtain ⟨vs', -, hret⟩ := bind_eq_ok.mp hret
      cases hret
      exact hall

/-- **A run of such calls** leaves whole records of edits that `recover` can apply. -/
theorem Run.readable
    (h : Run dbname name (fun j call => call.Succeeds name j ∧ call.Recorded j) j) :
    Kept False dbname name j ∧ ∀ e ∈ j.applied, Readable name e := by
  induction h with
  | start habsent => exact ⟨⟨nofun, .nothing rfl rfl habsent⟩, nofun⟩
  | outcomes _ hsame ih => exact ⟨ih.1.sameFiles hsame, ih.2⟩
  | restart _ hvs ih => exact ⟨ih.1.restart hvs, ih.2⟩
  | returns _ hallowed hcond hret ih =>
      exact ⟨ih.1.returns hallowed (ih.1.writable hcond.1 hcond.2) hret,
        ih.1.readable hallowed hcond.1 hcond.2 hret ih.2⟩
  | fails _ _ hcond _ _ hnot _ => exact absurd (hcond.1.1.passes _) hnot

/-! ## Opening -/

/-- What a manifest holds is complete, with edits that can be applied. -/
theorem complete_of_reflects {read applied : List VersionEdit}
    (h : VersionSet.Reflects name read applied) (hall : ∀ e ∈ applied, Readable name e) :
    (∀ e ∈ read, LongKeys e) ∧ VersionSet.Complete name read := by
  obtain ⟨last, -, hends⟩ := h.last
  have hmem : ∀ e ∈ read, LongKeys e ∧ e.Accepted name := by
    intro e he
    rcases h.mem e he with rfl | ⟨e', he', rfl⟩
    · exact ⟨nofun, fun _ => rfl⟩
    · exact ⟨(hall e' he').longKeys, (hall e' he').accepted⟩
  have hisSome : ∀ (number : VersionEdit → Option U64) (n : U64),
      VersionSet.lastRecorded number read = some n → ∃ e ∈ read, (number e).isSome := by
    intro number n hn
    exact VersionSet.lastRecorded_isSome.mp (by rw [hn]; rfl)
  refine ⟨fun e he => (hmem e he).1, fun e he => (hmem e he).2, ?_, ?_, ?_⟩
  · simpa using hisSome _ _ hends.nextFile
  · simpa using hisSome _ _ hends.logNumber
  · simpa using hisSome _ _ hends.lastSequence

/-- **A run of such calls can be opened**, as soon as an edit has been applied. -/
theorem Run.reopens
    (h : Run dbname name (fun j call => call.Succeeds name j ∧ call.Recorded j) j)
    (happlied : j.applied ≠ []) (hhealthy : j.env.Healthy) : Reopens dbname name j := by
  intro vs hvs saveManifest uninit
  obtain ⟨hkept, hall⟩ := h.readable
  have hrec : ∃ saveManifest' vs' env', vs.recover saveManifest uninit j.env
      = .ok (.ok, saveManifest', vs', env') := by
    cases hkept.stored with
    | nothing hnil _ _ => exact absurd hnil happlied
    | manifest number records tail read hdisk hdecode hreflects _ _ =>
        obtain ⟨l, hl⟩ := hvs.list
        obtain ⟨hkeys, hcomplete⟩ := complete_of_reflects hreflects hall
        rw [← hvs.comparator] at hcomplete
        have hfile : vs.descriptorFile = none := by rw [hvs.file, hvs.closed]; rfl
        exact hdisk.accepts hhealthy hvs.dbname_eq hl.listed hl.ne_nil hfile hvs.closed hdecode hkeys
          hcomplete saveManifest uninit
  obtain ⟨saveManifest', vs', env', hrec⟩ := hrec
  obtain ⟨⟨last, hlast, hnumbers⟩, -⟩ := hkept.recovered hvs hrec
  refine ⟨saveManifest', vs', env', last, hrec, hlast, hnumbers.logNumber, hnumbers.prevLogNumber,
    hnumbers.lastSequence, ?_⟩
  have hlt := (hall last (List.mem_of_getLast? hlast)).nextFile
  rw [hnumbers.nextFileNumber]
  bv_omega

/-! ## Concrete runs -/

/-- A call whose records fit, from what can be evaluated. -/
theorem Call.recorded_logAnyApply {vs : VersionSet} (hvs : j.versions = some vs)
    {us : List VersionEdit.Update} (hpointers : (VersionEdit.built us).compactPointers = [])
    (hfits : ∀ p ∈ (vs.callRecords (VersionEdit.built us)).toOption, AllFit p.1 p.2) (uninit : U32) :
    (Call.logAnyApply us uninit).Recorded j := by
  refine ⟨hpointers, fun vs' hvs' o records hrecords => ?_⟩
  cases hvs.symm.trans hvs'
  exact hfits (o, records) (by rw [hrecords]; rfl)

theorem openedJournal_succeeds {us : List VersionEdit.Update}
    (hfiles : (VersionEdit.built us).newFiles = [])
    (hcomparator : (VersionEdit.built us).hasComparator = false) (uninit : U32) :
    (Call.logAnyApply us uninit).Succeeds (text "order") openedJournal := by
  obtain ⟨-, -, -, -, -, -, -, hok, hnext⟩ := openedJournal_evaluated
  refine ⟨hok, ?_, ?_, fun vs hvs => ?_⟩
  · rw [LongKeys, hfiles]
    exact List.forall_mem_nil _
  · rw [VersionEdit.Accepted, hcomparator]
    intro h
    cases h
  · rw [Option.some.inj (hvs.symm.trans openedJournal_versions)]
    exact hnext

/-- A manifest has been made, and is opened again. -/
theorem Run.reopens_numbered : Reopens (text "db") (text "order") numberedJournal := by
  obtain ⟨-, -, -, -, hfits, -⟩ := openedJournal_evaluated
  have hhealthy : numberedJournal.applied ≠ [] ∧ (∀ s ∈ numberedJournal.env.script, s = .ok)
      ∧ ∀ e ∈ numberedJournal.env.files.entries, e.2.readScript = [] := by decide +kernel
  refine Run.reopens ?_ hhealthy.1 ⟨hhealthy.2.1, hhealthy.2.2⟩
  exact numberedJournal_run ⟨trivial, createdJournal_clean.1⟩ ⟨trivial, trivial⟩
    ⟨openedJournal_succeeds rfl rfl 0, Call.recorded_logAnyApply openedJournal_versions rfl hfits 0⟩
    ⟨trivial, trivial⟩

/-- An edit with a compact pointer has been applied. -/
def pointerJournal : Journal :=
  openedJournal.after (.logAnyApply [.setCompactPointer 1 (zeros 8)] 0)

/-- **A database with a compact pointer** cannot be opened again: `decode_from` takes the pointer for
a deleted file. -/
theorem Run.not_forall_reopens : ¬ ∀ (dbname name : Bytes) (j : Journal),
    Run dbname name (fun j call => call.Succeeds name j) j → j.applied ≠ [] → j.env.Healthy →
    Reopens dbname name j := by
  intro hall
  have hevaluated : ((Call.logAnyApply [.setCompactPointer 1 (zeros 8)] 0).returns
        openedJournal).isOk = true
      ∧ pointerJournal.applied ≠ [] ∧ (∀ s ∈ pointerJournal.env.script, s = .ok)
      ∧ (∀ e ∈ pointerJournal.env.files.entries, e.2.readScript = [])
      ∧ freshVersionSet.succeedsWith pointerJournal.env = none := by decide +kernel
  obtain ⟨happlies, happlied, hok, hreads, hfails⟩ := hevaluated
  have hopened : Run (text "db") (text "order") (fun j call => call.Succeeds (text "order") j)
      openedJournal := openedJournal_run trivial trivial
  have hrun : Run (text "db") (text "order") (fun j call => call.Succeeds (text "order") j)
      pointerJournal :=
    hopened.after (.logAnyApply [.setCompactPointer 1 (zeros 8)] 0)
      (by simp [Call.Allowed, VersionEdit.Update.Ok, VersionEdit.KeyOk, kNumLevels, zeros])
      (openedJournal_succeeds rfl rfl 0) happlies
  obtain ⟨save', vs', env', last, hrec, -⟩ := hall _ _ _ hrun happlied ⟨hok, hreads⟩
    freshVersionSet freshVersionSet_fresh false 0
  rw [VersionSet.succeedsWith, hrec] at hfails
  cases hfails

end Journal

end SimpleLeveldb
