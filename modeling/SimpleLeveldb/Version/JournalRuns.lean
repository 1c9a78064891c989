import SimpleLeveldb.Version.Reopen

set_option autoImplicit false

/-! # Runs that make, extend and open a database

`NewDB`, `recover` and `log_any_apply` are called by one process after the other, and any operation
of the environment may fail. A run is recorded with the edits of the calls that succeeded, which is
what a version set that recovers from the directory should show.
-/

namespace SimpleLeveldb

open Env (Passes IgnoresNone)
open Log (AllFit)

/-- The directory, the version set of the process that works on it, and the edits that have been
applied: that of `NewDB`, and those of the calls of `log_any_apply` that succeeded. -/
structure Journal where
  env : Env
  versions : Option VersionSet
  applied : List VersionEdit

namespace Journal

inductive Call where
  | newDb (db : DbImpl) (uninit : U32)
  | recover (saveManifest : Bool) (uninit : U32)
  | newFileNumber
  | markFileNumberUsed (number : U64)
  | setLastSequence (s : U64)
  | logAnyApply (us : List VersionEdit.Update) (uninit : U32)

namespace Call

/-- The journal behind a call that returns. -/
def returns (j : Journal) : Call → Except Fault Journal
  | newDb db uninit => do
      let (s, env) ← db.newDb uninit j.env
      let edit := DbImpl.newDbEdit db.userComparator.name
      return ⟨env, j.versions, if s.isOk then j.applied ++ [edit] else j.applied⟩
  | recover saveManifest uninit => do
      let vs ← deref j.versions
      let (_, _, vs, env) ← vs.recover saveManifest uninit j.env
      return ⟨env, some vs, j.applied⟩
  | newFileNumber => do
      let vs ← deref j.versions
      return ⟨j.env, some vs.newFileNumber.2, j.applied⟩
  | markFileNumberUsed number => do
      let vs ← deref j.versions
      return ⟨j.env, some (vs.markFileNumberUsed number), j.applied⟩
  | setLastSequence s => do
      let vs ← (← deref j.versions).setLastSequence s
      return ⟨j.env, some vs, j.applied⟩
  | logAnyApply us uninit => do
      let vs ← deref j.versions
      let (s, edit, vs, env) ← vs.logAnyApply (VersionEdit.built us) uninit j.env
      return ⟨env, some vs, if s.isOk then j.applied ++ [edit] else j.applied⟩

/-- `NewDB` is called only while `CURRENT` is absent; edits have levels from 0 to 6, and keys that
are not empty. -/
def Allowed (dbname name : Bytes) (j : Journal) : Call → Prop
  | newDb db _ => db.dbname = dbname ∧ db.userComparator.name = name ∧ j.env.current dbname = none
  | logAnyApply us _ => ∀ u ∈ us, u.Ok
  | _ => True

end Call

/-- A run from a directory without `CURRENT`, whose calls all meet the condition `Cond`. -/
inductive Run (dbname name : Bytes) (Cond : Journal → Call → Prop) : Journal → Prop
  | start {env : Env} : env.current dbname = none → Run dbname name Cond ⟨env, none, []⟩
  /-- the operations and the reads to come have other outcomes -/
  | outcomes {j : Journal} {env : Env} : Run dbname name Cond j → j.env.SameFiles env →
      Run dbname name Cond ⟨env, j.versions, j.applied⟩
  | restart {j : Journal} {vs : VersionSet} : Run dbname name Cond j → vs.Fresh dbname name →
      Run dbname name Cond ⟨j.env, some vs, j.applied⟩
  | returns {j j' : Journal} {call : Call} : Run dbname name Cond j → call.Allowed dbname name j →
      Cond j call → call.returns j = .ok j' → Run dbname name Cond j'
  /-- an operation fails, and the process ends (`VersionSet.logAnyApply_of_not_passes`) -/
  | fails {j : Journal} {us : List VersionEdit.Update} {uninit : U32} {vs : VersionSet}
      {ops : List Bool} : Run dbname name Cond j → (∀ u ∈ us, u.Ok) →
      Cond j (.logAnyApply us uninit) → j.versions = some vs →
      vs.operations (VersionEdit.built us) = .ok ops → ¬ Passes ops j.env.script →
      Run dbname name Cond
        ⟨(Steps.logAnyApply vs (VersionEdit.built us) uninit).last j.env, none, j.applied⟩

/-! ## One step -/

/-- The writer of the manifest that the process has open. -/
def log (j : Journal) : Option Log.Writer := j.versions.bind fun vs => vs.descriptorLog

/-- What a run keeps. -/
structure Kept (failed : Prop) (dbname name : Bytes) (j : Journal) : Prop where
  bare : ∀ vs, j.versions = some vs → vs.Bare dbname name
  stored : Stored failed dbname name j.env j.log j.applied

/-- A call that is within what a manifest can record. -/
def Call.Storable (dbname : Bytes) (j : Journal) : Call → Prop
  | .newDb db _ => ∀ record, (DbImpl.newDbEdit db.userComparator.name).encodeTo = .ok record →
      AllFit 0 [record]
  | .recover _ _ => ∀ vs, j.versions = some vs → vs.options.reuseLogs = true → Untorn dbname j.env
  | .logAnyApply us _ => ∀ vs, j.versions = some vs → vs.Recordable (VersionEdit.built us) j.env
  | _ => True

/-- The part of this on which a call that returns depends. -/
def Call.Writable (dbname : Bytes) (j : Journal) : Call → Prop
  | .newDb db _ => ∀ record, (DbImpl.newDbEdit db.userComparator.name).encodeTo = .ok record →
      AllFit 0 [record]
  | .recover _ _ => ∀ vs, j.versions = some vs → vs.options.reuseLogs = true → Untorn dbname j.env
  | .logAnyApply us _ => ∀ vs, j.versions = some vs → vs.Writable (VersionEdit.built us) j.env
  | _ => True

theorem Call.Storable.writable {dbname : Bytes} {j : Journal} {call : Call}
    (h : call.Storable dbname j) : call.Writable dbname j := by
  cases call with
  | logAnyApply us uninit => exact fun vs hvs => (h vs hvs).writable
  | _ => exact h

namespace Kept

variable {failed : Prop} {dbname name : Bytes} {j j' : Journal}

theorem sameFiles (h : Kept failed dbname name j) {env : Env} (hsame : j.env.SameFiles env) :
    Kept failed dbname name ⟨env, j.versions, j.applied⟩ where
  bare := h.bare
  stored := h.stored.congr fun g => by
    have hg := congrArg (Option.map Prod.fst) (hsame g)
    simp only [Option.map_map] at hg
    exact hg

theorem restart (h : Kept failed dbname name j) {vs : VersionSet} (hvs : vs.Fresh dbname name) :
    Kept failed dbname name ⟨j.env, some vs, j.applied⟩ where
  bare := fun vs' hvs' => by
    cases hvs'
    exact hvs.toBare
  stored := by
    rw [log]
    simp only [Option.bind_some, hvs.closed]
    exact h.stored.closed

/-- A call that changes numbers only. -/
theorem numbers (h : Kept failed dbname name j) {vs : VersionSet} (hvs : j.versions = some vs)
    {vs' : VersionSet} (hsame : vs' = { vs with
      nextFileNumber := vs'.nextFileNumber, lastSequence := vs'.lastSequence }) :
    Kept failed dbname name ⟨j.env, some vs', j.applied⟩ where
  bare := fun vs'' hvs'' => by
    cases hvs''
    have hbare := h.bare vs hvs
    rw [hsame]
    exact ⟨hbare.dbname_eq, hbare.comparator, hbare.compactPointer, hbare.list, hbare.file, hbare.log⟩
  stored := by
    have hstored := h.stored
    rw [log, hvs] at hstored
    rw [hsame]
    exact hstored

/-- What is stored, for the version set of the process. -/
theorem stored_of (h : Kept failed dbname name j) {vs : VersionSet} (hvs : j.versions = some vs) :
    Stored failed dbname name j.env vs.descriptorLog j.applied := by
  have hstored := h.stored
  rwa [log, hvs] at hstored

/-- `NewDB` has been called while there was nothing. -/
theorem newDb (h : Kept failed dbname name j) {db : DbImpl} {uninit : U32}
    (hallowed : (Call.newDb db uninit).Allowed dbname name j)
    (hwritable : (Call.newDb db uninit).Writable dbname j) {s : Status} {env : Env}
    (hrun : db.newDb uninit j.env = .ok (s, env)) :
    Kept failed dbname name ⟨env, j.versions,
      if s.isOk then j.applied ++ [DbImpl.newDbEdit db.userComparator.name] else j.applied⟩ := by
  obtain ⟨rfl, rfl, habsent⟩ := hallowed
  refine ⟨h.bare, ?_⟩
  cases h.stored with
  | nothing happlied hclosed _ =>
      have hstored : Stored failed db.dbname db.userComparator.name env none
          (if s.isOk then [DbImpl.newDbEdit db.userComparator.name] else []) :=
        DbImpl.stored_of_newDb habsent hwritable hrun
      rw [← hclosed] at hstored
      simp only [happlied, List.nil_append]
      exact hstored
  | manifest number _ _ _ hdisk _ _ _ _ => cases habsent.symm.trans hdisk.current

/-- A call of `log_any_apply` has returned, and so it has succeeded. -/
theorem logAnyApply (h : Kept failed dbname name j) {us : List VersionEdit.Update} {uninit : U32}
    (hallowed : ∀ u ∈ us, u.Ok) {vs : VersionSet} (hvs : j.versions = some vs)
    (hwritable : vs.Writable (VersionEdit.built us) j.env) {s : Status} {edit' : VersionEdit}
    {vs' : VersionSet} {env : Env}
    (hrun : vs.logAnyApply (VersionEdit.built us) uninit j.env = .ok (s, edit', vs', env)) :
    Kept failed dbname name ⟨env, some vs', if s.isOk then j.applied ++ [edit'] else j.applied⟩ := by
  obtain ⟨rfl, happlied⟩ := (h.bare vs hvs).applied_of_ok hwritable.compactPointers hrun
  obtain ⟨hbare, hstored⟩ := happlied.stored hwritable (VersionEdit.wellFormed_built hallowed)
    (h.stored_of hvs)
  refine ⟨fun vs'' hvs'' => ?_, hstored⟩
  cases hvs''
  exact hbare

/-- **A call that returns.** -/
theorem returns (h : Kept failed dbname name j) {call : Call} (hallowed : call.Allowed dbname name j)
    (hwritable : call.Writable dbname j) (hret : call.returns j = .ok j') :
    Kept failed dbname name j' := by
  cases call with
  | newDb db uninit =>
      obtain ⟨⟨s, env⟩, hrun, hret⟩ := bind_eq_ok.mp hret
      cases hret
      exact h.newDb hallowed hwritable hrun
  | recover saveManifest uninit =>
      obtain ⟨vs, hvs, hret⟩ := bind_eq_ok.mp hret
      obtain ⟨⟨s, save, vs', env⟩, hrun, hret⟩ := bind_eq_ok.mp hret
      cases hret
      have hvs := deref_eq_ok.mp hvs
      obtain ⟨hbare, hstored⟩ := (h.bare vs hvs).recover failed j.applied hrun
      refine ⟨fun vs'' hvs'' => ?_, hstored (h.stored_of hvs) (hwritable vs hvs)⟩
      cases hvs''
      exact hbare
  | newFileNumber =>
      obtain ⟨vs, hvs, hret⟩ := bind_eq_ok.mp hret
      cases hret
      exact h.numbers (deref_eq_ok.mp hvs) rfl
  | markFileNumberUsed number =>
      obtain ⟨vs, hvs, hret⟩ := bind_eq_ok.mp hret
      cases hret
      rw [VersionSet.markFileNumberUsed_eq]
      exact h.numbers (deref_eq_ok.mp hvs) rfl
  | setLastSequence s =>
      obtain ⟨vs, hvs, hret⟩ := bind_eq_ok.mp hret
      obtain ⟨vs', hset, hret⟩ := bind_eq_ok.mp hret
      cases hret
      obtain ⟨_, -, hset⟩ := bind_eq_ok.mp hset
      cases hset
      exact h.numbers (deref_eq_ok.mp hvs) rfl
  | logAnyApply us uninit =>
      obtain ⟨vs, hvs, hret⟩ := bind_eq_ok.mp hret
      obtain ⟨⟨s, edit', vs', env⟩, hrun, hret⟩ := bind_eq_ok.mp hret
      cases hret
      have hvs := deref_eq_ok.mp hvs
      exact h.logAnyApply hallowed hvs (hwritable vs hvs) hrun

/-- **A call that fails**, before all of its record has been appended. -/
theorem fails (h : Kept failed dbname name j) (hfailed : failed) {us : List VersionEdit.Update}
    {uninit : U32} (hstorable : (Call.logAnyApply us uninit).Storable dbname j) {vs : VersionSet}
    (hvs : j.versions = some vs) (hearly : vs.FailsEarly (VersionEdit.built us) j.env)
    {ops : List Bool} (hops : vs.operations (VersionEdit.built us) = .ok ops)
    (hnot : ¬ Passes ops j.env.script) :
    Kept failed dbname name
      ⟨(Steps.logAnyApply vs (VersionEdit.built us) uninit).last j.env, none, j.applied⟩ where
  bare := nofun
  stored := VersionSet.stored_of_not_passes (h.bare vs hvs) (hstorable vs hvs) hearly hfailed
    (h.stored_of hvs) hops hnot

end Kept

/-! ## What a recovering version set shows -/

/-- The files that edits leave, with their levels: files are deleted, and then files are added. -/
def filesLeft (edits : List VersionEdit) : Finset (Nat × U64) :=
  edits.foldl (fun files e =>
    (files \ e.deletedFiles) ∪ (e.newFiles.map fun p => (p.1, p.2.number)).toFinset) ∅

/-- The current version has a file with the number `number` at a level. -/
def HasFile (vs : VersionSet) (level : Nat) (number : U64) : Prop :=
  ∃ c v f m, ∃ lv : Level, vs.list.current = some c ∧ vs.list.versions c = some v ∧ f ∈ v.files lv
    ∧ lv.val = level ∧ vs.list.files f = some m ∧ m.number = number

theorem not_hasFile {dbname name : Bytes} {vs : VersionSet} (h : vs.Bare dbname name) (level : Nat)
    (number : U64) : ¬ HasFile vs level number := by
  rintro ⟨c, v, f, m, lv, hc, hv, hf, -⟩
  obtain ⟨l, hl⟩ := h.list
  have hmem : c ∈ l := List.mem_of_getLast? (hl.listed.current.symm.trans hc)
  have hnil := hl.filesOf c hmem
  rw [VersionList.filesOf_of_versions hv, Version.allFiles, List.flatMap_eq_nil_iff] at hnil
  rw [hnil lv (List.mem_finRange lv)] at hf
  cases hf

/-- The version set shows the edits `applied` and nothing else: its log numbers are those of the
last one, and its files are those that the edits leave. -/
structure Shows (vs : VersionSet) (applied : List VersionEdit) : Prop where
  last : ∃ last, applied.getLast? = some last ∧ vs.logNumber = last.logNumber
    ∧ vs.prevLogNumber = last.prevLogNumber
  files : ∀ level number, HasFile vs level number ↔ (level, number) ∈ filesLeft applied

/-- The numbers of a version set are those of the edit `last`. -/
structure HasNumbers (vs : VersionSet) (last : VersionEdit) : Prop where
  logNumber : vs.logNumber = last.logNumber
  prevLogNumber : vs.prevLogNumber = last.prevLogNumber
  lastSequence : vs.lastSequence = last.lastSequence
  nextFileNumber : vs.nextFileNumber = last.nextFileNumber + 1

variable {failed : Prop} {dbname name : Bytes} {j : Journal}

/-- **A version set that recovers** has the numbers of the last edit, and no files. -/
theorem Kept.recovered (h : Kept failed dbname name j) {vs vs' : VersionSet}
    (hvs : vs.Fresh dbname name) {saveManifest saveManifest' : Bool} {uninit : U32} {env' : Env}
    (hrec : vs.recover saveManifest uninit j.env = .ok (.ok, saveManifest', vs', env')) :
    (∃ last, j.applied.getLast? = some last ∧ HasNumbers vs' last)
      ∧ ∀ level number, ¬ HasFile vs' level number := by
  refine ⟨?_, not_hasFile (hvs.toBare.recover failed j.applied hrec).1⟩
  obtain ⟨current, env₂, edits, hreads, hset⟩ := VersionSet.recovered_of_ok hrec
  cases h.stored with
  | nothing _ _ habsent =>
      obtain ⟨file, hopen, -⟩ := hreads
      have hcurrent := hopen.current_eq.1
      rw [hvs.dbname_eq] at hcurrent
      cases hcurrent.symm.trans habsent
  | manifest number records tail read hdisk hdecode hreflects _ _ =>
      obtain ⟨-, rfl⟩ := hdisk.reads hvs.dbname_eq hdecode hreads
      obtain ⟨last, hlast, hends⟩ := hreflects.last
      refine ⟨last, hlast, ?_, ?_, ?_, ?_⟩
      · exact Option.some.inj (hset.logNumber.symm.trans hends.logNumber)
      · exact hset.prevLogNumber.trans hends.prevLogNumber
      · exact Option.some.inj (hset.lastSequence.symm.trans hends.lastSequence)
      · rw [hset.nextFileNumber, hends.nextFile, Option.getD_some]

/-! ## Rejected edits -/

/-- A call that is within what a manifest can record, and that fails, if it fails, before all of its
record has been appended to a manifest that was open. -/
def Call.Clean (dbname : Bytes) (j : Journal) (call : Call) : Prop :=
  call.Storable dbname j ∧ match call with
    | .logAnyApply us _ => ∀ vs, j.versions = some vs → vs.FailsEarly (VersionEdit.built us) j.env
    | _ => True

theorem Run.kept (h : Run dbname name (fun j call => call.Clean dbname j) j) :
    Kept True dbname name j := by
  induction h with
  | start habsent => exact ⟨nofun, .nothing rfl rfl habsent⟩
  | outcomes _ hsame ih => exact ih.sameFiles hsame
  | restart _ hvs ih => exact ih.restart hvs
  | returns _ hallowed hclean hret ih => exact ih.returns hallowed hclean.1.writable hret
  | fails _ _ hclean hvs hops hnot ih =>
      exact ih.fails trivial hclean.1 hvs (hclean.2 _ hvs) hops hnot

/-- **A rejected edit does not come back**, in a run whose calls all fail cleanly: a version set that
recovers shows the edits that were applied, if and only if these leave no file. -/
theorem Run.shows_iff (h : Run dbname name (fun j call => call.Clean dbname j) j)
    {vs vs' : VersionSet} (hvs : vs.Fresh dbname name) {saveManifest saveManifest' : Bool}
    {uninit : U32} {env' : Env}
    (hrec : vs.recover saveManifest uninit j.env = .ok (.ok, saveManifest', vs', env')) :
    Shows vs' j.applied ↔ filesLeft j.applied = ∅ := by
  obtain ⟨⟨last, hlast, hnumbers⟩, hnone⟩ := h.kept.recovered hvs hrec
  constructor
  · intro hshows
    refine Finset.eq_empty_of_forall_notMem fun p hp => hnone p.1 p.2 ?_
    exact (hshows.files p.1 p.2).mpr hp
  · intro hempty
    refine ⟨⟨last, hlast, hnumbers.logNumber, hnumbers.prevLogNumber⟩, fun level number => ?_⟩
    rw [hempty]
    exact iff_of_false (hnone level number) (Finset.notMem_empty _)

/-! ## Concrete runs -/

/-- A list with one version, which has no files. -/
def bareVersions : VersionList where
  versions := fun p =>
    if p = 0 then some { next := some 1, prev := some 1 }
    else if p = 1 then some { next := some 0, prev := some 0, refs := 1 }
    else none
  files := fun _ => none
  nextVersion := 2
  current := some 1

theorem bareVersions_bare : bareVersions.Bare [1] where
  listed := by
    have hfiles : bareVersions.filesOf 1 = [] := by decide
    refine ⟨⟨⟨⟨⟨rfl, rfl⟩, rfl, rfl⟩, by decide⟩, by decide, by decide, fun f hf => ?_⟩, rfl⟩
    rw [VersionList.total, List.flatMap_cons, hfiles] at hf
    cases hf
  ne_nil := by decide
  filesOf := by decide

/-- The version set of a process that has just started. -/
def freshVersionSet : VersionSet :=
  { VersionSet.oneVersionSet with
    manifestFileNumber := 0, nextFileNumber := 2, list := bareVersions }

theorem freshVersionSet_fresh : freshVersionSet.Fresh (text "db") (text "order") where
  dbname_eq := rfl
  comparator := rfl
  compactPointer := fun _ => rfl
  list := ⟨[1], bareVersions_bare⟩
  file := rfl
  log := nofun
  closed := rfl

def freshDb : DbImpl where
  dbname := text "db"
  options := {}
  userComparator := freshVersionSet.icmp.userComparator
  dbLock := none
  versions := freshVersionSet
  pendingOutputs := []
  bgError := .ok

/-- The journal behind a call, if it returns. -/
def after (j : Journal) (call : Call) : Journal :=
  match call.returns j with
  | .ok j' => j'
  | .error _ => j

theorem Run.after {Cond : Journal → Call → Prop} (h : Run dbname name Cond j) (call : Call)
    (hallowed : call.Allowed dbname name j) (hcond : Cond j call)
    (hok : (call.returns j).isOk = true) : Run dbname name Cond (j.after call) := by
  cases hret : call.returns j with
  | error e =>
      rw [hret] at hok
      cases hok
  | ok j' =>
      have hafter : j.after call = j' := by rw [Journal.after, hret]
      rw [hafter]
      exact h.returns hallowed hcond hret

def restarted (j : Journal) : Journal := ⟨j.env, some freshVersionSet, j.applied⟩

def emptyJournal : Journal := ⟨{ files := ∅ }, none, []⟩

def createdJournal : Journal := emptyJournal.after (.newDb freshDb 0)

def openedJournal : Journal := createdJournal.restarted.after (.recover false 0)

/-- The version set that has recovered. -/
def openedVersionSet : VersionSet := openedJournal.versions.getD freshVersionSet

theorem versions_getD {j : Journal} (h : j.versions.isSome = true) :
    j.versions = some (j.versions.getD freshVersionSet) := by
  obtain ⟨vs, hvs⟩ := Option.isSome_iff_exists.mp h
  rw [hvs, Option.getD_some]

/-- What can be evaluated of the first two calls, and of a third one, for an edit that changes
nothing: it makes a manifest, with two records, and `CURRENT`. -/
theorem openedJournal_evaluated :
    ((Call.newDb freshDb 0).returns emptyJournal).isOk = true
      ∧ ((Call.recover false 0).returns createdJournal.restarted).isOk = true
      ∧ openedJournal.versions.isSome = true
      ∧ (∀ r ∈ ((DbImpl.newDbEdit freshDb.userComparator.name).encodeTo).toOption, AllFit 0 [r])
      ∧ (∀ p ∈ (openedVersionSet.callRecords (VersionEdit.built [])).toOption, AllFit p.1 p.2)
      ∧ openedVersionSet.CreatesAnother openedJournal.env
      ∧ openedVersionSet.operations (VersionEdit.built []) = .ok (List.replicate 13 true)
      ∧ (∀ s ∈ openedJournal.env.script, s = .ok)
      ∧ openedVersionSet.nextFileNumber.toNat < 2 ^ 64 - 1 := by
  decide +kernel

theorem openedJournal_versions : openedJournal.versions = some openedVersionSet :=
  versions_getD openedJournal_evaluated.2.2.1

/-- A manifest has been made, and a number has been taken. -/
def numberedJournal : Journal := (openedJournal.after (.logAnyApply [] 0)).after .newFileNumber

/-- The version set that has made the manifest. -/
def numberedVersionSet : VersionSet := numberedJournal.versions.getD freshVersionSet

/-- What can be evaluated of these calls, and of the next one, which gives a log its number: two
appends, a flush and a sync. -/
theorem numberedJournal_evaluated :
    ((Call.logAnyApply [] 0).returns openedJournal).isOk = true
      ∧ (Call.newFileNumber.returns (openedJournal.after (.logAnyApply [] 0))).isOk = true
      ∧ numberedJournal.versions.isSome = true
      ∧ numberedJournal.applied.getLast?.map VersionEdit.logNumber = some 0
      ∧ (∀ p ∈ (numberedVersionSet.callRecords (VersionEdit.built [.setLogNumber 3])).toOption,
          AllFit p.1 p.2)
      ∧ numberedVersionSet.CreatesAnother numberedJournal.env
      ∧ numberedVersionSet.operations (VersionEdit.built [.setLogNumber 3])
        = .ok [true, true, true, true] := by
  decide +kernel

theorem numberedJournal_versions : numberedJournal.versions = some numberedVersionSet :=
  versions_getD numberedJournal_evaluated.2.2.1

theorem openedJournal_run {Cond : Journal → Call → Prop}
    (hnew : Cond emptyJournal (.newDb freshDb 0))
    (hrecover : Cond createdJournal.restarted (.recover false 0)) :
    Run (text "db") (text "order") Cond openedJournal := by
  obtain ⟨hcreates, hrecovers, -⟩ := openedJournal_evaluated
  have hempty : Run (text "db") (text "order") Cond emptyJournal := Run.start rfl
  have hcreated : Run (text "db") (text "order") Cond createdJournal :=
    hempty.after (.newDb freshDb 0) ⟨rfl, rfl, rfl⟩ hnew hcreates
  exact Run.after (j := createdJournal.restarted) (hcreated.restart freshVersionSet_fresh)
    (.recover false 0) trivial hrecover hrecovers

theorem numberedJournal_run {Cond : Journal → Call → Prop}
    (hnew : Cond emptyJournal (.newDb freshDb 0))
    (hrecover : Cond createdJournal.restarted (.recover false 0))
    (happly : Cond openedJournal (.logAnyApply [] 0))
    (hnumber : Cond (openedJournal.after (.logAnyApply [] 0)) .newFileNumber) :
    Run (text "db") (text "order") Cond numberedJournal := by
  obtain ⟨happlies, htakes, -⟩ := numberedJournal_evaluated
  have hopened := openedJournal_run hnew hrecover
  have happlied := hopened.after (.logAnyApply [] 0) (by simp [Call.Allowed]) happly happlies
  exact happlied.after .newFileNumber trivial hnumber htakes

/-- The journal with other outcomes of the operations to come. -/
def scripted (j : Journal) (script : List Status) : Journal :=
  ⟨{ j.env with script := script }, j.versions, j.applied⟩

theorem scripted_versions (j : Journal) (script : List Status) :
    (j.scripted script).versions = j.versions := rfl

theorem createsAnother_scripted (j : Journal) (script : List Status) {vs : VersionSet}
    (h : vs.CreatesAnother j.env) : vs.CreatesAnother (j.scripted script).env := h

/-- The journal behind a call of which an operation fails. -/
def failedWith (j : Journal) (vs : VersionSet) (us : List VersionEdit.Update)
    (script : List Status) : Journal :=
  ⟨(Steps.logAnyApply vs (VersionEdit.built us) 0).last (j.scripted script).env, none, j.applied⟩

theorem failedWith_applied (j : Journal) (vs : VersionSet) (us : List VersionEdit.Update)
    (script : List Status) : (j.failedWith vs us script).applied = j.applied := rfl

theorem Run.failedWith {Cond : Journal → Call → Prop} (h : Run dbname name Cond j) {vs : VersionSet}
    (hvs : j.versions = some vs) {us : List VersionEdit.Update} (hus : ∀ u ∈ us, u.Ok)
    {script : List Status} (hcond : Cond (j.scripted script) (.logAnyApply us 0)) {ops : List Bool}
    (hops : vs.operations (VersionEdit.built us) = .ok ops) (hnot : ¬ Passes ops script) :
    Run dbname name Cond (j.failedWith vs us script) := by
  have hscripted : Run dbname name Cond (j.scripted script) := h.outcomes fun g => rfl
  exact hscripted.fails hus hcond hvs hops hnot

/-- Both appends and the flush succeed, and the sync fails. -/
def failedJournal : Journal :=
  numberedJournal.failedWith numberedVersionSet [.setLogNumber 3]
    [.ok, .ok, .ok, .ioError (text "disk")]

/-- **A rejected edit comes back** when it fails at the sync: all of its record is in the manifest. -/
theorem Run.not_forall_shows : ¬ ∀ (dbname name : Bytes) (j : Journal) (vs vs' : VersionSet)
    (saveManifest saveManifest' : Bool) (uninit : U32) (env' : Env),
    Run dbname name (fun _ _ => True) j → vs.Fresh dbname name →
    vs.recover saveManifest uninit j.env = .ok (.ok, saveManifest', vs', env') →
    Shows vs' j.applied := by
  intro hall
  obtain ⟨-, -, -, hzero, -, -, hoperations⟩ := numberedJournal_evaluated
  have hrun : Run (text "db") (text "order") (fun _ _ => True) failedJournal :=
    (numberedJournal_run trivial trivial trivial trivial).failedWith numberedJournal_versions
      (by simp [VersionEdit.Update.Ok]) trivial hoperations (by decide)
  have hsucceeds : freshVersionSet.succeedsWith failedJournal.env = some (5, 3) := by decide +kernel
  obtain ⟨save', vs', env', hrec, -, hlog⟩ := VersionSet.exists_recover_ok hsucceeds
  obtain ⟨last, hlast, hlog', -⟩ := (hall _ _ _ _ _ _ _ _ _ hrun freshVersionSet_fresh hrec).last
  rw [failedJournal, failedWith_applied] at hlast
  rw [hlast, Option.map_some, Option.some.injEq, ← hlog', hlog] at hzero
  cases hzero

/-- A clean call of `log_any_apply`, from what can be evaluated. -/
theorem Call.clean_logAnyApply {dbname : Bytes} {j : Journal} {vs : VersionSet}
    (hvs : j.versions = some vs) {us : List VersionEdit.Update} {ops : List Bool}
    (hpointers : (VersionEdit.built us).compactPointers = [])
    (hfits : ∀ p ∈ (vs.callRecords (VersionEdit.built us)).toOption, AllFit p.1 p.2)
    (hanother : vs.CreatesAnother j.env) (hops : vs.operations (VersionEdit.built us) = .ok ops)
    (hignored : IgnoresNone ops j.env.script)
    (hearly : Passes (ops.take (ops.length - 2)) j.env.script → Passes ops j.env.script)
    (uninit : U32) : (Call.logAnyApply us uninit).Clean dbname j := by
  refine ⟨fun vs' hvs' => ?_, fun vs' hvs' _ ops' hops' => ?_⟩
  · cases hvs.symm.trans hvs'
    refine ⟨hpointers, fun o records hrecords => ?_, hanother, fun ops' hops' => ?_⟩
    · exact hfits (o, records) (by rw [hrecords]; rfl)
    · cases hops.symm.trans hops'
      exact hignored
  · cases hvs.symm.trans hvs'
    cases hops.symm.trans hops'
    exact hearly

/-- The first append fails, and nothing is written. -/
def cleanlyFailedJournal : Journal :=
  numberedJournal.failedWith numberedVersionSet [.setLogNumber 3] [.ioError (text "disk")]

theorem createdJournal_clean :
    (Call.newDb freshDb 0).Clean (text "db") emptyJournal := by
  obtain ⟨-, -, -, hfits, -⟩ := openedJournal_evaluated
  refine ⟨fun record hrecord => hfits record ?_, trivial⟩
  rw [hrecord]
  rfl

theorem openedJournal_clean :
    (Call.recover false 0).Clean (text "db") createdJournal.restarted := by
  refine ⟨fun vs hvs hreuse => ?_, trivial⟩
  cases hvs
  cases hreuse

theorem cleanlyFailedJournal_run :
    Run (text "db") (text "order") (fun j call => call.Clean (text "db") j) cleanlyFailedJournal := by
  obtain ⟨-, -, -, -, hfits, hanother, hoperations, hok, -⟩ := openedJournal_evaluated
  have hallOk : openedJournal.env.AllOk := hok
  have hnumbered : Run (text "db") (text "order") (fun j call => call.Clean (text "db") j)
      numberedJournal := by
    refine numberedJournal_run createdJournal_clean openedJournal_clean ?_ ⟨trivial, trivial⟩
    exact Call.clean_logAnyApply openedJournal_versions rfl hfits hanother hoperations
      (hallOk.ignoresNone _) (fun _ => hallOk.passes _) 0
  obtain ⟨-, -, -, -, hfits', hanother', hoperations'⟩ := numberedJournal_evaluated
  have hversions : (numberedJournal.scripted [.ioError (text "disk")]).versions
      = some numberedVersionSet := by rw [scripted_versions, numberedJournal_versions]
  have hclean : (Call.logAnyApply [.setLogNumber 3] 0).Clean (text "db")
      (numberedJournal.scripted [.ioError (text "disk")]) :=
    Call.clean_logAnyApply hversions rfl hfits' (createsAnother_scripted _ _ hanother') hoperations'
      (by decide) (by decide) 0
  exact hnumbered.failedWith numberedJournal_versions (by simp [VersionEdit.Update.Ok]) hclean
    hoperations' (by decide)

theorem Run.shows_iff_cleanlyFailed : ∃ vs', VersionSet.logNumber vs' = 0 ∧
    (Shows vs' cleanlyFailedJournal.applied ↔ filesLeft cleanlyFailedJournal.applied = ∅) := by
  have hsucceeds : freshVersionSet.succeedsWith cleanlyFailedJournal.env = some (4, 0) := by
    decide +kernel
  obtain ⟨save', vs', env', hrec, -, hlog⟩ := VersionSet.exists_recover_ok hsucceeds
  exact ⟨vs', hlog, Run.shows_iff cleanlyFailedJournal_run freshVersionSet_fresh hrec⟩

end Journal

end SimpleLeveldb
