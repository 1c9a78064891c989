import SimpleLeveldb.Version.DurableSteps
import SimpleLeveldb.Version.ReopenRuns

set_option autoImplicit false

/-! # Acknowledged edits survive crashes

Processes make a database, recover it and extend it, one after the other, each with a version set whose
list of versions is linked. A process may end between any two operations, and the machine may crash,
so that of every file no more than the synced bytes is sure to be left. Whatever happens, a version
set that recovers shows the edit of the last call that has returned OK, or of one that began after it
(`Logbook.Run.keepsAcknowledged`), and it can recover as soon as a call has returned OK
(`Logbook.Run.recoversAgain`).
-/

namespace SimpleLeveldb

open Prog (Keeps lift outcome_bind outcome_lift outcome_ret)
open Journal (HasNumbers Readable)
open Log (AllFit)

/-- The directory, the version set of the process that works on it, and the edits of the calls of
`NewDB` and `log_any_apply` that have begun, each with whether its call has returned OK. -/
structure Logbook where
  env : Env
  versions : Option VersionSet
  entries : List (VersionEdit × Bool)

namespace Logbook

def journal (b : Logbook) : Journal := ⟨b.env, b.versions, []⟩

/-- The edits of a call: one, or none. -/
def begins (versions : Option VersionSet) : Journal.Call → List VersionEdit
  | .newDb db _ => [DbImpl.newDbEdit db.userComparator.name]
  | .logAnyApply us _ =>
      (deref versions >>= fun vs => vs.completeEdit (VersionEdit.built us)).toOption.toList
  | _ => []

/-- A call, on the version set of the process: it returns its status, and what becomes of the
version set. -/
def program (versions : Option VersionSet) : Journal.Call → Prog Fault Env (Status × Option VersionSet)
  | .newDb db uninit => do
      let s ← Steps.newDb db uninit
      return (s, versions)
  | .recover saveManifest uninit => do
      let vs ← lift (deref versions)
      let (s, _, vs) ← Steps.recover vs saveManifest uninit
      return (s, some vs)
  | .newFileNumber => do
      let vs ← lift (deref versions)
      return (.ok, some vs.newFileNumber.2)
  | .markFileNumberUsed number => do
      let vs ← lift (deref versions)
      return (.ok, some (vs.markFileNumberUsed number))
  | .setLastSequence s => do
      let vs ← lift (deref versions)
      let vs ← lift (vs.setLastSequence s)
      return (.ok, some vs)
  | .logAnyApply us uninit => do
      let vs ← lift (deref versions)
      let (s, _, vs) ← Steps.logAnyApply vs (VersionEdit.built us) uninit
      return (s, some vs)

/-- A run from a directory without `CURRENT`, whose calls all meet the condition `Cond`. -/
inductive Run (dbname name : Bytes) (Cond : Logbook → Journal.Call → Prop) : Logbook → Prop
  | start {env : Env} : env.current dbname = none → Run dbname name Cond ⟨env, none, []⟩
  /-- the operations and the reads to come have other outcomes -/
  | outcomes {b : Logbook} {env : Env} : Run dbname name Cond b → b.env.SameFiles env →
      Run dbname name Cond ⟨env, b.versions, b.entries⟩
  | restart {b : Logbook} {vs : VersionSet} : Run dbname name Cond b → vs.Fresh dbname name →
      Run dbname name Cond ⟨b.env, some vs, b.entries⟩
  | returns {b : Logbook} {call : Journal.Call} {s : Status} {versions : Option VersionSet} :
      Run dbname name Cond b → call.Allowed dbname name b.journal → Cond b call →
      (program b.versions call b.env).1 = .ok (s, versions) →
      Run dbname name Cond ⟨(program b.versions call).last b.env, versions,
        b.entries ++ (begins b.versions call).map fun e => (e, s.isOk)⟩
  /-- the process ends behind some of the operations of a call, also because of a fault -/
  | stops {b : Logbook} {call : Journal.Call} {states : List Env} : Run dbname name Cond b →
      call.Allowed dbname name b.journal → Cond b call →
      states <+: (program b.versions call b.env).2 →
      Run dbname name Cond ⟨states.getLastD b.env, none,
        b.entries ++ (begins b.versions call).map fun e => (e, false)⟩
  /-- of every file at least the synced bytes are left -/
  | crash {b : Logbook} {env : Env} : Run dbname name Cond b → b.env.Survives env →
      Run dbname name Cond ⟨env, none, b.entries⟩

variable {dbname name : Bytes} {b : Logbook} {call : Journal.Call}

theorem Run.mono {Cond Cond' : Logbook → Journal.Call → Prop} (h : Run dbname name Cond b)
    (hcond : ∀ b call, Cond b call → Cond' b call) : Run dbname name Cond' b := by
  induction h with
  | start habsent => exact .start habsent
  | outcomes _ hsame ih => exact ih.outcomes hsame
  | restart _ hvs ih => exact ih.restart hvs
  | returns _ hallowed hc hret ih => exact ih.returns hallowed (hcond _ _ hc) hret
  | stops _ hallowed hc hstates ih => exact ih.stops hallowed (hcond _ _ hc) hstates
  | crash _ hs ih => exact ih.crash hs

/-! ## One step -/

/-- The writer of the manifest that the process has open. -/
def log (b : Logbook) : Option Log.Writer := b.versions.bind fun vs => vs.descriptorLog

/-- What a run keeps. -/
structure Kept (dbname name : Bytes) (b : Logbook) : Prop where
  bare : ∀ vs, b.versions = some vs → vs.Bare dbname name
  durable : Durable dbname name b.env b.log b.entries

theorem Kept.durable_of (h : Kept dbname name b) {vs : VersionSet} (hvs : b.versions = some vs) :
    Durable dbname name b.env vs.descriptorLog b.entries := by
  have hdurable := h.durable
  rwa [log, hvs] at hdurable

/-- **Every operation of a call** leaves the edit of the call in doubt, and when the call returns, it is
acknowledged if the status is OK. -/
theorem Kept.keeps_program (h : Kept dbname name b) (hallowed : call.Allowed dbname name b.journal)
    (hstorable : call.Storable dbname b.journal) :
    Keeps (fun _ t => Durable dbname name t none
        (b.entries ++ (begins b.versions call).map fun e => (e, false)))
      (program b.versions call) b.env fun r t => Durable dbname name t none
        (b.entries ++ (begins b.versions call).map fun e => (e, r.1.isOk)) := by
  have hclosed := h.durable.closed
  have hnothing : ∀ c : Bool, (([] : List VersionEdit).map fun e => (e, c)) = [] := fun _ => rfl
  cases call with
  | newDb db uninit =>
      obtain ⟨rfl, rfl, habsent⟩ := hallowed
      exact (Steps.keeps_newDb_durable db uninit habsent hstorable hclosed).bind fun _ t ht =>
        Keeps.ret ht
  | recover saveManifest uninit =>
      simp only [begins, hnothing, List.append_nil]
      refine Keeps.lift_bind fun vs _ => ?_
      have hspared : Spared dbname [] b.env := ⟨List.not_mem_nil, fun _ _ => List.not_mem_nil⟩
      exact (Steps.keeps_durable_others hclosed hspared
        (Steps.keeps_recover_others vs saveManifest uninit b.env)).bind fun r t ht => Keeps.ret ht.2.1
  | logAnyApply us uninit =>
      refine Keeps.lift_bind fun vs hvs => ?_
      have hvs := deref_eq_ok.mp hvs
      have hwf := VersionEdit.wellFormed_built hallowed
      cases hcomplete : vs.completeEdit (VersionEdit.built us) with
      | error e =>
          -- an assertion fails before the first operation
          have hfault : Steps.logAnyApply vs (VersionEdit.built us) uninit b.env = (.error e, []) := by
            rw [Steps.logAnyApply, hcomplete]
            rfl
          refine Keeps.bind (Q := fun _ _ => False) ⟨?_, fun _ hret => ?_⟩ fun _ _ hf => hf.elim
          · rw [hfault]
            exact List.isChain_singleton _
          · rw [hfault] at hret
            cases hret
      | ok edit' =>
          have hbegins : begins b.versions (.logAnyApply us uninit) = [edit'] := by
            rw [begins, hvs, deref, ok_bind, hcomplete]
            rfl
          rw [hbegins]
          refine (Steps.keeps_logAnyApply_durable (h.bare vs hvs) (hstorable vs hvs) hwf hcomplete
            (h.durable_of hvs)).bind ?_
          rintro ⟨s, edit₁, vs'⟩ t ⟨rfl, -, hdurable⟩
          exact Keeps.ret hdurable
  | newFileNumber =>
      simp only [begins, hnothing, List.append_nil]
      exact Keeps.lift_bind fun _ _ => Keeps.ret hclosed
  | markFileNumberUsed number =>
      simp only [begins, hnothing, List.append_nil]
      exact Keeps.lift_bind fun _ _ => Keeps.ret hclosed
  | setLastSequence s =>
      simp only [begins, hnothing, List.append_nil]
      exact Keeps.lift_bind fun _ _ => Keeps.lift_bind fun _ _ => Keeps.ret hclosed

/-- A program that returns does what the call does. -/
theorem returns_of_program {j : Journal} {s : Status} {versions : Option VersionSet} {env : Env}
    (h : (program j.versions call).outcome j.env = .ok ((s, versions), env)) :
    ∃ applied, call.returns j = .ok ⟨env, versions, applied⟩ := by
  cases call with
  | newDb db uninit =>
      simp only [program, outcome_bind, Steps.outcome_newDb, outcome_ret] at h
      obtain ⟨⟨s', env'⟩, hrun, h⟩ := bind_eq_ok.mp h
      cases h
      exact ⟨_, by rw [Journal.Call.returns, hrun]; rfl⟩
  | recover saveManifest uninit =>
      simp only [program, outcome_bind, outcome_lift, Steps.outcome_recover, outcome_ret,
        Steps.bind_map] at h
      obtain ⟨vs, hvs, h⟩ := bind_eq_ok.mp h
      obtain ⟨⟨s', save', vs', env'⟩, hrun, h⟩ := bind_eq_ok.mp h
      cases h
      exact ⟨_, by rw [Journal.Call.returns, hvs, ok_bind, hrun]; rfl⟩
  | logAnyApply us uninit =>
      simp only [program, outcome_bind, outcome_lift, Steps.outcome_logAnyApply, outcome_ret,
        Steps.bind_map] at h
      obtain ⟨vs, hvs, h⟩ := bind_eq_ok.mp h
      obtain ⟨⟨s', edit', vs', env'⟩, hrun, h⟩ := bind_eq_ok.mp h
      cases h
      exact ⟨_, by rw [Journal.Call.returns, hvs, ok_bind, hrun]; rfl⟩
  | newFileNumber =>
      simp only [program, outcome_bind, outcome_lift, outcome_ret, Steps.bind_map] at h
      obtain ⟨vs, hvs, h⟩ := bind_eq_ok.mp h
      cases h
      exact ⟨_, by rw [Journal.Call.returns, hvs]; rfl⟩
  | markFileNumberUsed number =>
      simp only [program, outcome_bind, outcome_lift, outcome_ret, Steps.bind_map] at h
      obtain ⟨vs, hvs, h⟩ := bind_eq_ok.mp h
      cases h
      exact ⟨_, by rw [Journal.Call.returns, hvs]; rfl⟩
  | setLastSequence s =>
      simp only [program, outcome_bind, outcome_lift, outcome_ret, Steps.bind_map] at h
      obtain ⟨vs, hvs, h⟩ := bind_eq_ok.mp h
      obtain ⟨vs', hset, h⟩ := bind_eq_ok.mp h
      cases h
      exact ⟨_, by rw [Journal.Call.returns, hvs, ok_bind, hset]; rfl⟩

/-- **A call that returns.** -/
theorem Kept.returns (h : Kept dbname name b) (hallowed : call.Allowed dbname name b.journal)
    (hstorable : call.Storable dbname b.journal) {s : Status} {versions : Option VersionSet}
    (hret : (program b.versions call b.env).1 = .ok (s, versions)) :
    Kept dbname name ⟨(program b.versions call).last b.env, versions,
      b.entries ++ (begins b.versions call).map fun e => (e, s.isOk)⟩ := by
  obtain ⟨applied, hstored, -⟩ := h.durable.stored
  have hkept : Journal.Kept True dbname name ⟨b.env, b.versions, applied⟩ := ⟨h.bare, hstored⟩
  have houtcome : (program b.versions call).outcome b.env
      = .ok ((s, versions), (program b.versions call).last b.env) := by
    rw [Prog.outcome, hret]
    rfl
  -- where the writer stands when the call returns is known from runs without crashes
  obtain ⟨applied', hreturns⟩ :=
    returns_of_program (j := ⟨b.env, b.versions, applied⟩) houtcome
  have hallowed' : call.Allowed dbname name ⟨b.env, b.versions, applied⟩ := by
    cases call <;> exact hallowed
  have hstorable' : call.Storable dbname ⟨b.env, b.versions, applied⟩ := by
    cases call <;> exact hstorable
  obtain ⟨hbare, hstored'⟩ := hkept.returns hallowed' hstorable'.writable hreturns
  exact ⟨hbare, ((h.keeps_program hallowed hstorable).post _ hret).reopen hstored'⟩

/-- **A call that is stopped**, behind any of its operations. -/
theorem Kept.stops (h : Kept dbname name b) (hallowed : call.Allowed dbname name b.journal)
    (hstorable : call.Storable dbname b.journal) {states : List Env}
    (hstates : states <+: (program b.versions call b.env).2) :
    Kept dbname name ⟨states.getLastD b.env, none,
      b.entries ++ (begins b.versions call).map fun e => (e, false)⟩ := by
  have hdoubt : Durable dbname name b.env none
      (b.entries ++ (begins b.versions call).map fun e => (e, false)) := by
    refine h.durable.closed.doubt fun p hp => ?_
    obtain ⟨e, -, rfl⟩ := List.mem_map.mp hp
    rfl
  exact ⟨nofun, (h.keeps_program hallowed hstorable).stopped hdoubt hstates⟩

/-! ## Whole runs -/

/-- **A run** whose calls are within what a manifest can record keeps the manifest durable. -/
theorem Run.kept (h : Run dbname name (fun b call => call.Storable dbname b.journal) b) :
    Kept dbname name b := by
  induction h with
  | start habsent => exact ⟨nofun, .nothing (List.forall_mem_nil _) rfl habsent⟩
  | outcomes _ hsame ih => exact ⟨ih.bare, ih.durable.sameFiles hsame⟩
  | @restart b vs _ hvs ih =>
      refine ⟨fun vs' hvs' => ?_, ?_⟩
      · cases hvs'
        exact hvs.toBare
      · have hlog : log ⟨b.env, some vs, b.entries⟩ = none := hvs.closed
        rw [hlog]
        exact ih.durable.closed
  | returns _ hallowed hstorable hret ih => exact ih.returns hallowed hstorable hret
  | stops _ hallowed hstorable hstates ih => exact ih.stops hallowed hstorable hstates
  | crash _ hs ih => exact ⟨nofun, ih.durable.survives hs⟩

/-- A call whose edit names no other comparator, has files with internal keys, and leaves a file
number. -/
def Acceptable (name : Bytes) (b : Logbook) : Journal.Call → Prop
  | .logAnyApply us _ => VersionSet.LongKeys (VersionEdit.built us)
      ∧ (VersionEdit.built us).Accepted name
      ∧ ∀ vs, b.versions = some vs → vs.nextFileNumber.toNat < 2 ^ 64 - 1
  | _ => True

/-- The edits of such calls can be applied by `recover`. -/
theorem readable_begins (hallowed : call.Allowed dbname name b.journal)
    (hacceptable : Acceptable name b call) : ∀ e ∈ begins b.versions call, Readable name e := by
  cases call with
  | newDb db uninit =>
      obtain ⟨-, rfl, -⟩ := hallowed
      intro e he
      rw [List.mem_singleton.mp he]
      exact Journal.readable_newDbEdit _
  | logAnyApply us uninit =>
      intro e he
      have he : (deref b.versions >>= fun vs => vs.completeEdit (VersionEdit.built us)) = .ok e := by
        rw [begins, Option.mem_toList] at he
        cases hx : deref b.versions >>= fun vs => vs.completeEdit (VersionEdit.built us) with
        | error _ =>
            rw [hx] at he
            cases he
        | ok e' =>
            rw [hx] at he
            cases he
            rfl
      obtain ⟨vs, hvs, hcomplete⟩ := bind_eq_ok.mp he
      have hcompleted := VersionSet.completed_of_ok hcomplete
      obtain ⟨hkeys, haccepted, hnext⟩ := hacceptable
      refine ⟨?_, ?_, ?_⟩
      · rw [VersionSet.LongKeys, hcompleted.newFiles]
        exact hkeys
      · rw [VersionEdit.Accepted, hcompleted.hasComparator, hcompleted.comparator]
        exact haccepted
      · rw [hcompleted.nextFileNumber]
        exact hnext vs (deref_eq_ok.mp hvs)
  | _ => exact List.forall_mem_nil _

theorem Run.readable (h : Run dbname name (fun b call => Acceptable name b call) b) :
    ∀ p ∈ b.entries, Readable name p.1 := by
  have hadd : ∀ (b : Logbook) (call : Journal.Call) (c : Bool), (∀ p ∈ b.entries, Readable name p.1) →
      call.Allowed dbname name b.journal → Acceptable name b call →
      ∀ p ∈ b.entries ++ (begins b.versions call).map fun e => (e, c), Readable name p.1 := by
    intro b call c hall hallowed hacceptable
    refine List.forall_mem_append.mpr ⟨hall, fun p hp => ?_⟩
    obtain ⟨e, he, rfl⟩ := List.mem_map.mp hp
    exact readable_begins hallowed hacceptable e he
  induction h with
  | start _ => exact List.forall_mem_nil _
  | outcomes _ _ ih => exact ih
  | restart _ _ ih => exact ih
  | returns _ hallowed hacceptable _ ih => exact hadd _ _ _ ih hallowed hacceptable
  | stops _ hallowed hacceptable _ ih => exact hadd _ _ _ ih hallowed hacceptable
  | crash _ _ ih => exact ih

/-- A durable manifest with edits that `recover` can apply is accepted when nothing fails. -/
theorem Kept.accepts (h : Kept dbname name b) (hreadable : ∀ p ∈ b.entries, Readable name p.1)
    (hacknowledged : ∃ p ∈ b.entries, p.2 = true) (hhealthy : b.env.Healthy) {vs : VersionSet}
    (hvs : vs.Fresh dbname name) (saveManifest : Bool) (uninit : U32) :
    ∃ saveManifest' vs' env', vs.recover saveManifest uninit b.env
      = .ok (.ok, saveManifest', vs', env') := by
  obtain ⟨applied, hstored, -, hmem, hnil⟩ := h.durable.closed.stored
  cases hstored with
  | nothing happlied _ _ =>
      -- an acknowledged call has left a manifest
      obtain ⟨p, hp, hacknowledged⟩ := hacknowledged
      cases hacknowledged.symm.trans (hnil happlied p hp)
  | manifest number records tail read hdisk hdecode hreflects _ _ =>
      obtain ⟨l, hl⟩ := hvs.list
      obtain ⟨hkeys, hcomplete⟩ := Journal.complete_of_reflects hreflects fun e he => by
        obtain ⟨p, hp, rfl⟩ := hmem e he
        exact hreadable p hp
      rw [← hvs.comparator] at hcomplete
      have hfile : vs.descriptorFile = none := by rw [hvs.file, hvs.closed]; rfl
      exact hdisk.accepts hhealthy hvs.dbname_eq hl.listed hl.ne_nil hfile hvs.closed hdecode hkeys
        hcomplete saveManifest uninit

/-! ## Acknowledged edits -/

/-- **No acknowledged edit is lost**: in every run with crashes and with processes that end anywhere, a
version set that recovers has the numbers of the edit of the last call that returned OK, or of one
that began after it. -/
theorem Run.keepsAcknowledged (h : Run dbname name (fun b call => call.Storable dbname b.journal) b)
    {vs vs' : VersionSet} (hvs : vs.Fresh dbname name) {saveManifest saveManifest' : Bool}
    {uninit : U32} {env' : Env}
    (hrec : vs.recover saveManifest uninit b.env = .ok (.ok, saveManifest', vs', env')) :
    ∃ last, MayBeLast b.entries last ∧ HasNumbers vs' last :=
  h.kept.durable.recovered hvs hrec

/-- **`recover` always succeeds** once a call has returned OK, wherever a process has ended and whatever
a crash has left. -/
theorem Run.recoversAgain
    (h : Run dbname name (fun b call => call.Storable dbname b.journal ∧ Acceptable name b call) b)
    (hacknowledged : ∃ p ∈ b.entries, p.2 = true) (hhealthy : b.env.Healthy) {vs : VersionSet}
    (hvs : vs.Fresh dbname name) (saveManifest : Bool) (uninit : U32) :
    ∃ saveManifest' vs' env' last, vs.recover saveManifest uninit b.env
        = .ok (.ok, saveManifest', vs', env') ∧ MayBeLast b.entries last ∧ HasNumbers vs' last := by
  have hkept := (h.mono fun _ _ hcond => hcond.1).kept
  have hreadable := (h.mono fun _ _ hcond => hcond.2).readable
  obtain ⟨saveManifest', vs', env', hrec⟩ :=
    hkept.accepts hreadable hacknowledged hhealthy hvs saveManifest uninit
  obtain ⟨last, hlast, hnumbers⟩ := hkept.durable.recovered hvs hrec
  exact ⟨saveManifest', vs', env', last, hrec, hlast, hnumbers⟩

/-! ## A concrete run -/

/-- The logbook behind a call, if it returns. -/
def after (b : Logbook) (call : Journal.Call) : Logbook :=
  match (program b.versions call b.env).1 with
  | .ok (s, versions) => ⟨(program b.versions call).last b.env, versions,
      b.entries ++ (begins b.versions call).map fun e => (e, s.isOk)⟩
  | .error _ => b

theorem Run.after {Cond : Logbook → Journal.Call → Prop} (h : Run dbname name Cond b) (call : Journal.Call)
    (hallowed : call.Allowed dbname name b.journal) (hcond : Cond b call)
    (hok : (program b.versions call b.env).1.isOk = true) : Run dbname name Cond (b.after call) := by
  cases hret : (program b.versions call b.env).1 with
  | error e =>
      rw [hret] at hok
      cases hok
  | ok r =>
      have hafter : b.after call = ⟨(program b.versions call).last b.env, r.2,
          b.entries ++ (begins b.versions call).map fun e => (e, r.1.isOk)⟩ := by
        rw [Logbook.after, hret]
      rw [hafter]
      exact h.returns hallowed hcond hret

def restarted (b : Logbook) : Logbook := ⟨b.env, some Journal.freshVersionSet, b.entries⟩

def versionSet (b : Logbook) : VersionSet := b.versions.getD Journal.freshVersionSet

def emptyLogbook : Logbook := ⟨{ files := ∅ }, none, []⟩

def createdLogbook : Logbook := emptyLogbook.after (.newDb Journal.freshDb 0)

def openedLogbook : Logbook := createdLogbook.restarted.after (.recover false 0)

/-- A manifest has been made, for an edit that changes nothing, and a number has been taken. -/
def numberedLogbook : Logbook := (openedLogbook.after (.logAnyApply [] 0)).after .newFileNumber

/-- The process ends in the call that gives a log its number, behind the appends and before the sync. -/
def stoppedEnv : Env :=
  ((program numberedLogbook.versions (.logAnyApply [.setLogNumber 3] 0)
    numberedLogbook.env).2.take 2).getLastD numberedLogbook.env

/-- The machine crashes, and what has not been synced of the manifest is lost. -/
def crashedLogbook : Logbook where
  env := stoppedEnv.modify (text "db/MANIFEST-000002") File.crash
  versions := none
  entries := numberedLogbook.entries
    ++ (begins numberedLogbook.versions (.logAnyApply [.setLogNumber 3] 0)).map fun e => (e, false)

/-- What can be evaluated of the calls that return. -/
theorem numberedLogbook_evaluated :
    ((program none (.newDb Journal.freshDb 0) emptyLogbook.env).1.isOk = true
        ∧ (program createdLogbook.restarted.versions (.recover false 0)
          createdLogbook.env).1.isOk = true
        ∧ (program openedLogbook.versions (.logAnyApply [] 0) openedLogbook.env).1.isOk = true
        ∧ (program (openedLogbook.after (.logAnyApply [] 0)).versions .newFileNumber
          (openedLogbook.after (.logAnyApply [] 0)).env).1.isOk = true)
      ∧ (∀ p ∈ (openedLogbook.versionSet.callRecords (VersionEdit.built [])).toOption,
          AllFit p.1 p.2)
      ∧ (∀ p ∈ (numberedLogbook.versionSet.callRecords
          (VersionEdit.built [.setLogNumber 3])).toOption, AllFit p.1 p.2)
      ∧ openedLogbook.versionSet.CreatesAnother openedLogbook.env
      ∧ numberedLogbook.versionSet.CreatesAnother numberedLogbook.env
      ∧ (∀ s ∈ openedLogbook.env.script, s = .ok) ∧ (∀ s ∈ numberedLogbook.env.script, s = .ok)
      ∧ openedLogbook.versionSet.nextFileNumber.toNat < 2 ^ 64 - 1
      ∧ numberedLogbook.versionSet.nextFileNumber.toNat < 2 ^ 64 - 1 := by
  decide +kernel

/-- And of the crash: the last record of the manifest is lost, and what is recovered has the log
number 0. -/
theorem crashedLogbook_evaluated :
    (stoppedEnv.files.lookup (text "db/MANIFEST-000002")).map (fun f => f.data.length - f.kept.length)
        = some 15
      ∧ (∀ s ∈ crashedLogbook.env.script, s = .ok)
      ∧ (∀ e ∈ crashedLogbook.env.files.entries, e.2.readScript = [])
      ∧ crashedLogbook.entries.map (fun p => (p.1.logNumber, p.2))
        = [(0, true), (0, true), (3, false)]
      ∧ Journal.freshVersionSet.succeedsWith crashedLogbook.env = some (4, 0) := by
  decide +kernel

/-- The conditions on a call of `log_any_apply`, from what can be evaluated. -/
theorem conditions_logAnyApply {us : List VersionEdit.Update}
    (hpointers : (VersionEdit.built us).compactPointers = [])
    (hfiles : (VersionEdit.built us).newFiles = [])
    (hcomparator : (VersionEdit.built us).hasComparator = false)
    (hfits : ∀ p ∈ (b.versionSet.callRecords (VersionEdit.built us)).toOption, AllFit p.1 p.2)
    (hanother : b.versionSet.CreatesAnother b.env) (hok : b.env.AllOk)
    (hnext : b.versionSet.nextFileNumber.toNat < 2 ^ 64 - 1) (uninit : U32) :
    (Journal.Call.logAnyApply us uninit).Storable dbname b.journal
      ∧ Acceptable name b (.logAnyApply us uninit) := by
  have hversions : ∀ vs, b.versions = some vs → vs = b.versionSet := by
    intro vs hvs
    rw [versionSet, hvs, Option.getD_some]
  refine ⟨fun vs hvs => ?_, ?_, ?_, fun vs hvs => ?_⟩
  · obtain rfl := hversions vs hvs
    refine ⟨hpointers, fun o records hrecords => ?_, hanother, fun ops _ => hok.ignoresNone ops⟩
    exact hfits (o, records) (by rw [hrecords]; rfl)
  · rw [VersionSet.LongKeys, hfiles]
    exact List.forall_mem_nil _
  · rw [VersionEdit.Accepted, hcomparator]
    intro h
    cases h
  · obtain rfl := hversions vs hvs
    exact hnext

theorem numberedLogbook_run :
    Run (text "db") (text "order") (fun b call => call.Storable (text "db") b.journal
      ∧ Acceptable (text "order") b call) numberedLogbook := by
  obtain ⟨⟨hcreates, hrecovers, happlies, htakes⟩, hfits, -, hanother, -, hok, -, hnext, -⟩ :=
    numberedLogbook_evaluated
  have hempty : Run (text "db") (text "order") (fun b call => call.Storable (text "db") b.journal
      ∧ Acceptable (text "order") b call) emptyLogbook := .start rfl
  have hcreated := hempty.after (.newDb Journal.freshDb 0) ⟨rfl, rfl, rfl⟩
    ⟨Journal.createdJournal_clean.1, trivial⟩ hcreates
  have hrestarted := hcreated.restart Journal.freshVersionSet_fresh
  have hrecovered := hrestarted.after (.recover false 0) trivial
    ⟨Journal.openedJournal_clean.1, trivial⟩ hrecovers
  have happlied := hrecovered.after (.logAnyApply [] 0) (List.forall_mem_nil _)
    (conditions_logAnyApply rfl rfl rfl hfits hanother hok hnext 0) happlies
  exact happlied.after .newFileNumber trivial ⟨trivial, trivial⟩ htakes

theorem crashedLogbook_run :
    Run (text "db") (text "order") (fun b call => call.Storable (text "db") b.journal
      ∧ Acceptable (text "order") b call) crashedLogbook := by
  obtain ⟨-, -, hfits, -, hanother, -, hok, -, hnext⟩ := numberedLogbook_evaluated
  have hallowed : (Journal.Call.logAnyApply [.setLogNumber 3] 0).Allowed (text "db") (text "order")
      numberedLogbook.journal := by simp [Journal.Call.Allowed, VersionEdit.Update.Ok]
  have hstopped := numberedLogbook_run.stops hallowed
    (conditions_logAnyApply rfl rfl rfl hfits hanother hok hnext 0) (List.take_prefix 2 _)
  have hcrashed := hstopped.crash (Env.survives_modify _ (text "db/MANIFEST-000002"))
  dsimp only at hcrashed
  rw [crashedLogbook, stoppedEnv]
  exact hcrashed

/-- After the crash the edit of the call before is shown: the log number is 0. -/
theorem Run.keepsAcknowledged_crashed : ∃ vs', VersionSet.logNumber vs' = 0
    ∧ ∃ last, MayBeLast crashedLogbook.entries last ∧ HasNumbers vs' last := by
  obtain ⟨saveManifest', vs', env', hrec, -, hlog⟩ :=
    VersionSet.exists_recover_ok crashedLogbook_evaluated.2.2.2.2
  have hrun := crashedLogbook_run.mono fun _ _ hcond => hcond.1
  exact ⟨vs', hlog, Run.keepsAcknowledged hrun Journal.freshVersionSet_fresh hrec⟩

theorem Run.recoversAgain_crashed :
    ∃ saveManifest' vs' env' last, Journal.freshVersionSet.recover false 0 crashedLogbook.env
        = .ok (.ok, saveManifest', vs', env')
      ∧ MayBeLast crashedLogbook.entries last ∧ HasNumbers vs' last := by
  obtain ⟨-, hok, hreads, -, -⟩ := crashedLogbook_evaluated
  have hacknowledged : ∃ p ∈ crashedLogbook.entries, p.2 = true := by decide +kernel
  exact Run.recoversAgain crashedLogbook_run hacknowledged ⟨hok, hreads⟩ Journal.freshVersionSet_fresh
    false 0

end Logbook

end SimpleLeveldb
