import SimpleLeveldb.Current
import SimpleLeveldb.Version.Atomic

set_option autoImplicit false

/-! # Runs over a directory

`NewDB`, `recover` and `log_any_apply` are called on a directory in any order, by one process after
the other. A process may end between any two operations, and of every file a crash may leave only
the synced bytes. A run is recorded as the environments that it has gone through.
-/

namespace SimpleLeveldb

open Prog (Keeps lift)

/-- The directory, and the version set of the process that works on it. -/
structure Session where
  env : Env
  versions : Option VersionSet

inductive Call where
  | newDb (db : DbImpl) (uninit : U32)
  | recover (saveManifest : Bool) (uninit : U32)
  | logAnyApply (edit : VersionEdit) (uninit : U32)

namespace Call

/-- A call, on the version set of the process: it returns what becomes of the version set. -/
def program (versions : Option VersionSet) : Call → Prog Fault Env (Option VersionSet)
  | newDb db uninit => do
      let _ ← Steps.newDb db uninit
      return versions
  | recover saveManifest uninit => do
      let vs ← lift (deref versions)
      let (_, _, vs) ← Steps.recover vs saveManifest uninit
      return some vs
  | logAnyApply edit uninit => do
      let vs ← lift (deref versions)
      let (_, _, vs) ← Steps.logAnyApply vs edit uninit
      return some vs

/-- `NewDB` is called only while `CURRENT` is absent. -/
def Allowed (dbname : Bytes) (s : Session) : Call → Prop
  | newDb db _ => db.dbname = dbname ∧ s.env.current dbname = none
  | _ => True

/-- When `log_any_apply` creates a manifest, it is not the one that `CURRENT` names. -/
def CreatesAnother (s : Session) : Call → Prop
  | logAnyApply _ _ => ∀ vs, s.versions = some vs → vs.CreatesAnother s.env
  | _ => True

end Call

/-- A version set that has no manifest open, as a process starts with. -/
structure VersionSet.Starts (dbname : Bytes) (vs : VersionSet) : Prop where
  dbname_eq : vs.dbname = dbname
  file : vs.descriptorFile = none
  log : vs.descriptorLog = none

/-- A run from an empty directory, whose calls all meet the condition `Cond`, with the
environments that it has gone through. -/
inductive Run (dbname : Bytes) (Cond : Session → Call → Prop) : List Env → Session → Prop
  | start {env : Env} : env.files = ∅ → Run dbname Cond [env] ⟨env, none⟩
  /-- the operations and the reads to come have other outcomes -/
  | outcomes {history : List Env} {s : Session} {env : Env} : Run dbname Cond history s →
      s.env.SameFiles env → Run dbname Cond (history ++ [env]) ⟨env, s.versions⟩
  | restart {history : List Env} {s : Session} {vs : VersionSet} : Run dbname Cond history s →
      vs.Starts dbname → Run dbname Cond history ⟨s.env, some vs⟩
  | returns {history : List Env} {s : Session} {call : Call} {versions : Option VersionSet} :
      Run dbname Cond history s → call.Allowed dbname s → Cond s call →
      (call.program s.versions s.env).1 = .ok versions →
      Run dbname Cond (history ++ (call.program s.versions s.env).2)
        ⟨(call.program s.versions).last s.env, versions⟩
  /-- the process ends behind some of the operations of a call, also because of a fault -/
  | stops {history : List Env} {s : Session} {call : Call} {states : List Env} :
      Run dbname Cond history s → call.Allowed dbname s → Cond s call →
      states <+: (call.program s.versions s.env).2 →
      Run dbname Cond (history ++ states) ⟨states.getLastD s.env, none⟩
  | crash {history : List Env} {s : Session} {env : Env} : Run dbname Cond history s →
      s.env.Crash env → Run dbname Cond (history ++ [env]) ⟨env, none⟩

/-! ## One step -/

variable {dbname : Bytes} {env env' : Env}

theorem VersionSet.Starts.serves {vs : VersionSet} (h : vs.Starts dbname) : vs.Serves dbname where
  dbname_eq := h.dbname_eq
  log := fun log hlog => by
    rw [h.log] at hlog
    cases hlog
  file := fun file hfile => by
    rw [h.file] at hfile
    cases hfile

/-- Every operation of a call keeps `CURRENT` intact. -/
theorem Call.keeps_program {s : Session} {call : Call} (hallowed : call.Allowed dbname s)
    (hanother : call.CreatesAnother s) (hnamed : Named dbname s.env)
    (hserves : ∀ vs, s.versions = some vs → vs.Serves dbname) :
    Keeps (Sound dbname) (call.program s.versions) s.env fun versions t =>
      Named dbname t ∧ ∀ vs, versions = some vs → vs.Serves dbname := by
  cases call with
  | newDb db uninit =>
      obtain ⟨rfl, habsent⟩ := hallowed
      exact (Steps.keeps_newDb db uninit hnamed habsent).bind fun _ t ht =>
        Keeps.ret ⟨ht, hserves⟩
  | recover saveManifest uninit =>
      refine Keeps.lift_bind fun vs hvs => ?_
      refine (Steps.keeps_recover (hserves vs (deref_eq_ok.mp hvs)) saveManifest uninit
        hnamed).bind fun r t ht => Keeps.ret ⟨ht.1, fun vs' hvs' => ?_⟩
      cases hvs'
      exact ht.2
  | logAnyApply edit uninit =>
      refine Keeps.lift_bind fun vs hvs => ?_
      have hvs := deref_eq_ok.mp hvs
      refine (Steps.keeps_logAnyApply (hserves vs hvs) (hanother vs hvs) edit uninit
        hnamed).bind fun r t ht => Keeps.ret ⟨ht.1, fun vs' hvs' => ?_⟩
      cases hvs'
      exact ht.2

/-- The same files, of each of which the synced bytes are the same, and all bytes or the synced
ones are there. -/
def Env.SameSynced (env env' : Env) : Prop :=
  ∀ g, Option.Rel (fun f f' => f'.kept = f.kept ∧ (f'.data = f.data ∨ f'.data = f.kept))
    (env.files.lookup g) (env'.files.lookup g)

theorem Env.Crash.sameSynced (h : env.Crash env') : env.SameSynced env' := by
  intro g
  rw [h g]
  cases env.files.lookup g with
  | none => exact .none
  | some f => exact .some ⟨f.kept_crash, .inr rfl⟩

theorem Env.SameFiles.sameSynced (h : env.SameFiles env') : env.SameSynced env' := by
  intro g
  have hg := h g
  cases hf : env.files.lookup g with
  | none =>
      rw [hf, Option.map_none, Option.map_eq_none_iff] at hg
      rw [hg]
      exact .none
  | some f =>
      rw [hf, Option.map_some] at hg
      obtain ⟨f', hf', he⟩ := Option.map_eq_some_iff.mp hg
      obtain ⟨hdata, hsynced⟩ := Prod.mk.inj he
      rw [hf']
      exact .some ⟨by rw [File.kept, File.kept, hdata, hsynced], .inl hdata⟩

/-- **The synced bytes are enough**: they hold `CURRENT` and what it names. -/
theorem Named.sameSynced (h : Named dbname env) (hsame : env.SameSynced env') :
    Sound dbname env env' := by
  have hmanifest : ∀ g m, env.files.lookup g = some m →
      ∃ m', env'.files.lookup g = some m' ∧ m'.kept = m.kept := by
    intro g m hm
    have hg := hsame g
    rw [hm] at hg
    cases hm' : env'.files.lookup g with
    | none =>
        rw [hm'] at hg
        cases hg
    | some m' =>
        rw [hm'] at hg
        cases hg with
        | some hrel => exact ⟨m', rfl, hrel.1⟩
  have hcur := hsame (currentFileName dbname)
  cases hf : env.files.lookup (currentFileName dbname) with
  | none =>
      rw [hf] at hcur
      cases hf' : env'.files.lookup (currentFileName dbname) with
      | some f' =>
          rw [hf'] at hcur
          cases hcur
      | none =>
          refine ⟨.inl ⟨?_, fun c hc => ?_⟩, fun f hfc => ?_⟩
          · rw [Env.current, Env.current, hf, hf']
          · rw [Env.current, hf] at hc
            cases hc
          · rw [hf'] at hfc
            cases hfc
  | some f =>
      obtain ⟨hkept, number, m, hdata, hm⟩ := h f hf
      obtain ⟨f', hf', hkept', hdata'⟩ : ∃ f', env'.files.lookup (currentFileName dbname) = some f'
          ∧ f'.kept = f.kept ∧ f'.data = f.data := by
        rw [hf] at hcur
        cases hf' : env'.files.lookup (currentFileName dbname) with
        | none =>
            rw [hf'] at hcur
            cases hcur
        | some f' =>
            rw [hf'] at hcur
            cases hcur with
            | some hrel =>
                exact ⟨f', rfl, hrel.1, hrel.2.elim id fun he => he.trans hkept⟩
      refine ⟨.inl ⟨?_, fun c hc => ?_⟩, fun f₁ hf₁ => ?_⟩
      · rw [Env.current, Env.current, hf, hf', Option.map_some, Option.map_some, hdata']
      · obtain ⟨_, m, -, hm⟩ := h.exists_manifest hc
        obtain ⟨m', hm', hkeptm⟩ := hmanifest _ m hm
        exact ⟨m, m', hm, hm', by rw [hkeptm]⟩
      · obtain rfl := Option.some.inj (hf'.symm.trans hf₁)
        obtain ⟨m', hm', -⟩ := hmanifest _ m hm
        exact ⟨by rw [hkept', hkept, hdata'], number, m', hdata'.trans hdata, hm'⟩

/-! ## Whole runs -/

/-- A manifest that `CURRENT` names holds, synced, the whole records that were written to it before
the switch. -/
def Complete (dbname : Bytes) (env : Env) : Prop :=
  ∀ c, env.current dbname = some c → ∃ number f records data,
    c = descriptorBaseName number ++ text "\n" ∧ env.files.lookup (manifestPath dbname c) = some f
      ∧ Written records ∧ Whole records data ∧ data <+: f.kept

theorem Intact.complete (h : Intact dbname env env') (hcomplete : Complete dbname env) :
    Complete dbname env' := by
  intro c hc
  obtain ⟨hsame, hfile⟩ | ⟨c', number, f, records, -, hc', hname, hf, hkept, hwritten, hwhole⟩ := h
  · rw [hsame] at hc
    obtain ⟨number, f, records, data, hname, hf, hwritten, hwhole, hdata⟩ := hcomplete c hc
    obtain ⟨f₁, f', hf₁, hf', hkept⟩ := hfile c hc
    obtain rfl := Option.some.inj (hf.symm.trans hf₁)
    exact ⟨number, f', records, data, hname, hf', hwritten, hwhole, hdata.trans hkept⟩
  · obtain rfl := Option.some.inj (hc.symm.trans hc')
    exact ⟨number, f, records, f.data, hname, hf, hwritten, hwhole, by rw [hkept]⟩

/-- Over the whole history `CURRENT` stays intact, and names a complete manifest. -/
structure CurrentSafe (dbname : Bytes) (history : List Env) : Prop where
  chain : List.IsChain (Intact dbname) history
  complete : ∀ env ∈ history, Complete dbname env

/-- A run ends in the last environment of its history. -/
theorem Run.exists_last {Cond : Session → Call → Prop} {history : List Env} {s : Session}
    (h : Run dbname Cond history s) : ∃ before, history = before ++ [s.env] := by
  have hextend : ∀ (history states : List Env) (env : Env), (∃ before, history = before ++ [env]) →
      ∃ before, history ++ states = before ++ [states.getLastD env] := by
    rintro history states env ⟨before, rfl⟩
    cases states using List.reverseRecOn with
    | nil => exact ⟨before, by rw [List.append_nil, List.getLastD_nil]⟩
    | append_singleton l env' =>
        exact ⟨before ++ [env] ++ l, by rw [List.getLastD_concat, ← List.append_assoc]⟩
  induction h with
  | @start env _ => exact ⟨[], rfl⟩
  | @outcomes history _ env _ _ _ => exact ⟨history, rfl⟩
  | restart _ _ ih => exact ih
  | returns _ _ _ _ ih => exact hextend _ _ _ ih
  | stops _ _ _ _ ih => exact hextend _ _ _ ih
  | @crash history _ env _ _ _ => exact ⟨history, rfl⟩

/-- What a run keeps. -/
structure Kept (dbname : Bytes) (history : List Env) (s : Session) : Prop where
  safe : CurrentSafe dbname history
  named : Named dbname s.env
  serves : ∀ vs, s.versions = some vs → vs.Serves dbname

/-- Further states of the directory, which all come about soundly. -/
theorem Kept.extend {history : List Env} {s : Session} (h : Kept dbname history s)
    (hlast : ∃ before, history = before ++ [s.env]) {states : List Env}
    (hstates : List.IsChain (Sound dbname) (s.env :: states)) {versions : Option VersionSet}
    (hserves : ∀ vs, versions = some vs → vs.Serves dbname) :
    Kept dbname (history ++ states) ⟨states.getLastD s.env, versions⟩ := by
  obtain ⟨before, hbefore⟩ := hlast
  -- the states follow one another, the first of them the last one so far
  have hstates' : ∀ (l : List Env) (env : Env), Named dbname env → Complete dbname env →
      List.IsChain (Sound dbname) (env :: l) →
        Named dbname (l.getLastD env) ∧ ∀ env' ∈ l, Complete dbname env' := by
    intro l
    induction l with
    | nil => exact fun _ hnamed _ _ => ⟨hnamed, nofun⟩
    | cons env' l ih =>
        intro env _ hcomplete hl
        obtain ⟨hs, hl⟩ := List.isChain_cons_cons.mp hl
        have hcomplete' := hs.1.complete hcomplete
        obtain ⟨hnamed, hall⟩ := ih env' hs.2 hcomplete' hl
        rw [List.getLastD_cons]
        exact ⟨hnamed, List.forall_mem_cons.mpr ⟨hcomplete', hall⟩⟩
  have hcomplete : Complete dbname s.env := h.safe.complete _ (by rw [hbefore]; simp)
  obtain ⟨hnamed, hall⟩ := hstates' states s.env h.named hcomplete hstates
  refine ⟨⟨?_, fun env hmem => ?_⟩, hnamed, hserves⟩
  · have hchain := h.safe.chain
    rw [hbefore] at hchain ⊢
    rw [List.append_assoc, List.singleton_append]
    exact List.isChain_split.mpr ⟨hchain, hstates.imp fun _ _ hs => hs.1⟩
  · rcases List.mem_append.mp hmem with hmem | hmem
    · exact h.safe.complete env hmem
    · exact hall env hmem

/-- Every run keeps `CURRENT` safe, as long as no call of `log_any_apply` creates the manifest that
`CURRENT` names. -/
theorem Run.kept {history : List Env} {s : Session}
    (h : Run dbname (fun s call => call.CreatesAnother s) history s) : Kept dbname history s := by
  have hnone : ∀ vs : VersionSet, none = some vs → vs.Serves dbname := by
    intro vs he
    cases he
  induction h with
  | @start env hempty =>
      have habsent : env.files.lookup (currentFileName dbname) = none := by rw [hempty]; rfl
      refine ⟨⟨List.isChain_singleton env, fun env' hmem c hc => ?_⟩, fun f hf => ?_, hnone⟩
      · obtain rfl := List.mem_singleton.mp hmem
        rw [Env.current, habsent] at hc
        cases hc
      · rw [habsent] at hf
        cases hf
  | outcomes hrun hsame ih =>
      exact ih.extend hrun.exists_last
        (List.isChain_pair.mpr (ih.named.sameSynced hsame.sameSynced)) ih.serves
  | restart _ hvs ih =>
      refine ⟨ih.safe, ih.named, fun vs he => ?_⟩
      cases he
      exact hvs.serves
  | returns hrun hallowed hanother hret ih =>
      have hkeeps := Call.keeps_program hallowed hanother ih.named ih.serves
      exact ih.extend hrun.exists_last hkeeps.chain (hkeeps.post _ hret).2
  | stops hrun hallowed hanother hprefix ih =>
      have hkeeps := Call.keeps_program hallowed hanother ih.named ih.serves
      exact ih.extend hrun.exists_last
        ( List.IsChain.prefix hkeeps.chain ((List.prefix_cons_inj _).mpr hprefix)) hnone
  | crash hrun hcrash ih =>
      exact ih.extend hrun.exists_last
        (List.isChain_pair.mpr (ih.named.sameSynced hcrash.sameSynced)) hnone

/-! ## Concrete runs -/

/-- The session behind a call. -/
def Session.after (s : Session) (call : Call) : Session where
  env := (call.program s.versions).last s.env
  versions := match (call.program s.versions s.env).1 with
    | .ok versions => versions
    | .error _ => none

theorem Run.after {Cond : Session → Call → Prop} {history : List Env} {s : Session}
    (h : Run dbname Cond history s) (call : Call) (hallowed : call.Allowed dbname s) (hcond : Cond s call)
    (hok : (call.program s.versions s.env).1.isOk = true) :
    ∃ history, Run dbname Cond history (s.after call) := by
  cases hret : (call.program s.versions s.env).1 with
  | error e =>
      rw [hret] at hok
      cases hok
  | ok versions =>
      have hafter : s.after call = ⟨(call.program s.versions).last s.env, versions⟩ := by
        rw [Session.after, hret]
      rw [hafter]
      exact ⟨_, h.returns hallowed hcond hret⟩

/-- The version set of a process that has just started. -/
def startedVersionSet : VersionSet :=
  { VersionSet.oneVersionSet with manifestFileNumber := 0, nextFileNumber := 2 }

theorem startedVersionSet_starts : startedVersionSet.Starts (text "db") := ⟨rfl, rfl, rfl⟩

def Session.restarted (s : Session) : Session := { s with versions := some startedVersionSet }

def startedDb : DbImpl where
  dbname := text "db"
  options := {}
  userComparator := startedVersionSet.icmp.userComparator
  dbLock := none
  versions := startedVersionSet
  pendingOutputs := []
  bgError := .ok

def emptySession : Session := ⟨{ files := ∅ }, none⟩

def createdSession : Session := emptySession.after (.newDb startedDb 0)

theorem createdSession_run (Cond : Session → Call → Prop)
    (hcond : Cond emptySession (.newDb startedDb 0)) :
    ∃ history, Run (text "db") Cond history createdSession :=
  (Run.start rfl).after _ ⟨rfl, rfl⟩ hcond (by decide +kernel)

/-- **`CURRENT` always names a complete manifest**, in every run whose calls of `log_any_apply`
create no manifest that `CURRENT` names. -/
theorem Run.currentSafe {history : List Env} {s : Session}
    (h : Run dbname (fun s call => call.CreatesAnother s) history s) : CurrentSafe dbname history :=
  h.kept.safe

/-- The statement at a run that creates a database. -/
theorem Run.currentSafe_created :
    ∃ history, Run (text "db") (fun s call => call.CreatesAnother s) history createdSession
      ∧ CurrentSafe (text "db") history := by
  obtain ⟨history, hrun⟩ := createdSession_run (fun s call => call.CreatesAnother s) trivial
  exact ⟨history, hrun, Run.currentSafe hrun⟩

def openedSession : Session := createdSession.restarted.after (.recover false 0)

/-- A compact pointer is decoded without its key, whose bytes are then taken for further fields:
here for the next file number 2, the log number 1 and so on. -/
def pointer : InternalKey := [3, 2, 2, 1, 4, 0, 4, 0, 4, 0x80, 0]

def pointedSession : Session :=
  openedSession.after (.logAnyApply (({} : VersionEdit).setCompactPointer 0 pointer) 0)

def reopenedSession : Session := pointedSession.restarted.after (.recover false 0)

/-- The directory behind the first operation of the call that creates the manifest again. -/
def truncatedEnv : Env :=
  ((Call.logAnyApply {} 0).program reopenedSession.versions reopenedSession.env).2.headD
    reopenedSession.env

/-- What can be evaluated of the run: its calls return, and the last one empties a file of 57 synced
bytes. -/
theorem reopenedSession_evaluated :
    ((Call.recover false 0).program createdSession.restarted.versions
        createdSession.restarted.env).1.isOk = true
      ∧ ((Call.logAnyApply (({} : VersionEdit).setCompactPointer 0 pointer) 0).program
        openedSession.versions openedSession.env).1.isOk = true
      ∧ ((Call.recover false 0).program pointedSession.restarted.versions
        pointedSession.restarted.env).1.isOk = true
      ∧ ((Call.logAnyApply {} 0).program reopenedSession.versions
        reopenedSession.env).2.isEmpty = false
      ∧ reopenedSession.env.current (text "db") = some (text "MANIFEST-000002\n")
      ∧ truncatedEnv.current (text "db") = some (text "MANIFEST-000002\n")
      ∧ (reopenedSession.env.files.lookup (manifestPath (text "db")
        (text "MANIFEST-000002\n"))).map (fun f => f.kept.length) = some 57
      ∧ (truncatedEnv.files.lookup (manifestPath (text "db")
        (text "MANIFEST-000002\n"))).map (fun f => f.kept.length) = some 0 := by
  decide +kernel

/-- The synced bytes of `MANIFEST-000002` are gone. -/
theorem not_intact_truncatedEnv : ¬ Intact (text "db") reopenedSession.env truncatedEnv := by
  obtain ⟨-, -, -, -, hbefore, hafter, hlen, hlen'⟩ := reopenedSession_evaluated
  rintro (⟨-, hfile⟩ | ⟨c, _, _, _, hne, hc, -⟩)
  · obtain ⟨f, f', hf, hf', hkept⟩ := hfile _ hbefore
    rw [hf, Option.map_some, Option.some_inj] at hlen
    rw [hf', Option.map_some, Option.some_inj] at hlen'
    have := hkept.length_le
    omega
  · rw [← hc, hafter] at hne
    exact hne hbefore

/-- **`CURRENT` does not always name a complete manifest**: after an edit with a compact pointer,
the manifest that was created for it is created again, over itself. -/
theorem Run.not_forall_currentSafe :
    ¬ ∀ dbname history s, Run dbname (fun _ _ => True) history s → CurrentSafe dbname history := by
  intro hall
  obtain ⟨hopens, happlies, hreopens, hne, -⟩ := reopenedSession_evaluated
  obtain ⟨history₁, hrun₁⟩ := createdSession_run (fun _ _ => True) trivial
  obtain ⟨history₂, hrun₂⟩ := (hrun₁.restart startedVersionSet_starts).after
    (.recover false 0) trivial trivial hopens
  obtain ⟨history₃, hrun₃⟩ := Run.after (s := openedSession) hrun₂
    (.logAnyApply (({} : VersionEdit).setCompactPointer 0 pointer) 0) trivial trivial happlies
  obtain ⟨history₄, hrun₄⟩ := (hrun₃.restart startedVersionSet_starts).after
    (.recover false 0) trivial trivial hreopens
  -- the process ends behind the first operation of the next call
  have hallowed : (Call.logAnyApply {} 0).Allowed (text "db") reopenedSession := trivial
  have hfirst : [truncatedEnv] <+:
      ((Call.logAnyApply {} 0).program reopenedSession.versions reopenedSession.env).2 := by
    rw [truncatedEnv]
    cases hl : ((Call.logAnyApply {} 0).program reopenedSession.versions reopenedSession.env).2 with
    | nil =>
        rw [hl] at hne
        cases hne
    | cons env l => exact ⟨l, rfl⟩
  have hstop := hrun₄.stops hallowed trivial hfirst
  obtain ⟨before, hbefore⟩ := Run.exists_last (s := reopenedSession) hrun₄
  have hchain := (hall _ _ _ hstop).chain
  rw [hbefore, List.append_assoc, List.singleton_append] at hchain
  exact not_intact_truncatedEnv (List.isChain_pair.mp (List.isChain_append.mp hchain).2.1)

end SimpleLeveldb
