import SimpleLeveldb.Version.Atomic
import SimpleLeveldb.DbImpl

set_option autoImplicit false

/-! # Which table files stay alive

`requiredAt` folds edits over the files of a version, as a version set is meant to: the numbers
that an edit deletes at a level go, the ones that it adds come. A run of `log_any_apply` keeps
only the versions that somebody else still refers to, since a new version has no files.
-/

namespace SimpleLeveldb

open VersionList (Linked Listed)

/-! ## The files of the versions -/

namespace VersionList

def numberOf (vl : VersionList) (f : FilePtr) : U64 := (vl.files f).elim 0 fun m => m.number

/-- The numbers of the files of a version. -/
def numbersOf (vl : VersionList) (p : VersionPtr) : List U64 := (vl.filesOf p).map vl.numberOf

/-- The numbers of the files of a version at a level. -/
def numbersAt (vl : VersionList) (p : VersionPtr) (level : Level) : List U64 :=
  ((vl.versions p).elim [] fun v => v.files level).map vl.numberOf

theorem mem_numbersOf {vl : VersionList} {p : VersionPtr} {n : U64} :
    n ∈ vl.numbersOf p ↔ ∃ level, n ∈ vl.numbersAt p level := by
  unfold numbersOf numbersAt filesOf body
  cases vl.versions p with
  | none => simp
  | some v => simp [Version.allFiles, List.mem_flatMap]; tauto

/-- A version of the list has all its files. -/
theorem Linked.fileNumbers {vl : VersionList} {l : List VersionPtr} (h : Linked vl l)
    {p : VersionPtr} (hp : p ∈ l) {v : Version} (hv : vl.versions p = some v) :
    vl.fileNumbers v = .ok (vl.numbersOf p) := by
  rw [VersionList.fileNumbers, numbersOf, filesOf_of_versions hv]
  refine mapM_eq_ok fun f hf => ?_
  have hcount : 0 < vl.total l f := by
    rw [total, List.count_pos_iff, List.mem_flatMap]
    exact ⟨p, hp, by rw [filesOf_of_versions hv]; exact hf⟩
  obtain ⟨m, hm, -⟩ := h.files f hcount
  rw [readFile, hm, numberOf, hm]
  rfl

/-- The loop of `add_live_files`, along a path to the dummy. -/
theorem run_addLiveFilesTurn {vl : VersionList} {l : List VersionPtr} (h : Linked vl l)
    (ps : List VersionPtr) (hps : ∀ p ∈ ps, p ∈ l) (a : VersionPtr)
    (hpath : Ring.Path vl.links a ps dummyVersions) (acc : List U64) (n : Nat)
    (hn : ps.length < n) :
    Loop.run .endless vl.addLiveFilesTurn n (vl.links.next a, acc)
      = .ok (acc ++ ps.flatMap vl.numbersOf) := by
  induction ps generalizing a acc n with
  | nil =>
      obtain ⟨n, rfl⟩ : ∃ k, n = k + 1 := ⟨n - 1, by simp at hn; omega⟩
      rw [hpath.1, List.flatMap_nil, List.append_nil]
      exact Loop.run_inr _ rfl n
  | cons p ps ih =>
      obtain ⟨n, rfl⟩ : ∃ k, n = k + 1 := ⟨n - 1, by simp at hn; omega⟩
      have hp := hps p List.mem_cons_self
      obtain ⟨v, -, next, hv, -, hnext, -, -, -⟩ := h.version hp
      have hdummy : p ≠ dummyVersions := fun he =>
        (List.nodup_cons.mp h.ring.nodup).1 (he ▸ hp)
      have hne : ¬ (some p = some dummyVersions) := fun he => hdummy (Option.some.inj he)
      have hturn : vl.addLiveFilesTurn (some p, acc)
          = .ok (.inl (vl.links.next p, acc ++ vl.numbersOf p)) := by
        rw [addLiveFilesTurn, if_neg hne]
        simp only [deref, ok_bind, readVersion_of_some hv, h.fileNumbers hp hv,
          links_next_of_some hv]
        rfl
      rw [hpath.1.1, Loop.run_inl _ hturn, List.flatMap_cons, ← List.append_assoc]
      exact ih (fun q hq => hps q (List.mem_cons_of_mem p hq)) p hpath.2 _ n (by simp at hn; omega)

/-- **`add_live_files`** inserts the numbers of the files of all versions of the list. -/
theorem Linked.addLiveFiles {vl : VersionList} {l : List VersionPtr} (h : Linked vl l) :
    vl.addLiveFiles = .ok (l.flatMap vl.numbersOf) := by
  obtain ⟨d, hd⟩ := h.exists_version (p := dummyVersions) List.mem_cons_self
  have hlen : (dummyVersions :: l).length ≤ vl.nextVersion := by
    rw [← List.toFinset_card_of_nodup h.ring.nodup, ← Finset.card_range vl.nextVersion]
    refine Finset.card_le_card fun p hp => ?_
    exact Finset.mem_range.mpr (h.fresh p (List.mem_toFinset.mp hp))
  rw [VersionList.addLiveFiles, readVersion_of_some hd, ok_bind, ← links_next_of_some hd]
  have hrun := run_addLiveFilesTurn h l (fun _ hp => hp) dummyVersions h.ring.path []
    (vl.nextVersion + 1) (by simp at hlen; omega)
  rwa [List.nil_append] at hrun

/-- Files keep their numbers. -/
theorem numbersOf_congr {vl vl' : VersionList} {l : List VersionPtr} (h : Linked vl' l)
    {p : VersionPtr} (hp : p ∈ l) (hfiles : vl'.filesOf p = vl.filesOf p)
    (hsame : ∀ f m', vl'.files f = some m' → ∃ m, vl.files f = some m ∧ m'.number = m.number) :
    vl'.numbersOf p = vl.numbersOf p := by
  rw [numbersOf, numbersOf, ← hfiles]
  refine List.map_congr_left fun f hf => ?_
  have hcount : 0 < vl'.total l f := by
    rw [total, List.count_pos_iff, List.mem_flatMap]
    exact ⟨p, hp, hf⟩
  obtain ⟨m', hm', -⟩ := h.files f hcount
  obtain ⟨m, hm, hn⟩ := hsame f m' hm'
  simp only [numberOf, hm', hm, Option.elim_some, hn]

theorem remaining_congr {vl vl' : VersionList} {l : List VersionPtr}
    (h : ∀ q ∈ l, vl'.refsOf q = vl.refsOf q) : vl'.remaining l = vl.remaining l := by
  unfold remaining
  cases hlast : l.getLast? with
  | none => rfl
  | some c => simp only [h c (List.mem_of_getLast? hlast)]

/-- The list behind the first installed version: the versions `kept` from before, and one
version without files that only `current_` refers to. -/
def Settled (vl : VersionList) (kept : List VersionPtr) (numbers : VersionPtr → List U64) : Prop :=
  ∃ v, Listed vl (kept ++ [v]) ∧ vl.refsOf v = 1 ∧ vl.numbersOf v = []
    ∧ ∀ q ∈ kept, vl.numbersOf q = numbers q

theorem Settled.addLiveFiles {vl : VersionList} {kept : List VersionPtr}
    {numbers : VersionPtr → List U64} (h : Settled vl kept numbers) :
    vl.addLiveFiles = .ok (kept.flatMap numbers) := by
  obtain ⟨v, hl, -, hv, hkept⟩ := h
  rw [hl.toLinked.addLiveFiles, List.flatMap_append, List.flatMap_congr hkept]
  simp [hv]

/-- An installed version settles the list. -/
theorem settled_of_installed {vl built vl' : VersionList} {l : List VersionPtr} {v : VersionPtr}
    (hprep : Prepared vl l v built) (h : Installed built l v vl') :
    Settled vl' (vl.remaining l) vl.numbersOf := by
  have hrem : built.remaining l = vl.remaining l := remaining_congr hprep.refsOf
  have hlisted := h.listed
  have hfiles := h.filesOf
  rw [hrem] at hlisted hfiles
  have hempty : built.filesOf v = [] := by
    obtain ⟨u, hu, -, hufiles, -⟩ := hprep.version
    rw [filesOf_of_versions hu, hufiles]
  refine ⟨v, hlisted, h.refsOf_self, ?_, fun q hq => ?_⟩
  · rw [numbersOf, h.filesOf_self, hempty]
    rfl
  · refine numbersOf_congr hlisted.toLinked (List.mem_append_left _ hq) ?_ fun f m hm => ?_
    · rw [hfiles q hq, hprep.filesOf q (mem_of_mem_remaining hq)]
    · obtain ⟨k, hk, hn⟩ := h.same f m hm
      obtain ⟨j, hj, hn'⟩ := hprep.same f k hk
      exact ⟨j, hj, hn.trans hn'⟩

theorem remaining_append_of_one {vl : VersionList} {kept : List VersionPtr} {v : VersionPtr}
    (hnodup : (kept ++ [v]).Nodup) (hone : vl.refsOf v = 1) : vl.remaining (kept ++ [v]) = kept := by
  have hv : v ∉ kept := fun hm => (List.nodup_append.mp hnodup).2.2 v hm v (by simp) rfl
  rw [remaining, List.getLast?_append]
  simp [hone, List.erase_append_right _ hv]

/-- Every further installed version replaces the one before. -/
theorem Settled.install {vl built vl' : VersionList} {kept : List VersionPtr}
    {numbers : VersionPtr → List U64} {w v : VersionPtr} (hl : Listed vl (kept ++ [w]))
    (hone : vl.refsOf w = 1) (hnumbers : ∀ q ∈ kept, vl.numbersOf q = numbers q)
    (hprep : Prepared vl (kept ++ [w]) v built) (h : Installed built (kept ++ [w]) v vl') :
    Settled vl' kept numbers := by
  have hset := settled_of_installed hprep h
  rw [remaining_append_of_one (List.nodup_cons.mp hl.ring.nodup).2 hone] at hset
  obtain ⟨u, hu, hone', hempty, hkept⟩ := hset
  exact ⟨u, hu, hone', hempty, fun q hq => (hkept q hq).trans (hnumbers q hq)⟩

end VersionList

/-! ## Runs -/

/-- A run of successful calls of `log_any_apply` with the edits `es`, in any environments; other
functions that leave the list of versions alone may be called in between. -/
inductive Runs : VersionSet → List VersionEdit → VersionSet → Prop
  | done (vs : VersionSet) : Runs vs [] vs
  | apply {vs vs₁ vs' : VersionSet} {edit edit' : VersionEdit} {uninit : U32} {env env' : Env}
      {es : List VersionEdit} :
      vs.logAnyApply edit uninit env = .ok (.ok, edit', vs₁, env') → Runs vs₁ es vs' →
      Runs vs (edit :: es) vs'
  | other {vs vs₁ vs' : VersionSet} {es : List VersionEdit} :
      vs₁.list = vs.list → Runs vs₁ es vs' → Runs vs es vs'

/-- From a settled list a run leads to a settled list with the same versions kept. -/
theorem Runs.settled {vs vs' : VersionSet} {es : List VersionEdit} (h : Runs vs es vs')
    {kept : List VersionPtr} {numbers : VersionPtr → List U64}
    (hs : vs.list.Settled kept numbers) : vs'.list.Settled kept numbers := by
  induction h with
  | done vs => exact hs
  | apply hcall _ ih =>
      obtain ⟨w, hl, hone, -, hnumbers⟩ := hs
      obtain ⟨v, built, hprep, hinst⟩ := VersionSet.logAnyApply_installs hl (by simp) hcall
      exact ih (VersionList.Settled.install hl hone hnumbers hprep hinst)
  | other hlist _ ih => exact ih (hlist ▸ hs)

/-- The first call of a run settles the list: what the versions behind `current_`, and
`current_` itself when somebody else refers to it, hold stays. -/
theorem Runs.settles {vs vs' : VersionSet} {es : List VersionEdit} (h : Runs vs es vs')
    {l : List VersionPtr} (hl : Listed vs.list l) (hne : l ≠ []) (hes : es ≠ []) :
    vs'.list.Settled (vs.list.remaining l) vs.list.numbersOf := by
  induction h with
  | done vs => exact absurd rfl hes
  | apply hcall hrest _ =>
      obtain ⟨v, built, hprep, hinst⟩ := VersionSet.logAnyApply_installs hl hne hcall
      exact hrest.settled (VersionList.settled_of_installed hprep hinst)
  | other hlist _ ih =>
      rw [hlist] at ih
      exact ih hl hes

theorem Runs.list_eq {vs vs' : VersionSet} {es : List VersionEdit} (h : Runs vs es vs')
    (hes : es = []) : vs'.list = vs.list := by
  induction h with
  | done vs => rfl
  | apply _ _ _ => cases hes
  | other hlist _ ih => rw [ih hes, hlist]

/-! ## The files that must not be lost -/

/-- The numbers that an edit adds at a level. -/
def addedAt (newFiles : List (Nat × FileMetaData)) (level : Level) : Finset U64 :=
  ((newFiles.filter fun p => p.1 = level.val).map fun p => p.2.number).toFinset

/-- The numbers at a level after the edits `es`: in each edit deletions come first. -/
def requiredAt (base : Level → Finset U64) : List VersionEdit → Level → Finset U64
  | [], level => base level
  | e :: es, level =>
      requiredAt (fun level => (base level \ VersionSet.deletedAt e.deletedFiles level)
        ∪ addedAt e.newFiles level) es level

/-- The number of a file that is in the current version or is added by one of the edits `es`,
and is not deleted at its level by a later one. -/
def Required (vl : VersionList) (es : List VersionEdit) (n : U64) : Prop :=
  ∃ c level, vl.current = some c
    ∧ n ∈ requiredAt (fun level => (vl.numbersAt c level).toFinset) es level

/-- No table file of such a number is lost: `add_live_files` yields the number, and
`RemoveObsoleteFiles` leaves the file alone. -/
def NoneLost (vl : VersionList) (es : List VersionEdit) (vs' : VersionSet) : Prop :=
  (∃ live, vs'.addLiveFiles = .ok live ∧ ∀ n, Required vl es n → n ∈ live)
    ∧ ∀ (db : DbImpl) (env env' : Env), db.versions = vs' → db.removeObsoleteFiles env = .ok env' →
      ∀ name n, parseFileName name = some (n, .kTableFile) → Required vl es n →
        env'.files.lookup (db.dbname ++ text "/" ++ name)
          = env.files.lookup (db.dbname ++ text "/" ++ name)

/-- **`RemoveObsoleteFiles` keeps live table files.** -/
theorem DbImpl.removeObsoleteFiles_keeps {db : DbImpl} {env env' : Env} {live : List U64}
    (hlive : db.versions.addLiveFiles = .ok live) (h : db.removeObsoleteFiles env = .ok env')
    {name : Bytes} {n : U64} (hname : parseFileName name = some (n, .kTableFile)) (hn : n ∈ live) :
    env'.files.lookup (db.dbname ++ text "/" ++ name)
      = env.files.lookup (db.dbname ++ text "/" ++ name) := by
  unfold removeObsoleteFiles at h
  split_ifs at h
  · cases h
    rfl
  · rw [hlive, ok_bind] at h
    cases h
    rw [Env.lookup_foldl_removeFile]
    · exact Env.lookup_getChildren db.dbname _ env
    · intro other hother he
      obtain rfl : name = other := List.append_cancel_left he
      have hdel := (List.mem_filter.mp hother).2
      rw [hname] at hdel
      simp [keep, hn] at hdel

/-- **Which runs lose no live table file**: those without a call, and those after which every
such number is also held by a version that someone else keeps in the list. -/
theorem noneLost_iff {vs vs' : VersionSet} {l : List VersionPtr} (hl : Listed vs.list l)
    (hne : l ≠ []) {es : List VersionEdit} (h : Runs vs es vs') :
    NoneLost vs.list es vs' ↔ es = [] ∨ ∀ n, Required vs.list es n →
      ∃ p ∈ vs.list.remaining l, n ∈ vs.list.numbersOf p := by
  have hkeeps : (∃ live, vs'.addLiveFiles = .ok live ∧ ∀ n, Required vs.list es n → n ∈ live) →
      NoneLost vs.list es vs' := by
    rintro ⟨live, hlive, hall⟩
    refine ⟨⟨live, hlive, hall⟩, ?_⟩
    rintro db env env' rfl hrun name n hname hn
    exact DbImpl.removeObsoleteFiles_keeps hlive hrun hname (hall n hn)
  by_cases hes : es = []
  · refine ⟨fun _ => .inl hes, fun _ => hkeeps ⟨l.flatMap vs.list.numbersOf, ?_, ?_⟩⟩
    · rw [VersionSet.addLiveFiles, h.list_eq hes]
      exact hl.toLinked.addLiveFiles
    · rintro n ⟨c, level, hc, hn⟩
      subst hes
      rw [hl.current] at hc
      refine List.mem_flatMap.mpr ⟨c, List.mem_of_getLast? hc, ?_⟩
      exact VersionList.mem_numbersOf.mpr ⟨level, List.mem_toFinset.mp hn⟩
  · have hlive := (h.settles hl hne hes).addLiveFiles
    constructor
    · rintro ⟨⟨live, hlive', hall⟩, -⟩
      rw [VersionSet.addLiveFiles, hlive] at hlive'
      cases hlive'
      exact .inr fun n hn => List.mem_flatMap.mp (hall n hn)
    · intro hcond
      refine hkeeps ⟨_, hlive, fun n hn => ?_⟩
      exact List.mem_flatMap.mpr (hcond.resolve_left hes n hn)

/-- The characterisation at one call, with the edit without changes. -/
theorem noneLost_iff_oneVersionSet : ∃ vs', Runs VersionSet.oneVersionSet [{}] vs'
    ∧ (NoneLost VersionSet.oneVersion [{}] vs' ↔ [({} : VersionEdit)] = [] ∨
      ∀ n, Required VersionSet.oneVersion [{}] n →
        ∃ p ∈ VersionSet.oneVersion.remaining [1], n ∈ VersionSet.oneVersion.numbersOf p) := by
  obtain ⟨edit', vs', env', -, hrun, -⟩ :=
    VersionSet.logAnyApply_of_passes VersionSet.oneVersionSet_ready
      VersionSet.oneVersionSet_operations 0
      (show Env.Passes _ ({ files := ∅ } : Env).script by decide)
  have hruns : Runs VersionSet.oneVersionSet [{}] vs' := .apply hrun (.done vs')
  exact ⟨vs', hruns, noneLost_iff VersionSet.oneVersion_listed (by decide) hruns⟩

/-- The edit without changes loses the file 5 of the current version. -/
theorem not_noneLost_oneVersionSet : ∃ vs', Runs VersionSet.oneVersionSet [{}] vs'
    ∧ ¬ NoneLost VersionSet.oneVersion [{}] vs' := by
  obtain ⟨edit', vs', env', -, hrun, -⟩ :=
    VersionSet.logAnyApply_of_passes VersionSet.oneVersionSet_ready
      VersionSet.oneVersionSet_operations 0
      (show Env.Passes _ ({ files := ∅ } : Env).script by decide)
  have hruns : Runs VersionSet.oneVersionSet [{}] vs' := .apply hrun (.done vs')
  refine ⟨vs', hruns, fun hnone => ?_⟩
  have hsettled := hruns.settles VersionSet.oneVersion_listed (by decide) (by decide)
  obtain ⟨live, hlive, hall⟩ := hnone.1
  rw [VersionSet.addLiveFiles, hsettled.addLiveFiles] at hlive
  cases hlive
  have hremaining : VersionSet.oneVersion.remaining [1] = [] := by decide
  have hfive : (5 : U64) ∈ (VersionSet.oneVersion.remaining [1]).flatMap
      VersionSet.oneVersion.numbersOf :=
    hall 5 ⟨1, ⟨0, by decide⟩, rfl, by decide⟩
  rw [hremaining] at hfive
  cases hfive

end SimpleLeveldb
