import SimpleLeveldb.Version.Atomic
import SimpleLeveldb.Version.ListRuns

set_option autoImplicit false

/-! # Versions without files

As long as `save_to` does nothing, the versions that calls install have no files, and without
compact pointers a snapshot has nothing but the name of the comparator.
-/

namespace SimpleLeveldb

open VersionList (Listed Installed)

/-! ## Versions without files -/

/-- The versions `l` are listed, and none of them has files. -/
structure VersionList.Bare (vl : VersionList) (l : List VersionPtr) : Prop where
  listed : Listed vl l
  ne_nil : l ≠ []
  filesOf : ∀ p ∈ l, vl.filesOf p = []

namespace VersionList.Bare

variable {vl vl' : VersionList} {l : List VersionPtr} {v : VersionPtr}

theorem prepared (h : Bare vl l) (hp : Prepared vl l v vl') : Bare vl' l where
  listed := hp.listed
  ne_nil := h.ne_nil
  filesOf := fun p hmem => (hp.filesOf p hmem).trans (h.filesOf p hmem)

theorem installed (h : Bare vl l) (hp : Prepared vl l v vl') {vl'' : VersionList}
    (hi : Installed vl' l v vl'') : Bare vl'' (vl'.remaining l ++ [v]) where
  listed := hi.listed
  ne_nil := List.append_ne_nil_of_right_ne_nil _ (List.cons_ne_nil v [])
  filesOf := fun p hmem => by
    rcases List.mem_append.mp hmem with hmem | hmem
    · exact (hi.filesOf p hmem).trans ((h.prepared hp).filesOf p (mem_of_mem_remaining hmem))
    · obtain ⟨u, hu, -, hfiles, -⟩ := hp.version
      obtain rfl := List.mem_singleton.mp hmem
      rw [hi.filesOf_self, filesOf_of_versions hu, hfiles]

/-- A reference to the current version is taken. -/
theorem newBuilder (h : Bare vl l) {b : VersionSet.Builder}
    (hb : VersionSet.newBuilder vl = .ok (b, vl')) :
    Bare vl' l ∧ l.getLast? = some b.base ∧ 1 < vl'.refsOf b.base := by
  have hc : l.getLast? = some (l.getLast h.ne_nil) := List.getLast?_eq_some_getLast h.ne_nil
  set c := l.getLast h.ne_nil
  have hmem := List.mem_of_getLast? hc
  obtain ⟨vl₁, href, hlinked, hrefs, hbody, hfiles, -, -, hcurrent, -⟩ := h.listed.toLinked.ref hmem
  rw [VersionSet.newBuilder, h.listed.current, hc] at hb
  simp only [deref, ok_bind, href] at hb
  cases hb
  refine ⟨⟨⟨hlinked, hcurrent.trans h.listed.current⟩, h.ne_nil, fun p hp => ?_⟩, hc, ?_⟩
  · by_cases he : p = c
    · rw [he, hfiles, h.filesOf c hmem]
    · rw [filesOf_congr (hbody p he), h.filesOf p hp]
  · have := h.listed.counted c hmem
    simp only [hrefs]
    omega

/-- A reference is given back, but not the last one of the current version. -/
theorem unRef (h : Bare vl l) {p : VersionPtr} (hp : p ∈ l)
    (hlast : l.getLast? = some p → vl.refsOf p ≠ 1) (hu : vl.unRef p = .ok vl') :
    ∃ l', Bare vl' l' := by
  obtain ⟨vl₁, hun, hr⟩ := h.listed.toLinked.unRef hp
  obtain rfl := Except.ok.inj (hu.symm.trans hun)
  have hlinked := hr.linked
  by_cases hone : vl.refsOf p = 1
  · have hne : l.getLast? ≠ some p := fun he => hlast he hone
    rw [if_pos hone] at hlinked
    have hcurrent : vl'.current = (l.erase p).getLast? := by
      rw [hr.current, h.listed.current, getLast?_erase_of_ne hne]
    refine ⟨l.erase p, ⟨hlinked, hcurrent⟩, fun he => ?_, fun q hq => ?_⟩
    · have hget := getLast?_erase_of_ne hne
      rw [he, List.getLast?_nil] at hget
      exact h.ne_nil (List.getLast?_eq_none_iff.mp hget.symm)
    · have hnodup := (List.nodup_cons.mp h.listed.ring.nodup).2
      have hqp : q ≠ p := fun he => hnodup.not_mem_erase (he ▸ hq)
      rw [filesOf_congr (hr.body q hqp), h.filesOf q (List.mem_of_mem_erase hq)]
  · rw [if_neg hone] at hlinked
    refine ⟨l, ⟨hlinked, hr.current.trans h.listed.current⟩, h.ne_nil, fun q hq => ?_⟩
    by_cases he : q = p
    · rw [he, hr.filesOf hone, h.filesOf p hp]
    · rw [filesOf_congr (hr.body q he), h.filesOf q hq]

/-- What `recover` does to the versions between taking its reference and giving it back. -/
theorem recovered (h : Bare vl l) {c : VersionPtr} (hc : l.getLast? = some c)
    (hrefs : 1 < vl.refsOf c) {vl₁ vl₂ : VersionList}
    (hfinalize : VersionSet.finalize vl.newVersion.2 vl.nextVersion = .ok vl₁)
    (happend : vl₁.appendVersion vl.nextVersion = .ok vl₂) :
    ∃ l', Bare vl₂ l' ∧ c ∈ l' ∧ l'.getLast? ≠ some c := by
  obtain ⟨vl₁', hfinalize', hp⟩ := h.listed.newVersion.finalize
  obtain rfl := Except.ok.inj (hfinalize'.symm.trans hfinalize)
  obtain ⟨u, hu, hurefs, hufiles, -⟩ := hp.version
  obtain ⟨vl₂', happend', hi⟩ := hp.listed.appendVersion hu hurefs hufiles hp.not_mem hp.fresh
  obtain rfl := Except.ok.inj (happend'.symm.trans happend)
  have hmem := List.mem_of_getLast? hc
  have hremaining : vl₁'.remaining l = l := by
    rw [VersionList.remaining, hc]
    simp only [hp.refsOf c hmem, if_neg (show vl.refsOf c ≠ 1 by omega)]
  refine ⟨_, h.installed hp hi, ?_, ?_⟩
  · rw [hremaining]
    exact List.mem_append_left _ hmem
  · rw [List.getLast?_concat]
    intro he
    exact hp.not_mem (Option.some.inj he ▸ List.mem_cons_of_mem _ hmem)

end VersionList.Bare

/-! ## Version sets between calls -/

namespace VersionSet

/-- A version set of the database `dbname` with the comparator `name`, which has no compact
pointers, and whose versions have no files. -/
structure Bare (dbname name : Bytes) (vs : VersionSet) : Prop where
  dbname_eq : vs.dbname = dbname
  comparator : vs.icmp.userComparator.name = name
  compactPointer : ∀ level, vs.compactPointer level = []
  list : ∃ l, vs.list.Bare l
  file : vs.descriptorFile = vs.descriptorLog.map fun log => log.dest
  log : ∀ log, vs.descriptorLog = some log →
    log.blockOffset ≤ Log.kBlockSize ∧ ∃ uninit, log.typeCrc = Log.initTypeCrc uninit

/-- As a process starts with: no manifest is open. -/
structure Fresh (dbname name : Bytes) (vs : VersionSet) : Prop extends Bare dbname name vs where
  closed : vs.descriptorLog = none

variable {dbname name : Bytes} {vs vs' : VersionSet}

theorem Bare.ready (h : Bare dbname name vs) {l : List VersionPtr} (hl : vs.list.Bare l) :
    Ready vs l where
  listed := hl.listed
  ne_nil := hl.ne_nil
  writer := fun log hlog => ⟨(h.log log hlog).1, log.dest, by rw [h.file, hlog]; rfl⟩

/-- Without compact pointers, only the versions change. -/
theorem Bare.buildVersion (h : Bare dbname name vs) {l : List VersionPtr} (hl : vs.list.Bare l)
    {edit : VersionEdit} (hedit : edit.compactPointers = []) {v : VersionPtr}
    (hbuild : vs.buildVersion edit = .ok (v, vs')) :
    ∃ built, Prepared vs.list l v built ∧ vs' = { vs with list := built }
      ∧ Bare dbname name vs' := by
  have hc : vs.list.current = some (l.getLast hl.ne_nil) := by
    rw [hl.listed.current]
    exact List.getLast?_eq_some_getLast hl.ne_nil
  obtain ⟨built, hprep, hall⟩ := buildVersion_eq hl.listed hc
  rw [hall] at hbuild
  cases happly : Builder.apply vs.icmp vs.compactPointer { base := l.getLast hl.ne_nil } edit with
  | error e =>
      rw [happly] at hbuild
      cases hbuild
  | ok r =>
      rw [happly] at hbuild
      cases hbuild
      have hcp : r.1 = vs.compactPointer := by
        obtain ⟨cp, hcp, happly⟩ := bind_eq_ok.mp happly
        obtain ⟨_, -, happly⟩ := bind_eq_ok.mp happly
        obtain ⟨_, -, happly⟩ := bind_eq_ok.mp happly
        cases happly
        rw [hedit] at hcp
        exact (Except.ok.inj hcp).symm
      rw [hcp]
      exact ⟨built, hprep, rfl, h.dbname_eq, h.comparator, h.compactPointer,
        ⟨l, hl.prepared hprep⟩, h.file, h.log⟩

/-- **The snapshot** has nothing but the name of the comparator. -/
theorem Bare.snapShot (h : Bare dbname name vs) :
    vs.snapShot = .ok (({} : VersionEdit).setComparatorName name) := by
  obtain ⟨l, hl⟩ := h.list
  have hmem := List.getLast_mem hl.ne_nil
  obtain ⟨u, hu⟩ := hl.listed.toLinked.exists_version (List.mem_cons_of_mem _ hmem)
  have hfiles : ∀ level, u.files level = [] := by
    intro level
    have hnil := hl.filesOf _ hmem
    rw [VersionList.filesOf_of_versions hu, Version.allFiles, List.flatMap_eq_nil_iff] at hnil
    exact hnil level (List.mem_finRange level)
  have hlevel : ∀ edit level, snapShotLevel vs.list u edit level = .ok edit := by
    intro edit level
    rw [snapShotLevel, hfiles]
    rfl
  have hpointer : ∀ edit level, vs.snapShotCompactPointer edit level = edit := by
    intro edit level
    rw [snapShotCompactPointer, h.compactPointer]
    rfl
  have hlevels : ∀ (levels : List Level) (edit : VersionEdit),
      levels.foldlM (snapShotLevel vs.list u) edit = .ok edit := by
    intro levels edit
    induction levels with
    | nil => rfl
    | cons level levels ih => rw [List.foldlM_cons, hlevel, ok_bind, ih]
  rw [VersionSet.snapShot, hl.listed.current, List.getLast?_eq_some_getLast hl.ne_nil]
  simp only [deref, ok_bind, VersionList.readVersion_of_some hu]
  rw [List.foldl_fixed' (hpointer _), hlevels, h.comparator]

end VersionSet

end SimpleLeveldb
