import SimpleLeveldb.Version.Linked
import SimpleLeveldb.Version.VersionSet

set_option autoImplicit false

/-! # Installing a version

What `log_any_apply` does to the list of versions, apart from what it writes: a new version is
made (`buildVersion_eq`), and in the end either appended or destroyed.
-/

namespace SimpleLeveldb

open VersionList (Linked Listed)

/-! ## A version that is not in the list -/

/-- The list `vl'` is `vl` with a version `v` that has no files and is not linked. -/
structure Prepared (vl : VersionList) (l : List VersionPtr) (v : VersionPtr)
    (vl' : VersionList) : Prop where
  listed : Listed vl' l
  version : ∃ u, vl'.versions v = some u ∧ u.refs = 0 ∧ u.allFiles = [] ∧ u.prev = none
  not_mem : v ∉ dummyVersions :: l
  fresh : v < vl'.nextVersion
  refsOf : ∀ q ∈ l, vl'.refsOf q = vl.refsOf q
  filesOf : ∀ q ∈ l, vl'.filesOf q = vl.filesOf q
  same : ∀ f m', vl'.files f = some m' → ∃ m, vl.files f = some m ∧ m'.number = m.number

theorem VersionList.Listed.newVersion {vl : VersionList} {l : List VersionPtr} (h : Listed vl l) :
    Prepared vl l vl.nextVersion vl.newVersion.2 := by
  have hv : vl.nextVersion ∉ dummyVersions :: l := fun hm => lt_irrefl _ (h.fresh _ hm)
  have hne : ∀ q ∈ dummyVersions :: l, q ≠ vl.nextVersion := fun q hq he => hv (he ▸ hq)
  have hbody : ∀ q ∈ l, vl.newVersion.2.body q = vl.body q := fun q hq =>
    VersionList.body_set_ne vl (hne q (List.mem_cons_of_mem _ hq)) _
  have hfiles : ∀ q ∈ l, vl.newVersion.2.filesOf q = vl.filesOf q := fun q hq =>
    VersionList.filesOf_congr (hbody q hq)
  have hlinks : vl.newVersion.2.links = (vl.set vl.nextVersion (some {})).links := rfl
  rw [VersionList.links_set] at hlinks
  refine ⟨⟨⟨h.ring.congr ?_ ?_, ?_, ?_, ?_⟩, h.current⟩, ?_, hv, Nat.lt_succ_self _,
    fun q hq => VersionList.refsOf_congr (hbody q hq), hfiles, fun f m hm => ⟨m, hm, rfl⟩⟩
  · intro q hq
    rw [hlinks]
    exact Function.update_of_ne (hne q hq) _ _
  · intro q hq
    rw [hlinks]
    exact Function.update_of_ne (hne q hq) _ _
  · intro q hq
    rw [VersionList.refsOf_congr (hbody q hq)]
    exact h.counted q hq
  · intro q hq
    exact (h.fresh q hq).trans (Nat.lt_succ_self _)
  · intro f hf
    rw [VersionList.total_congr hfiles] at hf ⊢
    exact h.files f hf
  · exact ⟨{}, Function.update_self _ _ _, rfl, by simp [Version.allFiles], rfl⟩

/-- A version without files gets its scores. -/
theorem Prepared.finalize {vl vl' : VersionList} {l : List VersionPtr} {v : VersionPtr}
    (h : Prepared vl l v vl') :
    ∃ vl'', VersionSet.finalize vl' v = .ok vl'' ∧ Prepared vl l v vl'' := by
  obtain ⟨u, hu, hrefs, hfiles, hprev⟩ := h.version
  have hlevel : ∀ level, u.files level = [] := by
    intro level
    rw [Version.allFiles, List.flatMap_eq_nil_iff] at hfiles
    exact hfiles level (List.mem_finRange level)
  have hscore : ∀ best level, ∃ best', VersionSet.finalizeTurn vl' u best level = .ok best' := by
    intro best level
    obtain ⟨q, hq⟩ : ∃ q, VersionSet.levelScore vl' u level = .ok q := by
      unfold VersionSet.levelScore
      split_ifs
      · exact ⟨_, rfl⟩
      · rw [hlevel]
        exact ⟨_, rfl⟩
    rw [VersionSet.finalizeTurn, hq, ok_bind]
    split_ifs <;> exact ⟨_, rfl⟩
  obtain ⟨⟨bestLevel, bestScore⟩, hfold⟩ := exists_foldlM_eq_ok
    (l := (List.finRange kNumLevels).filter fun level => level.val < kNumLevels - 1)
    (fun best level _ => hscore best level) (-1, -1)
  set u' := { u with compactionLevel := bestLevel, compactionScore := bestScore } with hu'
  have hne : ∀ q ∈ dummyVersions :: l, q ≠ v := fun q hq he => h.not_mem (he ▸ hq)
  have hbody : ∀ q ∈ l, (vl'.set v (some u')).body q = vl'.body q := fun q hq =>
    VersionList.body_set_ne vl' (hne q (List.mem_cons_of_mem _ hq)) _
  have hlinks : (vl'.set v (some u')).links = vl'.links := by
    rw [VersionList.links_set]
    simp only [hu']
    rw [← VersionList.links_next_of_some hu, ← VersionList.links_prev_of_some hu,
      Function.update_eq_self, Function.update_eq_self]
  refine ⟨vl'.set v (some u'), ?_, ?_, ?_, h.not_mem, h.fresh, ?_, ?_, h.same⟩
  · rw [VersionSet.finalize, VersionList.readVersion_of_some hu, ok_bind]
    simp only [hfold, ok_bind]
    exact VersionList.modifyVersion_eq_set hu _
  · refine ⟨⟨by rw [hlinks]; exact h.listed.ring, ?_, h.listed.fresh, ?_⟩, h.listed.current⟩
    · intro q hq
      rw [VersionList.refsOf_congr (hbody q hq)]
      exact h.listed.counted q hq
    · intro f hf
      rw [VersionList.total_congr fun q hq => VersionList.filesOf_congr (hbody q hq)] at hf ⊢
      exact h.listed.files f hf
  · exact ⟨u', VersionList.set_versions_self vl' v _, hrefs, hfiles, hprev⟩
  · intro q hq
    rw [VersionList.refsOf_congr (hbody q hq), h.refsOf q hq]
  · intro q hq
    rw [VersionList.filesOf_congr (hbody q hq), h.filesOf q hq]

/-- The reference of a builder to the current version comes and goes. -/
theorem Prepared.builder {vl vl' : VersionList} {l : List VersionPtr} {v c : VersionPtr}
    (h : Prepared vl l v vl') (hc : vl'.current = some c) :
    ∃ vl₁ vl₂, vl'.ref c = .ok vl₁ ∧ vl₁.unRef c = .ok vl₂ ∧ Prepared vl l v vl₂ := by
  have hcl : c ∈ l := by
    rw [h.listed.current] at hc
    exact List.mem_of_getLast? hc
  have hvc : v ≠ c := fun he => h.not_mem (he ▸ List.mem_cons_of_mem _ hcl)
  obtain ⟨u, hu, hrefs, hfiles, hprev⟩ := h.version
  obtain ⟨vl₁, href, h₁, hrefs₁, hbody₁, hfiles₁, hlinks₁, hheap₁, hcur₁, hnext₁⟩ :=
    h.listed.toLinked.ref hcl
  have hpos := h.listed.counted c hcl
  have hne : vl₁.refsOf c ≠ 1 := by omega
  obtain ⟨vl₂, hun, hr⟩ := h₁.unRef hcl
  have hlinked := hr.linked
  rw [if_neg hne] at hlinked
  have hbodyv : vl₂.body v = vl'.body v := (hr.body v hvc).trans (hbody₁ v hvc)
  have hlinksv : vl₂.links = vl'.links := (hr.links hne).trans hlinks₁
  obtain ⟨u₂, hu₂⟩ : ∃ u₂, vl₂.versions v = some u₂ := by
    rw [VersionList.body_of_versions hu, VersionList.body] at hbodyv
    cases hq : vl₂.versions v with
    | none => simp [hq] at hbodyv
    | some u₂ => exact ⟨u₂, rfl⟩
  refine ⟨vl₁, vl₂, href, hun, ⟨hlinked, ?_⟩, ⟨u₂, hu₂, ?_, ?_, ?_⟩, h.not_mem, ?_, ?_, ?_, ?_⟩
  · rw [hr.current, hcur₁, h.listed.current]
  · rw [← VersionList.refsOf_of_versions hu₂, VersionList.refsOf_congr hbodyv,
      VersionList.refsOf_of_versions hu, hrefs]
  · rw [← VersionList.filesOf_of_versions hu₂, VersionList.filesOf_congr hbodyv,
      VersionList.filesOf_of_versions hu, hfiles]
  · rw [← VersionList.links_prev_of_some hu₂, hlinksv, VersionList.links_prev_of_some hu, hprev]
  · rw [hr.nextVersion, hnext₁]
    exact h.fresh
  · intro q hq
    by_cases he : q = c
    · rw [he, hr.refsOf, hrefs₁, Nat.add_sub_cancel, h.refsOf c hcl]
    · rw [VersionList.refsOf_congr ((hr.body q he).trans (hbody₁ q he)), h.refsOf q hq]
  · intro q hq
    by_cases he : q = c
    · rw [he, hr.filesOf hne, hfiles₁, h.filesOf c hcl]
    · rw [VersionList.filesOf_congr ((hr.body q he).trans (hbody₁ q he)), h.filesOf q hq]
  · intro f m hm
    obtain ⟨k, hk, hn⟩ := hr.same f m hm
    obtain ⟨j, hj, hn'⟩ := h.same f k (by rw [hheap₁] at hk; exact hk)
    exact ⟨j, hj, hn.trans hn'⟩

namespace VersionSet

/-! ## `buildVersion` -/

theorem apply_base {icmp : InternalKeyComparator} {cp cp' : Level → Bytes} {b b' : Builder}
    {edit : VersionEdit} (h : b.apply icmp cp edit = .ok (cp', b')) : b'.base = b.base := by
  unfold Builder.apply at h
  obtain ⟨_, -, h⟩ := bind_eq_ok.mp h
  obtain ⟨_, -, h⟩ := bind_eq_ok.mp h
  obtain ⟨_, -, h⟩ := bind_eq_ok.mp h
  cases h
  rfl

/-- **Making a version** is applying the edit in a builder; what it does to the list does not
depend on the edit. -/
theorem buildVersion_eq {vs : VersionSet} {l : List VersionPtr} {c : VersionPtr}
    (h : Listed vs.list l) (hc : vs.list.current = some c) :
    ∃ built, Prepared vs.list l vs.list.nextVersion built
      ∧ ∀ edit, vs.buildVersion edit
        = (Builder.apply vs.icmp vs.compactPointer { base := c } edit).map fun r =>
            (vs.list.nextVersion, { vs with list := built, compactPointer := r.1 }) := by
  have h₁ := h.newVersion
  obtain ⟨vl₁, vl₂, href, hun, h₂⟩ := h₁.builder (c := c) hc
  obtain ⟨vl₃, hfin, h₃⟩ := h₂.finalize
  refine ⟨vl₃, h₃, fun edit => ?_⟩
  have hnew : newBuilder vs.list.newVersion.2 = .ok ({ base := c }, vl₁) := by
    rw [newBuilder, show vs.list.newVersion.2.current = some c from hc]
    simp only [deref, ok_bind, href]
    rfl
  rw [buildVersion]
  simp only [hnew, ok_bind]
  cases happly : Builder.apply vs.icmp vs.compactPointer { base := c } edit with
  | error e => rfl
  | ok r =>
      have hbase : r.2.base = c := apply_base happly
      simp only [ok_bind, deleteBuilder, hbase, saveTo, hun]
      rw [show vs.list.newVersion.1 = vs.list.nextVersion from rfl, hfin]
      rfl

/-! ## Writing changes nothing but the manifest -/

/-- Nothing has changed but the manifest that is open. -/
def SameButManifest (vs vs' : VersionSet) : Prop :=
  ∃ log file, vs' = { vs with descriptorLog := log, descriptorFile := file }

theorem SameButManifest.refl (vs : VersionSet) : SameButManifest vs vs := ⟨_, _, rfl⟩

theorem SameButManifest.trans {vs₁ vs₂ vs₃ : VersionSet} (h₁ : SameButManifest vs₁ vs₂)
    (h₂ : SameButManifest vs₂ vs₃) : SameButManifest vs₁ vs₃ := by
  obtain ⟨log, file, rfl⟩ := h₁
  obtain ⟨log', file', rfl⟩ := h₂
  exact ⟨log', file', rfl⟩

theorem openManifest_same {vs vs' : VersionSet} {uninit : U32} {env env' : Env} {s : Status}
    {name : Bytes} (h : vs.openManifest uninit env = .ok (s, name, vs', env')) :
    SameButManifest vs vs' := by
  unfold openManifest at h
  cases hlog : vs.descriptorLog with
  | some log =>
      rw [hlog] at h
      cases h
      exact SameButManifest.refl vs
  | none =>
      rw [hlog] at h
      obtain ⟨_, -, h⟩ := bind_eq_ok.mp h
      obtain ⟨_, -, h⟩ := bind_eq_ok.mp h
      simp only at h
      split_ifs at h
      · obtain ⟨_, -, h⟩ := bind_eq_ok.mp h
        cases h
        exact ⟨_, _, rfl⟩
      · cases h
        exact SameButManifest.refl vs

theorem appendEdit_same {vs vs' : VersionSet} {edit : VersionEdit} {env env' : Env} {s : Status}
    (h : vs.appendEdit edit env = .ok (s, vs', env')) : SameButManifest vs vs' := by
  unfold appendEdit at h
  obtain ⟨_, -, h⟩ := bind_eq_ok.mp h
  obtain ⟨_, -, h⟩ := bind_eq_ok.mp h
  obtain ⟨_, -, h⟩ := bind_eq_ok.mp h
  simp only at h
  split_ifs at h
  · obtain ⟨_, -, h⟩ := bind_eq_ok.mp h
    cases h
    exact ⟨_, _, rfl⟩
  · cases h
    exact ⟨_, _, rfl⟩

theorem writeEdit_same {vs vs' : VersionSet} {edit : VersionEdit} {uninit : U32} {env env' : Env}
    {s : Status} {name : Bytes} (h : vs.writeEdit edit uninit env = .ok (s, name, vs', env')) :
    SameButManifest vs vs' := by
  unfold writeEdit at h
  obtain ⟨⟨s₁, name₁, vs₁, env₁⟩, hopen, h⟩ := bind_eq_ok.mp h
  have hsame₁ := openManifest_same hopen
  simp only at h
  split_ifs at h
  · cases h
    exact hsame₁
  · obtain ⟨⟨s₂, vs₂, env₂⟩, happend, h⟩ := bind_eq_ok.mp h
    have hsame₂ := hsame₁.trans (appendEdit_same happend)
    simp only at h
    split_ifs at h
    · cases h
      exact hsame₂
    · obtain ⟨_, -, h⟩ := bind_eq_ok.mp h
      cases h
      exact hsame₂

theorem SameButManifest.list {vs vs' : VersionSet} (h : SameButManifest vs vs') :
    vs'.list = vs.list := by
  obtain ⟨log, file, rfl⟩ := h
  rfl

/-- **A successful call installs a version without files.** -/
theorem logAnyApply_installs {vs vs' : VersionSet} {l : List VersionPtr}
    (h : Listed vs.list l) (hne : l ≠ []) {edit edit' : VersionEdit} {uninit : U32}
    {env env' : Env} (hrun : vs.logAnyApply edit uninit env = .ok (.ok, edit', vs', env')) :
    ∃ v built, Prepared vs.list l v built ∧ VersionList.Installed built l v vs'.list := by
  obtain ⟨c, hc⟩ : ∃ c, vs.list.current = some c := by
    rw [h.current]
    exact ⟨_, List.getLast?_eq_some_getLast hne⟩
  obtain ⟨built, hprep, hbuild⟩ := buildVersion_eq h hc
  unfold logAnyApply at hrun
  obtain ⟨edit₁, -, hrun⟩ := bind_eq_ok.mp hrun
  obtain ⟨⟨v, vs₁⟩, hb, hrun⟩ := bind_eq_ok.mp hrun
  obtain ⟨⟨s, name, vs₂, env₁⟩, hwrite, hrun⟩ := bind_eq_ok.mp hrun
  have hlist₂ : vs₂.list = vs₁.list := (writeEdit_same hwrite).list
  have hlist₁ : v = vs.list.nextVersion ∧ vs₁.list = built := by
    rw [hbuild] at hb
    cases happly : Builder.apply vs.icmp vs.compactPointer { base := c } edit₁ with
    | error e => rw [happly] at hb; cases hb
    | ok r =>
        rw [happly] at hb
        cases hb
        exact ⟨rfl, rfl⟩
  simp only at hrun
  split_ifs at hrun with hok
  · obtain ⟨vs₃, hinstall, hrun⟩ := bind_eq_ok.mp hrun
    cases hrun
    obtain ⟨list, happ, hinstall⟩ := bind_eq_ok.mp hinstall
    cases hinstall
    rw [hlist₂, hlist₁.2, hlist₁.1] at happ
    obtain ⟨u, hu, hrefs, hfiles, -⟩ := hprep.version
    obtain ⟨list', happ', hinst⟩ :=
      hprep.listed.appendVersion hu hrefs hfiles hprep.not_mem hprep.fresh
    rw [happ'] at happ
    cases happ
    exact ⟨_, built, hprep, hinst⟩
  · obtain ⟨_, -, hrun⟩ := bind_eq_ok.mp hrun
    cases hrun
    exact absurd rfl hok

end VersionSet

end SimpleLeveldb
