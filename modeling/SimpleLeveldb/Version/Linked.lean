import SimpleLeveldb.Version.VersionList

set_option autoImplicit false

/-! # The invariant of the list of versions

`Linked vl l` says that `dummy_versions_` and the versions `l` form a circular list, that all of
these are alive and counted, and that every file is counted by as many references as the
versions of the list hold. `ref`, `un_ref` and `append_version` keep it.
-/

namespace SimpleLeveldb.VersionList

/-! ## What a version is made of -/

/-- The links of the versions. -/
def links (vl : VersionList) : Ring.Links VersionPtr where
  next := fun p => (vl.versions p).bind fun v => v.next
  prev := fun p => (vl.versions p).bind fun v => v.prev

/-- A version without its links. -/
def body (vl : VersionList) (p : VersionPtr) : Option Version :=
  (vl.versions p).map fun v => { v with next := none, prev := none }

def refsOf (vl : VersionList) (p : VersionPtr) : Nat := (vl.body p).elim 0 fun v => v.refs

def filesOf (vl : VersionList) (p : VersionPtr) : List FilePtr :=
  (vl.body p).elim [] fun v => v.allFiles

/-- How many references the versions `l` hold to the file `f`. -/
def total (vl : VersionList) (l : List VersionPtr) (f : FilePtr) : Nat :=
  (l.flatMap vl.filesOf).count f

/-- **The invariant.** -/
structure Linked (vl : VersionList) (l : List VersionPtr) : Prop where
  ring : Ring.IsRing vl.links dummyVersions l
  counted : ∀ p ∈ l, 0 < vl.refsOf p
  fresh : ∀ p ∈ dummyVersions :: l, p < vl.nextVersion
  files : ∀ f, 0 < vl.total l f → ∃ m, vl.files f = some m ∧ m.refs = vl.total l f

theorem exists_version {vl : VersionList} {p q : VersionPtr} (h : vl.links.prev p = some q) :
    ∃ v, vl.versions p = some v ∧ v.prev = some q := by
  unfold links at h
  cases hv : vl.versions p with
  | none => simp [hv] at h
  | some v => exact ⟨v, rfl, by simpa [hv] using h⟩

theorem body_of_versions {vl : VersionList} {p : VersionPtr} {v : Version}
    (h : vl.versions p = some v) : vl.body p = some { v with next := none, prev := none } := by
  simp [body, h]

theorem refsOf_of_versions {vl : VersionList} {p : VersionPtr} {v : Version}
    (h : vl.versions p = some v) : vl.refsOf p = v.refs := by
  simp [refsOf, body, h]

theorem refsOf_of_gone {vl : VersionList} {p : VersionPtr} (h : vl.versions p = none) :
    vl.refsOf p = 0 := by
  simp [refsOf, body, h]

theorem filesOf_of_versions {vl : VersionList} {p : VersionPtr} {v : Version}
    (h : vl.versions p = some v) : vl.filesOf p = v.allFiles := by
  simp [filesOf, body, h, Version.allFiles]

/-- A version of the list: its record and its neighbours. -/
theorem Linked.version {vl : VersionList} {l : List VersionPtr} (h : Linked vl l)
    {p : VersionPtr} (hp : p ∈ l) :
    ∃ v prev next, vl.versions p = some v ∧ v.prev = some prev ∧ v.next = some next
      ∧ prev ∈ dummyVersions :: l ∧ next ∈ dummyVersions :: l ∧ prev ≠ p ∧ next ≠ p := by
  obtain ⟨prev, next, hprev, hnext, h1, h2, h3, h4⟩ := h.ring.neighbours hp
  obtain ⟨v, hv, hvp⟩ := exists_version hprev
  refine ⟨v, prev, next, hv, hvp, ?_, h1, h2, h3, h4⟩
  simpa [links, hv] using hnext

theorem Linked.exists_version {vl : VersionList} {l : List VersionPtr} (h : Linked vl l)
    {p : VersionPtr} (hp : p ∈ dummyVersions :: l) : ∃ v, vl.versions p = some v := by
  rcases List.mem_cons.mp hp with rfl | hp
  · obtain ⟨q, -, hq, -⟩ := h.ring.head_neighbours
    obtain ⟨v, hv, -⟩ := VersionList.exists_version hq
    exact ⟨v, hv⟩
  · obtain ⟨v, -, -, hv, -⟩ := h.version hp
    exact ⟨v, hv⟩

/-! ## Changing one version -/

theorem modifyVersion_of_some {vl : VersionList} {p : VersionPtr} {v : Version}
    (h : vl.versions p = some v) (f : Version → Version) :
    vl.modifyVersion p f = .ok { vl with versions := Function.update vl.versions p (some (f v)) } := by
  rw [modifyVersion, h]

theorem readVersion_of_some {vl : VersionList} {p : VersionPtr} {v : Version}
    (h : vl.versions p = some v) : vl.readVersion p = .ok v := by
  rw [readVersion, h]

/-- `vl` with the version `v` at `p`. -/
def set (vl : VersionList) (p : VersionPtr) (v : Option Version) : VersionList :=
  { vl with versions := Function.update vl.versions p v }

@[simp] theorem set_versions_self (vl : VersionList) (p : VersionPtr) (v : Option Version) :
    (vl.set p v).versions p = v := by
  simp [set]

@[simp] theorem set_versions_ne (vl : VersionList) {p q : VersionPtr} (h : q ≠ p)
    (v : Option Version) : (vl.set p v).versions q = vl.versions q := by
  simp [set, h]

@[simp] theorem set_files (vl : VersionList) (p : VersionPtr) (v : Option Version) :
    (vl.set p v).files = vl.files := rfl

@[simp] theorem set_nextVersion (vl : VersionList) (p : VersionPtr) (v : Option Version) :
    (vl.set p v).nextVersion = vl.nextVersion := rfl

@[simp] theorem set_current (vl : VersionList) (p : VersionPtr) (v : Option Version) :
    (vl.set p v).current = vl.current := rfl

theorem modifyVersion_eq_set {vl : VersionList} {p : VersionPtr} {v : Version}
    (h : vl.versions p = some v) (f : Version → Version) :
    vl.modifyVersion p f = .ok (vl.set p (some (f v))) := modifyVersion_of_some h f

theorem links_set (vl : VersionList) (p : VersionPtr) (v : Version) :
    (vl.set p (some v)).links = ⟨Function.update vl.links.next p v.next,
      Function.update vl.links.prev p v.prev⟩ := by
  unfold links
  congr 1
  · funext q
    by_cases hq : q = p
    · subst hq
      simp
    · simp [hq]
  · funext q
    by_cases hq : q = p
    · subst hq
      simp
    · simp [hq]

theorem body_set_ne (vl : VersionList) {p q : VersionPtr} (h : q ≠ p) (v : Option Version) :
    (vl.set p v).body q = vl.body q := by
  simp [body, h]

/-- Lists with the same bodies have the same counts. -/
theorem refsOf_congr {vl vl' : VersionList} {p : VersionPtr} (h : vl'.body p = vl.body p) :
    vl'.refsOf p = vl.refsOf p := by
  rw [refsOf, refsOf, h]

theorem filesOf_congr {vl vl' : VersionList} {p : VersionPtr} (h : vl'.body p = vl.body p) :
    vl'.filesOf p = vl.filesOf p := by
  rw [filesOf, filesOf, h]

theorem total_congr {vl vl' : VersionList} {l : List VersionPtr}
    (h : ∀ p ∈ l, vl'.filesOf p = vl.filesOf p) (f : FilePtr) : vl'.total l f = vl.total l f := by
  have : l.flatMap vl'.filesOf = l.flatMap vl.filesOf := List.flatMap_congr h
  rw [total, total, this]

/-! ## Releasing files -/

/-- What the release of the files `fs` does. -/
structure Dropped (vl : VersionList) (fs : List FilePtr) (vl' : VersionList) : Prop where
  versions : vl'.versions = vl.versions
  nextVersion : vl'.nextVersion = vl.nextVersion
  current : vl'.current = vl.current
  kept : ∀ f m, vl.files f = some m → fs.count f < m.refs →
    vl'.files f = some { m with refs := m.refs - fs.count f }
  same : ∀ f m', vl'.files f = some m' → ∃ m, vl.files f = some m ∧ m'.number = m.number

theorem dropFile_spec {vl : VersionList} {f : FilePtr} {m : FileMetaData}
    (hf : vl.files f = some m) (hm : 0 < m.refs) :
    ∃ vl', vl.dropFile f = .ok vl' ∧ Dropped vl [f] vl' := by
  have hread : vl.readFile f = .ok m := by rw [readFile, hf]
  set m' := if m.refs - 1 = 0 then none else some { m with refs := m.refs - 1 } with hm'
  refine ⟨{ vl with files := Function.update vl.files f m' }, ?_, rfl, rfl, rfl, ?_, ?_⟩
  · rw [dropFile, hread]
    simp only [ok_bind, require_of hm]
    rfl
  · intro g k hg hlt
    by_cases he : g = f
    · subst he
      obtain rfl : m = k := Option.some.inj (hf.symm.trans hg)
      have hne : ¬ m.refs - 1 = 0 := by
        simp at hlt
        omega
      simp [hm', hne]
    · have hcount : [f].count g = 0 := by simp [Ne.symm he]
      simp [he, hg, hcount]
  · intro g k hk
    simp only at hk
    by_cases he : g = f
    · subst he
      rw [Function.update_self, hm'] at hk
      split_ifs at hk
      cases hk
      exact ⟨m, hf, rfl⟩
    · rw [Function.update_of_ne he] at hk
      exact ⟨k, hk, rfl⟩

theorem Dropped.trans {vl₁ vl₂ vl₃ : VersionList} {fs gs : List FilePtr} (h₁ : Dropped vl₁ fs vl₂)
    (h₂ : Dropped vl₂ gs vl₃) : Dropped vl₁ (fs ++ gs) vl₃ where
  versions := h₂.versions.trans h₁.versions
  nextVersion := h₂.nextVersion.trans h₁.nextVersion
  current := h₂.current.trans h₁.current
  kept := by
    intro f m hf hlt
    rw [List.count_append] at hlt ⊢
    rw [h₂.kept f _ (h₁.kept f m hf (by omega)) (by simp only; omega)]
    simp only [Nat.sub_sub]
  same := by
    intro f m'' hf
    obtain ⟨m', hf', hn'⟩ := h₂.same f m'' hf
    obtain ⟨m, hm, hn⟩ := h₁.same f m' hf'
    exact ⟨m, hm, hn'.trans hn⟩

/-- The loop of `~version`, by induction on the files. -/
theorem dropFiles_spec (fs : List FilePtr) (vl : VersionList)
    (h : ∀ f ∈ fs, ∃ m, vl.files f = some m ∧ fs.count f ≤ m.refs) :
    ∃ vl', fs.foldlM dropFile vl = .ok vl' ∧ Dropped vl fs vl' := by
  induction fs generalizing vl with
  | nil =>
      refine ⟨vl, rfl, rfl, rfl, rfl, fun f m hf _ => by simpa using hf, fun f m hf => ⟨m, hf, rfl⟩⟩
  | cons f fs ih =>
      obtain ⟨m, hf, hle⟩ := h f List.mem_cons_self
      rw [List.count_cons_self] at hle
      obtain ⟨vl₁, hdrop, h₁⟩ := dropFile_spec hf (by omega)
      have hrest : ∀ g ∈ fs, ∃ m, vl₁.files g = some m ∧ fs.count g ≤ m.refs := by
        intro g hg
        obtain ⟨k, hk, hkle⟩ := h g (List.mem_cons_of_mem f hg)
        have hpos : 0 < fs.count g := List.count_pos_iff.mpr hg
        rw [← List.singleton_append, List.count_append] at hkle
        refine ⟨_, h₁.kept g k hk (by omega), ?_⟩
        simp only
        omega
      obtain ⟨vl₂, hdrops, h₂⟩ := ih vl₁ hrest
      refine ⟨vl₂, ?_, h₁.trans h₂⟩
      rw [List.foldlM_cons, hdrop]
      exact hdrops

/-! ## Changing links -/

/-- `vl'` is `vl` with the links `L`. -/
structure Relinked (vl : VersionList) (L : Ring.Links VersionPtr) (vl' : VersionList) : Prop where
  links : vl'.links = L
  body : ∀ q, vl'.body q = vl.body q
  files : vl'.files = vl.files
  nextVersion : vl'.nextVersion = vl.nextVersion
  current : vl'.current = vl.current

theorem Relinked.exists_version {vl vl' : VersionList} {L : Ring.Links VersionPtr}
    (h : Relinked vl L vl') {q : VersionPtr} {v : Version} (hv : vl.versions q = some v) :
    ∃ v', vl'.versions q = some v' := by
  have hbody := h.body q
  rw [body_of_versions hv, VersionList.body] at hbody
  cases hq : vl'.versions q with
  | none => simp [hq] at hbody
  | some v' => exact ⟨v', rfl⟩

theorem Relinked.trans {vl₁ vl₂ vl₃ : VersionList} {L L' : Ring.Links VersionPtr}
    (h₁ : Relinked vl₁ L vl₂) (h₂ : Relinked vl₂ L' vl₃) : Relinked vl₁ L' vl₃ where
  links := h₂.links
  body := fun q => (h₂.body q).trans (h₁.body q)
  files := h₂.files.trans h₁.files
  nextVersion := h₂.nextVersion.trans h₁.nextVersion
  current := h₂.current.trans h₁.current

theorem links_next_of_some {vl : VersionList} {p : VersionPtr} {v : Version}
    (h : vl.versions p = some v) : vl.links.next p = v.next := by
  simp [links, h]

theorem links_prev_of_some {vl : VersionList} {p : VersionPtr} {v : Version}
    (h : vl.versions p = some v) : vl.links.prev p = v.prev := by
  simp [links, h]

/-- A change of the links of one version keeps every body. -/
theorem body_set_links {vl : VersionList} {p : VersionPtr} {v : Version}
    (h : vl.versions p = some v) (next prev : Option VersionPtr) (q : VersionPtr) :
    (vl.set p (some { v with next := next, prev := prev })).body q = vl.body q := by
  by_cases hq : q = p
  · subst hq
    simp [body, h]
  · exact body_set_ne vl hq _

theorem modifyNext_spec {vl : VersionList} {p : VersionPtr} {v : Version}
    (h : vl.versions p = some v) (x : Option VersionPtr) :
    ∃ vl', vl.modifyVersion p (fun u => { u with next := x }) = .ok vl'
      ∧ Relinked vl ⟨Function.update vl.links.next p x, vl.links.prev⟩ vl' := by
  refine ⟨_, modifyVersion_eq_set h _, ?_, body_set_links h x v.prev, rfl, rfl, rfl⟩
  rw [links_set]
  congr 1
  rw [← links_prev_of_some h, Function.update_eq_self]

theorem modifyPrev_spec {vl : VersionList} {p : VersionPtr} {v : Version}
    (h : vl.versions p = some v) (x : Option VersionPtr) :
    ∃ vl', vl.modifyVersion p (fun u => { u with prev := x }) = .ok vl'
      ∧ Relinked vl ⟨vl.links.next, Function.update vl.links.prev p x⟩ vl' := by
  refine ⟨_, modifyVersion_eq_set h _, ?_, body_set_links h v.next x, rfl, rfl, rfl⟩
  rw [links_set]
  congr 1
  rw [← links_next_of_some h, Function.update_eq_self]

/-! ## `~version` -/

/-- What the destruction of the version at `p` does to the rest. -/
structure Deleted (vl : VersionList) (p : VersionPtr) (L : Ring.Links VersionPtr)
    (fs : List FilePtr) (vl' : VersionList) : Prop where
  next : ∀ q, q ≠ p → vl'.links.next q = L.next q
  prev : ∀ q, q ≠ p → vl'.links.prev q = L.prev q
  gone : vl'.versions p = none
  body : ∀ q, q ≠ p → vl'.body q = vl.body q
  nextVersion : vl'.nextVersion = vl.nextVersion
  current : vl'.current = vl.current
  kept : ∀ f m, vl.files f = some m → fs.count f < m.refs →
    vl'.files f = some { m with refs := m.refs - fs.count f }
  same : ∀ f m', vl'.files f = some m' → ∃ m, vl.files f = some m ∧ m'.number = m.number

theorem deleteVersion_spec (vl : VersionList) {p prev next : VersionPtr} {v u w : Version}
    (hv : vl.versions p = some v) (hrefs : v.refs = 0) (hprev : v.prev = some prev)
    (hnext : v.next = some next) (hu : vl.versions prev = some u) (hw : vl.versions next = some w)
    (hfiles : ∀ f ∈ v.allFiles, ∃ m, vl.files f = some m ∧ v.allFiles.count f ≤ m.refs) :
    ∃ vl', vl.deleteVersion p = .ok vl'
      ∧ Deleted vl p (vl.links.unlink prev next) v.allFiles vl' := by
  obtain ⟨vl₁, hm₁, h₁⟩ := modifyNext_spec hu (some next)
  obtain ⟨w₁, hw₁⟩ := h₁.exists_version hw
  obtain ⟨vl₂, hm₂, h₂⟩ := modifyPrev_spec hw₁ (some prev)
  have h₁₂ := h₁.trans h₂
  obtain ⟨vl₃, hm₃, h₃⟩ := dropFiles_spec v.allFiles vl₂ (by rw [h₁₂.files]; exact hfiles)
  have hlinks : vl₃.links = vl.links.unlink prev next := by
    have : vl₃.links = vl₂.links := by simp only [VersionList.links, h₃.versions]
    rw [this, h₁₂.links, h₁.links]
    rfl
  have hbody : ∀ q, vl₃.body q = vl.body q := by
    intro q
    rw [← h₁₂.body q]
    simp only [VersionList.body, h₃.versions]
  refine ⟨vl₃.set p none, ?_, ?_, ?_, set_versions_self vl₃ p none, ?_, ?_, ?_, ?_, ?_⟩
  · rw [deleteVersion, readVersion_of_some hv, ok_bind, require_of hrefs, ok_bind, hprev, hnext]
    simp only [deref, ok_bind, hm₁, hm₂, hm₃]
    rfl
  · intro q hq
    rw [← hlinks]
    simp [VersionList.links, hq]
  · intro q hq
    rw [← hlinks]
    simp [VersionList.links, hq]
  · intro q hq
    rw [body_set_ne _ hq, hbody]
  · exact h₃.nextVersion.trans h₁₂.nextVersion
  · exact h₃.current.trans h₁₂.current
  · intro f m hf hlt
    exact h₃.kept f m (by rw [h₁₂.files]; exact hf) hlt
  · intro f m hf
    obtain ⟨k, hk, hn⟩ := h₃.same f m hf
    exact ⟨k, by rw [← h₁₂.files]; exact hk, hn⟩

/-! ## `un_ref` and `ref` -/

theorem total_append (vl : VersionList) (l₁ l₂ : List VersionPtr) (f : FilePtr) :
    vl.total (l₁ ++ l₂) f = vl.total l₁ f + vl.total l₂ f := by
  simp [total]

theorem total_cons (vl : VersionList) (p : VersionPtr) (l : List VersionPtr) (f : FilePtr) :
    vl.total (p :: l) f = (vl.filesOf p).count f + vl.total l f := by
  simp [total]

/-- A change of the reference count of one version. -/
theorem modifyRefs_spec {vl : VersionList} {p : VersionPtr} {v : Version}
    (h : vl.versions p = some v) (n : Nat) :
    (vl.set p (some { v with refs := n })).links = vl.links
      ∧ (∀ q, (vl.set p (some { v with refs := n })).filesOf q = vl.filesOf q)
      ∧ (vl.set p (some { v with refs := n })).refsOf p = n
      ∧ ∀ q, q ≠ p → (vl.set p (some { v with refs := n })).body q = vl.body q := by
  refine ⟨?_, ?_, ?_, fun q hq => body_set_ne vl hq _⟩
  · rw [links_set]
    simp only
    rw [← links_next_of_some h, ← links_prev_of_some h, Function.update_eq_self,
      Function.update_eq_self]
  · intro q
    by_cases hq : q = p
    · subst hq
      rw [filesOf_of_versions h, filesOf_of_versions (set_versions_self vl q _)]
      rfl
    · exact filesOf_congr (body_set_ne vl hq _)
  · exact refsOf_of_versions (set_versions_self vl p _)

/-- Only the reference count of `p` changes, and it stays positive. -/
theorem Linked.modifyRefs {vl : VersionList} {l : List VersionPtr} (h : Linked vl l)
    {p : VersionPtr} {v : Version} (hv : vl.versions p = some v) {n : Nat} (hn : 0 < n) :
    Linked (vl.set p (some { v with refs := n })) l := by
  obtain ⟨hlinks, hfiles, hrefs, hbody⟩ := modifyRefs_spec hv n
  refine ⟨by rw [hlinks]; exact h.ring, fun q hq => ?_, h.fresh, fun f hf => ?_⟩
  · by_cases he : q = p
    · rw [he, hrefs]
      exact hn
    · rw [refsOf_congr (hbody q he)]
      exact h.counted q hq
  · rw [total_congr fun q _ => hfiles q] at hf ⊢
    exact h.files f hf

/-- What `un_ref` of the version `p` does. -/
structure Released (vl : VersionList) (l : List VersionPtr) (p : VersionPtr)
    (vl' : VersionList) : Prop where
  linked : Linked vl' (if vl.refsOf p = 1 then l.erase p else l)
  nextVersion : vl'.nextVersion = vl.nextVersion
  current : vl'.current = vl.current
  body : ∀ q, q ≠ p → vl'.body q = vl.body q
  refsOf : vl'.refsOf p = vl.refsOf p - 1
  filesOf : vl.refsOf p ≠ 1 → vl'.filesOf p = vl.filesOf p
  links : vl.refsOf p ≠ 1 → vl'.links = vl.links
  same : ∀ f m', vl'.files f = some m' → ∃ m, vl.files f = some m ∧ m'.number = m.number

/-- **`un_ref` keeps the invariant**, and takes the version out of the list with its last
reference. -/
theorem Linked.unRef {vl : VersionList} {l : List VersionPtr} (h : Linked vl l) {p : VersionPtr}
    (hp : p ∈ l) : ∃ vl', vl.unRef p = .ok vl' ∧ Released vl l p vl' := by
  obtain ⟨v, prev, next, hv, hprev, hnext, hprevm, hnextm, hprevne, hnextne⟩ := h.version hp
  have hrefs : vl.refsOf p = v.refs := refsOf_of_versions hv
  have hpos : 0 < v.refs := hrefs ▸ h.counted p hp
  have hdummy : p ≠ dummyVersions := fun he => (List.nodup_cons.mp h.ring.nodup).1 (he ▸ hp)
  obtain ⟨hlinks₁, hfiles₁, hrefs₁, hbody₁⟩ := modifyRefs_spec hv (v.refs - 1)
  set vl₁ := vl.set p (some { v with refs := v.refs - 1 }) with hvl₁
  have hstart : vl.unRef p = if v.refs - 1 = 0 then vl₁.deleteVersion p else .ok vl₁ := by
    rw [VersionList.unRef, require_of hdummy, ok_bind, readVersion_of_some hv, ok_bind,
      require_of (show 1 ≤ v.refs from hpos), ok_bind, modifyVersion_eq_set hv, ok_bind]
    rfl
  by_cases hone : v.refs = 1
  · -- the last reference
    obtain ⟨l₁, l₂, rfl⟩ := List.append_of_mem hp
    have hnd := (List.nodup_cons.mp h.ring.nodup).2
    have hp₁ : p ∉ l₁ := fun hm => (List.nodup_append.mp hnd).2.2 p hm p List.mem_cons_self rfl
    have hp₂ : p ∉ l₂ := (List.nodup_cons.mp (List.nodup_append.mp hnd).2.1).1
    have herase : (l₁ ++ p :: l₂).erase p = l₁ ++ l₂ := by
      rw [List.erase_append_right _ hp₁, List.erase_cons_head]
    have htotal : ∀ f, vl.total (l₁ ++ p :: l₂) f
        = v.allFiles.count f + vl.total (l₁ ++ l₂) f := by
      intro f
      rw [total_append, total_cons, total_append, filesOf_of_versions hv]
      omega
    obtain ⟨u, hu⟩ := h.exists_version hprevm
    obtain ⟨w, hw⟩ := h.exists_version hnextm
    have hv₁ : vl₁.versions p = some { v with refs := v.refs - 1 } := set_versions_self vl p _
    obtain ⟨vl', hdel, hd⟩ := deleteVersion_spec vl₁ hv₁ (by simp [hone]) hprev hnext
      (by rw [hvl₁, set_versions_ne vl hprevne]; exact hu)
      (by rw [hvl₁, set_versions_ne vl hnextne]; exact hw) (by
        intro f hf
        have hcount : 0 < v.allFiles.count f := List.count_pos_iff.mpr hf
        obtain ⟨m, hm, hmr⟩ := h.files f (by rw [htotal]; omega)
        exact ⟨m, hm, by rw [hmr, htotal]; exact Nat.le_add_right _ _⟩)
    have hne : ∀ q ∈ l₁ ++ l₂, q ≠ p := by
      rintro q hq rfl
      exact (List.mem_append.mp hq).elim hp₁ hp₂
    have hbody : ∀ q, q ≠ p → vl'.body q = vl.body q := fun q hq =>
      (hd.body q hq).trans (hbody₁ q hq)
    have htotal' : ∀ f, vl'.total (l₁ ++ l₂) f = vl.total (l₁ ++ l₂) f := fun f =>
      total_congr (fun q hq => filesOf_congr (hbody q (hne q hq))) f
    refine ⟨vl', by rw [hstart, if_pos (by omega), hdel], ?_, hd.nextVersion, hd.current, hbody,
      by rw [refsOf_of_gone hd.gone, hrefs, hone], fun hn => absurd (hrefs.trans hone) hn,
      fun hn => absurd (hrefs.trans hone) hn, hd.same⟩
    rw [hrefs, if_pos hone, herase]
    have hlinksp : vl.links.prev p = some prev := (links_prev_of_some hv).trans hprev
    have hlinksn : vl.links.next p = some next := (links_next_of_some hv).trans hnext
    have hnep : ∀ q ∈ dummyVersions :: (l₁ ++ l₂), q ≠ p := by
      intro q hq
      rcases List.mem_cons.mp hq with rfl | hq
      · exact hdummy.symm
      · exact hne q hq
    refine ⟨(h.ring.unlink hlinksp hlinksn).congr ?_ ?_, ?_, ?_, ?_⟩
    · intro q hq
      rw [hd.next q (hnep q hq), hlinks₁]
    · intro q hq
      rw [hd.prev q (hnep q hq), hlinks₁]
    · intro q hq
      rw [refsOf_congr (hbody q (hne q hq))]
      exact h.counted q (by rcases List.mem_append.mp hq with hq | hq <;> simp [hq])
    · intro q hq
      rw [hd.nextVersion]
      refine h.fresh q ?_
      rcases List.mem_cons.mp hq with rfl | hq
      · exact List.mem_cons_self
      · rcases List.mem_append.mp hq with hq | hq <;> simp [hq]
    · intro f hf
      rw [htotal'] at hf ⊢
      obtain ⟨m, hm, hmr⟩ := h.files f (by rw [htotal]; omega)
      rw [htotal] at hmr
      have hlt : v.allFiles.count f < m.refs := by omega
      refine ⟨_, hd.kept f m hm hlt, ?_⟩
      simp only [Version.allFiles] at hmr ⊢
      omega
  · refine ⟨vl₁, by rw [hstart, if_neg (by omega)], ?_, rfl, rfl, hbody₁, ?_, ?_, fun _ => hlinks₁, ?_⟩
    · rw [hrefs, if_neg hone]
      exact h.modifyRefs hv (by omega)
    · rw [hrefs₁, hrefs]
    · intro _
      exact hfiles₁ p
    · intro f m hm
      exact ⟨m, hm, rfl⟩

/-- **`ref` keeps the invariant.** -/
theorem Linked.ref {vl : VersionList} {l : List VersionPtr} (h : Linked vl l) {p : VersionPtr}
    (hp : p ∈ l) :
    ∃ vl', vl.ref p = .ok vl' ∧ Linked vl' l ∧ vl'.refsOf p = vl.refsOf p + 1
      ∧ (∀ q, q ≠ p → vl'.body q = vl.body q) ∧ vl'.filesOf p = vl.filesOf p
      ∧ vl'.links = vl.links ∧ vl'.files = vl.files ∧ vl'.current = vl.current ∧ vl'.nextVersion = vl.nextVersion := by
  obtain ⟨v, -, -, hv, -⟩ := h.version hp
  obtain ⟨hlinks, hfiles, hrefs, hbody⟩ := modifyRefs_spec hv (v.refs + 1)
  refine ⟨_, modifyVersion_eq_set hv _, h.modifyRefs hv (Nat.succ_pos _), ?_, hbody, hfiles p,
    hlinks, rfl, rfl, rfl⟩
  rw [hrefs, refsOf_of_versions hv]

/-! ## `append_version` -/

/-- The invariant between calls: `current_` is the last version of the list. -/
structure Listed (vl : VersionList) (l : List VersionPtr) : Prop extends Linked vl l where
  current : vl.current = l.getLast?

/-- What a call of `append_version` leaves of the list before it. -/
def remaining (vl : VersionList) (l : List VersionPtr) : List VersionPtr :=
  match l.getLast? with
  | some c => if vl.refsOf c = 1 then l.erase c else l
  | none => l

/-- What `append_version` does: the reference that `current_` held to the last version is
dropped, and `v` with one reference is put at the end. -/
structure Installed (vl : VersionList) (l : List VersionPtr) (v : VersionPtr)
    (vl' : VersionList) : Prop where
  listed : Listed vl' (vl.remaining l ++ [v])
  nextVersion : vl'.nextVersion = vl.nextVersion
  refsOf_self : vl'.refsOf v = 1
  filesOf : ∀ q ∈ vl.remaining l, vl'.filesOf q = vl.filesOf q
  filesOf_self : vl'.filesOf v = vl.filesOf v
  refsOf : ∀ q, q ≠ v →
    vl'.refsOf q = if some q = l.getLast? then vl.refsOf q - 1 else vl.refsOf q
  same : ∀ f m', vl'.files f = some m' → ∃ m, vl.files f = some m ∧ m'.number = m.number

theorem linkLast_spec {vl : VersionList} {l : List VersionPtr} (h : Linked vl l) {v : VersionPtr}
    {u : Version} (hu : vl.versions v = some u) {last : VersionPtr}
    (hlast : vl.links.prev dummyVersions = some last) (hv : v ∉ dummyVersions :: l) :
    ∃ vl', vl.linkLast v = .ok vl'
      ∧ Relinked vl (vl.links.insertBefore dummyVersions v last) vl' := by
  obtain ⟨d, hd⟩ := h.exists_version (p := dummyVersions) List.mem_cons_self
  have hdlast : d.prev = some last := (links_prev_of_some hd).symm.trans hlast
  obtain ⟨p, n, hp, -, hpm, -⟩ := h.ring.head_neighbours
  obtain rfl : p = last := Option.some.inj (hp.symm.trans hlast)
  have hvp : v ≠ p := fun he => hv (he ▸ hpm)
  obtain ⟨w, hw⟩ := h.exists_version hpm
  obtain ⟨vl₁, hm₁, h₁⟩ := modifyPrev_spec hu (some p)
  obtain ⟨u₁, hu₁⟩ := h₁.exists_version hu
  obtain ⟨vl₂, hm₂, h₂⟩ := modifyNext_spec hu₁ (some dummyVersions)
  obtain ⟨u₂, hu₂⟩ := h₂.exists_version hu₁
  have hu₂prev : u₂.prev = some p := by
    rw [← links_prev_of_some hu₂, h₂.links, h₁.links]
    simp
  obtain ⟨w₁, hw₁⟩ := h₁.exists_version hw
  obtain ⟨w₂, hw₂⟩ := h₂.exists_version hw₁
  obtain ⟨vl₃, hm₃, h₃⟩ := modifyNext_spec hw₂ (some v)
  obtain ⟨u₃, hu₃⟩ := h₃.exists_version hu₂
  have hu₃next : u₃.next = some dummyVersions := by
    rw [← links_next_of_some hu₃, h₃.links, h₂.links]
    simp [hvp]
  obtain ⟨d₁, hd₁⟩ := h₁.exists_version hd
  obtain ⟨d₂, hd₂⟩ := h₂.exists_version hd₁
  obtain ⟨d₃, hd₃⟩ := h₃.exists_version hd₂
  obtain ⟨vl₄, hm₄, h₄⟩ := modifyPrev_spec hd₃ (some v)
  refine ⟨vl₄, ?_, ?_⟩
  · rw [linkLast, readVersion_of_some hd]
    simp only [ok_bind, hdlast, hm₁, hm₂, readVersion_of_some hu₂, hu₂prev, deref, hm₃,
      readVersion_of_some hu₃, hu₃next, hm₄]
  · have hall := ((h₁.trans h₂).trans h₃).trans h₄
    refine { hall with links := ?_ }
    rw [hall.links, h₃.links, h₂.links, h₁.links]
    rfl

theorem Listed.unRefCurrent {vl : VersionList} {l : List VersionPtr} (h : Listed vl l) :
    ∃ vl₁, vl.unRefCurrent = .ok vl₁
      ∧ Linked vl₁ (vl.remaining l) ∧ vl₁.nextVersion = vl.nextVersion
      ∧ (∀ q, some q ≠ l.getLast? → vl₁.body q = vl.body q)
      ∧ (∀ q ∈ vl.remaining l, vl₁.filesOf q = vl.filesOf q)
      ∧ (∀ q, vl₁.refsOf q = if some q = l.getLast? then vl.refsOf q - 1 else vl.refsOf q)
      ∧ ∀ f m', vl₁.files f = some m' → ∃ m, vl.files f = some m ∧ m'.number = m.number := by
  rw [VersionList.unRefCurrent, h.current]
  unfold remaining
  cases hlast : l.getLast? with
  | none => exact ⟨vl, rfl, h.toLinked, rfl, fun _ _ => rfl, fun _ _ => rfl, fun q => by simp,
      fun f m hm => ⟨m, hm, rfl⟩⟩
  | some c =>
      have hc : c ∈ l := List.mem_of_getLast? hlast
      obtain ⟨vl₁, hun, hr⟩ := h.toLinked.unRef hc
      refine ⟨vl₁, hun, hr.linked, hr.nextVersion, ?_, ?_, ?_, hr.same⟩
      · intro q hq
        exact hr.body q fun he => hq (by rw [he])
      · intro q hq
        by_cases he : q = c
        · subst he
          refine hr.filesOf fun hone => ?_
          simp only [hone, if_true] at hq
          exact (List.Nodup.mem_erase_iff (List.nodup_cons.mp h.ring.nodup).2).mp hq |>.1 rfl
        · exact filesOf_congr (hr.body q he)
      · intro q
        by_cases he : q = c
        · subst he
          rw [if_pos rfl, hr.refsOf]
        · rw [if_neg (fun h' => he (Option.some.inj h')), refsOf_congr (hr.body q he)]

theorem mem_of_mem_remaining {vl : VersionList} {l : List VersionPtr} {q : VersionPtr}
    (h : q ∈ vl.remaining l) : q ∈ l := by
  unfold remaining at h
  split at h
  · split_ifs at h
    · exact List.mem_of_mem_erase h
    · exact h
  · exact h

/-- **`append_version` keeps the invariant.** -/
theorem Listed.appendVersion {vl : VersionList} {l : List VersionPtr} (h : Listed vl l)
    {v : VersionPtr} {u : Version} (hu : vl.versions v = some u) (hrefs : u.refs = 0)
    (hfiles : u.allFiles = []) (hv : v ∉ dummyVersions :: l) (hfresh : v < vl.nextVersion) :
    ∃ vl', vl.appendVersion v = .ok vl' ∧ Installed vl l v vl' := by
  have hvlast : some v ≠ l.getLast? := fun he =>
    hv (List.mem_cons_of_mem _ (List.mem_of_getLast? he.symm))
  have hvcur : some v ≠ vl.current := by rwa [h.current]
  obtain ⟨vl₁, hun, h₁, hnext₁, hbody₁, hfiles₁, hrefs₁, hsame₁⟩ := h.unRefCurrent
  have hv₁ : v ∉ dummyVersions :: vl.remaining l := by
    rw [List.mem_cons, not_or] at hv ⊢
    exact ⟨hv.1, fun hm => hv.2 (mem_of_mem_remaining hm)⟩
  have hbodyv : vl₁.body v = vl.body v := hbody₁ v hvlast
  obtain ⟨u₁, hu₁⟩ : ∃ u₁, vl₁.versions v = some u₁ := by
    rw [body_of_versions hu, body] at hbodyv
    cases hq : vl₁.versions v with
    | none => simp [hq] at hbodyv
    | some u₁ => exact ⟨u₁, rfl⟩
  have hurefs : u₁.refs = 0 := by
    rw [← refsOf_of_versions hu₁, refsOf_congr hbodyv, refsOf_of_versions hu, hrefs]
  have hufiles : vl₁.filesOf v = [] := by
    rw [filesOf_congr hbodyv, filesOf_of_versions hu, hfiles]
  -- the reference of `current_` to `v`
  set vl₂ : VersionList := { vl₁ with current := some v } with hvl₂
  have hu₂ : vl₂.versions v = some u₁ := hu₁
  obtain ⟨hlinks₃, hfiles₃, hrefs₃, hbody₃⟩ := modifyRefs_spec hu₂ (u₁.refs + 1)
  set vl₃ := vl₂.set v (some { u₁ with refs := u₁.refs + 1 }) with hvl₃
  have h₃ : Linked vl₃ (vl.remaining l) := by
    have hne : ∀ q ∈ vl.remaining l, q ≠ v := fun q hq he =>
      hv₁ (List.mem_cons_of_mem _ (he ▸ hq))
    refine ⟨by rw [hlinks₃]; exact h₁.ring, fun q hq => ?_, h₁.fresh, fun f hf => ?_⟩
    · rw [refsOf_congr (hbody₃ q (hne q hq))]
      exact h₁.counted q hq
    · rw [total_congr fun q _ => hfiles₃ q] at hf ⊢
      exact h₁.files f hf
  obtain ⟨last, -, hlast, -⟩ := h₃.ring.head_neighbours
  obtain ⟨vl₄, hm₄, h₄⟩ := linkLast_spec h₃ (set_versions_self vl₂ v _) hlast hv₁
  have hfiles₄ : ∀ q, vl₄.filesOf q = vl₁.filesOf q := fun q =>
    (filesOf_congr (h₄.body q)).trans (hfiles₃ q)
  have hrefs₄ : ∀ q, q ≠ v → vl₄.refsOf q = vl₁.refsOf q := fun q hq =>
    (refsOf_congr (h₄.body q)).trans (refsOf_congr (hbody₃ q hq))
  have hself : vl₄.refsOf v = 1 := by
    rw [refsOf_congr (h₄.body v), hrefs₃, hurefs]
  have hnev : ∀ q ∈ vl.remaining l, q ≠ v := fun q hq he => hv₁ (List.mem_cons_of_mem _ (he ▸ hq))
  have htotal : ∀ f, vl₄.total (vl.remaining l ++ [v]) f = vl₁.total (vl.remaining l) f := by
    intro f
    rw [total_append, total_cons, hfiles₄ v, hufiles, total_congr fun q _ => hfiles₄ q]
    simp [total]
  refine ⟨vl₄, ?_, ?_⟩
  · rw [VersionList.appendVersion, readVersion_of_some hu, ok_bind, require_of hrefs, ok_bind,
      require_of hvcur, ok_bind, hun, ok_bind]
    have href : vl₂.ref v = .ok vl₃ := modifyVersion_eq_set hu₂ _
    show (vl₂.ref v >>= fun vl => vl.linkLast v) = _
    rw [href]
    exact hm₄
  · refine ⟨⟨⟨?_, ?_, ?_, ?_⟩, ?_⟩, ?_, hself, ?_, ?_, ?_, ?_⟩
    · rw [h₄.links]
      exact h₃.ring.insertBefore hlast hv₁
    · intro q hq
      rcases List.mem_append.mp hq with hq | hq
      · rw [hrefs₄ q (hnev q hq)]
        exact h₁.counted q hq
      · rw [List.mem_singleton.mp hq, hself]
        exact one_pos
    · intro q hq
      rw [h₄.nextVersion]
      show q < vl₁.nextVersion
      rw [← List.cons_append] at hq
      rcases List.mem_append.mp hq with hq | hq
      · exact h₁.fresh q hq
      · rw [List.mem_singleton.mp hq, hnext₁]
        exact hfresh
    · intro f hf
      rw [htotal] at hf ⊢
      obtain ⟨m, hm, hmr⟩ := h₁.files f hf
      exact ⟨m, by rw [h₄.files]; exact hm, hmr⟩
    · rw [h₄.current, List.getLast?_append]
      rfl
    · rw [h₄.nextVersion]
      exact hnext₁
    · intro q hq
      rw [hfiles₄, hfiles₁ q hq]
    · rw [hfiles₄, filesOf_congr hbodyv]
    · intro q hq
      rw [hrefs₄ q hq, hrefs₁ q]
    · intro f m hm
      exact hsame₁ f m (by rw [h₄.files] at hm; exact hm)

end SimpleLeveldb.VersionList
