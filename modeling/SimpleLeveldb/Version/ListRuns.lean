import SimpleLeveldb.Version.Install

set_option autoImplicit false

/-! # Runs of the list of versions

A run starts with the constructor of `version_set` and goes on with calls of `append_version`,
`ref` and `un_ref`, where a client gives back only references that it has. The constructor links
the first version behind `dummy_versions_.prev_`, which is null, so that no run gets anywhere
(`not_sound_of_reachable`). From a list whose dummy is linked to itself every run would keep the
invariant (`sound_of_reachable_selfLinked`).
-/

namespace SimpleLeveldb.VersionList

/-! ## Runs -/

/-- A call: a new version is appended, or a client takes or gives back a reference. -/
inductive Call where
  | appendVersion
  | ref (p : VersionPtr)
  | unRef (p : VersionPtr)

/-- The list in a run, with the versions that were appended, in order, and the references that
clients hold. -/
structure Run where
  list : VersionList
  appended : List VersionPtr := []
  held : VersionPtr → Nat := fun _ => 0

/-- `append_version( new version( this ) )` -/
def appendNew (vl : VersionList) : Except Fault VersionList :=
  let (v, vl) := vl.newVersion
  vl.appendVersion v

namespace Run

/-- A client refers to versions that are alive, and gives back what it has taken. -/
def Allowed (st : Run) : Call → Prop
  | .appendVersion => True
  | .ref p => p ∈ st.appended ∧ 0 < st.list.refsOf p
  | .unRef p => 0 < st.held p

def step (st : Run) : Call → Except Fault Run
  | .appendVersion => do
      return ⟨← st.list.appendNew, st.appended ++ [st.list.nextVersion], st.held⟩
  | .ref p => do
      return ⟨← st.list.ref p, st.appended, Function.update st.held p (st.held p + 1)⟩
  | .unRef p => do
      return ⟨← st.list.unRef p, st.appended, Function.update st.held p (st.held p - 1)⟩

/-- The versions that must be in the list: the appended ones that are referred to. -/
def live (st : Run) : List VersionPtr := st.appended.filter fun p => 0 < st.list.refsOf p

end Run

/-- What a run can come to when the members of the version set are as in `vl` before the body of
the constructor, which appends a version. -/
inductive Reachable (vl : VersionList) : Except Fault Run → Prop
  | construct : Reachable vl (Run.step { list := vl } .appendVersion)
  | step {st : Run} (call : Call) : Reachable vl (.ok st) → st.Allowed call →
      Reachable vl (st.step call)

/-- No null link was followed; the list is circular, holds the live versions in the order in which
they were appended, and ends with `current_`. -/
def Sound : Except Fault Run → Prop
  | .error fault => fault ≠ .nullLink
  | .ok st => Ring.IsRing st.list.links dummyVersions st.live
      ∧ st.list.current = st.list.links.prev dummyVersions

/-! ## The list as the constructor makes it -/

theorem construct_eq : construct = initial.appendNew := rfl

/-- **The constructor is as far as any run gets.** -/
theorem nullLink_of_reachable {r : Except Fault Run} (h : Reachable initial r) :
    r = .error .nullLink := by
  induction h with
  | construct =>
      have hnew : initial.appendNew = .error .nullLink := construct_eq.symm.trans construct_nullLink
      rw [Run.step, hnew]
      rfl
  | step call _ _ ih => cases ih

/-- **No state that the constructor leads to is sound.** -/
theorem not_sound_of_reachable {r : Except Fault Run} (h : Reachable initial r) : ¬ Sound r := by
  rw [nullLink_of_reachable h]
  exact not_not_intro rfl

theorem not_sound_construct :
    ¬ Sound (Run.step { list := initial } .appendVersion) :=
  not_sound_of_reachable .construct

/-- The invariant fails in the first state already. -/
theorem not_forall_sound : ¬ ∀ r, Reachable initial r → Sound r := by
  intro h
  exact h _ .construct (by rfl)

/-! ## A dummy that is linked to itself -/

/-- The members of a version set whose `dummy_versions_` is linked to itself. -/
def selfLinked : VersionList :=
  initial.set dummyVersions (some { next := some dummyVersions, prev := some dummyVersions })

theorem selfLinked_listed : Listed selfLinked [] := by
  refine ⟨⟨⟨⟨by simp [links, selfLinked], by simp [links, selfLinked]⟩, by simp⟩, by simp, ?_,
    by simp [total]⟩, rfl⟩
  intro p hp
  rw [List.mem_singleton.mp hp]
  decide

/-- **The invariant of a run**: every reference is one of a client, or that of `current_`. -/
structure Counted (st : Run) : Prop where
  listed : Listed st.list st.live
  refs : ∀ p ∈ st.appended,
    st.list.refsOf p = st.held p + if st.list.current = some p then 1 else 0
  held : ∀ p, p ∉ st.appended → st.held p = 0
  nodup : st.appended.Nodup
  fresh : ∀ p ∈ st.appended, p < st.list.nextVersion

theorem counted_selfLinked : Counted { list := selfLinked } where
  listed := selfLinked_listed
  refs := by simp
  held := fun _ _ => rfl
  nodup := List.nodup_nil
  fresh := by simp

/-- When one count goes down by one, its owner leaves the list at zero. -/
theorem filter_of_pred {l : List VersionPtr} (hl : l.Nodup) {r r' : VersionPtr → Nat}
    {p : VersionPtr} (hp : r' p = r p - 1) (hne : ∀ q ∈ l, q ≠ p → r' q = r q) (hpos : 0 < r p) :
    (l.filter fun q => 0 < r' q)
      = if r p = 1 then (l.filter fun q => 0 < r q).erase p else l.filter fun q => 0 < r q := by
  split_ifs with hone
  · rw [(hl.filter _).erase_eq_filter, List.filter_filter]
    refine List.filter_congr fun q hq => ?_
    by_cases he : q = p
    · subst he
      simp [hp, hone]
    · simp [hne q hq he, he]
  · refine List.filter_congr fun q hq => ?_
    by_cases he : q = p
    · subst he
      simp only [hp, decide_eq_decide]
      omega
    · rw [hne q hq he]

theorem getLast?_erase_of_ne {l : List VersionPtr} {p : VersionPtr} (h : l.getLast? ≠ some p) :
    (l.erase p).getLast? = l.getLast? := by
  cases hlast : l.getLast? with
  | none =>
      rw [List.getLast?_eq_none_iff] at hlast
      subst hlast
      rfl
  | some c =>
      obtain ⟨l', rfl⟩ := List.getLast?_eq_some_iff.mp hlast
      have hne : c ≠ p := fun he => h (by rw [hlast, he])
      by_cases hp : p ∈ l'
      · rw [List.erase_append_left _ hp, List.getLast?_append]
        rfl
      · rw [List.erase_append_right _ hp, List.erase_cons_tail (by simpa using hne),
          List.getLast?_append]
        rfl

namespace Counted

variable {st : Run}

theorem mem_live (p : VersionPtr) : p ∈ st.live ↔ p ∈ st.appended ∧ 0 < st.list.refsOf p := by
  simp [Run.live]

/-- A new version replaces `current_`, which stays in the list only for its clients. -/
theorem appendVersion (h : Counted st) :
    ∃ st', st.step .appendVersion = .ok st' ∧ Counted st' ∧ ∃ c, st'.list.current = some c := by
  set v := st.list.nextVersion with hv
  have hprep := h.listed.newVersion
  obtain ⟨u, hu, hurefs, hufiles, -⟩ := hprep.version
  obtain ⟨list, happ, hinst⟩ :=
    hprep.listed.appendVersion hu hurefs hufiles hprep.not_mem hprep.fresh
  have hvnot : v ∉ st.appended := fun hm => lt_irrefl _ (h.fresh v hm)
  have hne : ∀ p ∈ st.appended, p ≠ v := fun p hp he => hvnot (he ▸ hp)
  have hcur : list.current = some v := by
    rw [hinst.listed.current, List.getLast?_append]
    rfl
  -- the references of the older versions
  have hold : ∀ p ∈ st.appended, list.refsOf p
      = if some p = st.live.getLast? then st.list.refsOf p - 1 else st.list.refsOf p := by
    intro p hp
    rw [hinst.refsOf p (hne p hp)]
    have hbody : st.list.newVersion.2.refsOf p = st.list.refsOf p :=
      refsOf_congr (body_set_ne st.list (hne p hp) _)
    rw [hbody]
  have hlive : (st.appended.filter fun p => 0 < list.refsOf p)
      = st.list.newVersion.2.remaining st.live := by
    unfold remaining
    cases hlast : st.live.getLast? with
    | none =>
        refine List.filter_congr fun p hp => ?_
        rw [hold p hp, hlast]
        simp
    | some c =>
        have hc := (mem_live c).mp (List.mem_of_getLast? hlast)
        rw [hlast] at hold
        have hrefsc : st.list.newVersion.2.refsOf c = st.list.refsOf c :=
          hprep.refsOf c (List.mem_of_getLast? hlast)
        rw [filter_of_pred h.nodup (p := c) (by rw [hold c hc.1, if_pos rfl])
          (fun q hq he => by rw [hold q hq, if_neg (by simpa using he)]) hc.2]
        simp only [hrefsc]
        rfl
  refine ⟨⟨list, st.appended ++ [v], st.held⟩, ?_, ⟨?_, ?_, ?_, ?_, ?_⟩, v, hcur⟩
  · show (appendNew st.list >>= _) = _
    rw [show st.list.appendNew = .ok list from happ]
    rfl
  · have : Run.live ⟨list, st.appended ++ [v], st.held⟩
        = st.list.newVersion.2.remaining st.live ++ [v] := by
      have hself : list.refsOf v = 1 := hinst.refsOf_self
      rw [Run.live, List.filter_append, hlive]
      simp [hself]
    rw [this]
    exact hinst.listed
  · intro p hp
    simp only [hcur]
    rcases List.mem_append.mp hp with hp | hp
    · rw [hold p hp, h.refs p hp, h.listed.current,
        if_neg (show ¬ some v = some p from fun he => hne p hp (Option.some.inj he).symm)]
      by_cases he : st.live.getLast? = some p
      · rw [if_pos he, if_pos he.symm, Nat.add_sub_cancel, Nat.add_zero]
      · rw [if_neg he, if_neg (fun h' => he h'.symm)]
    · rw [List.mem_singleton.mp hp, hinst.refsOf_self, if_pos rfl, h.held v hvnot]
  · intro p hp
    exact h.held p fun hm => hp (List.mem_append_left _ hm)
  · exact List.nodup_append.mpr ⟨h.nodup, by simp, by
      intro p hp q hq
      rw [List.mem_singleton.mp hq]
      exact hne p hp⟩
  · intro p hp
    rw [hinst.nextVersion]
    show p < v + 1
    rcases List.mem_append.mp hp with hp | hp
    · exact (h.fresh p hp).trans (Nat.lt_succ_self _)
    · rw [List.mem_singleton.mp hp]
      exact Nat.lt_succ_self _

theorem ref (h : Counted st) {p : VersionPtr} (hp : st.Allowed (.ref p)) :
    ∃ st', st.step (.ref p) = .ok st' ∧ Counted st' ∧ st'.list.current = st.list.current := by
  obtain ⟨list, href, hlinked, hself, hbody, -, -, -, hcur, hnext⟩ :=
    h.listed.toLinked.ref ((mem_live p).mpr hp)
  have hrefs : ∀ q, q ≠ p → list.refsOf q = st.list.refsOf q := fun q hq =>
    refsOf_congr (hbody q hq)
  have hlive : (st.appended.filter fun q => 0 < list.refsOf q) = st.live := by
    refine List.filter_congr fun q _ => ?_
    by_cases he : q = p
    · subst he
      simp [hself, hp.2]
    · rw [hrefs q he]
  refine ⟨⟨list, st.appended, _⟩, by rw [Run.step, href]; rfl, ⟨?_, ?_, ?_, h.nodup, ?_⟩, hcur⟩
  · show Listed list (st.appended.filter fun q => 0 < list.refsOf q)
    rw [hlive]
    exact ⟨hlinked, by rw [hcur, h.listed.current]⟩
  · intro q hq
    simp only [hcur]
    by_cases he : q = p
    · subst he
      rw [hself, Function.update_self, h.refs q hq]
      omega
    · rw [hrefs q he, Function.update_of_ne he, h.refs q hq]
  · intro q hq
    have he : q ≠ p := fun he => hq (he ▸ hp.1)
    simp only [Function.update_of_ne he]
    exact h.held q hq
  · intro q hq
    simp only [hnext]
    exact h.fresh q hq

theorem unRef (h : Counted st) {p : VersionPtr} (hp : st.Allowed (.unRef p)) :
    ∃ st', st.step (.unRef p) = .ok st' ∧ Counted st' ∧ st'.list.current = st.list.current := by
  have hheld : 0 < st.held p := hp
  have hmem : p ∈ st.appended := by
    by_contra hn
    exact absurd (h.held p hn) (by omega)
  have hpos : 0 < st.list.refsOf p := by
    rw [h.refs p hmem]
    omega
  obtain ⟨list, hun, hr⟩ := h.listed.toLinked.unRef ((mem_live p).mpr ⟨hmem, hpos⟩)
  have hrefs : ∀ q, q ≠ p → list.refsOf q = st.list.refsOf q := fun q hq =>
    refsOf_congr (hr.body q hq)
  have hlive : (st.appended.filter fun q => 0 < list.refsOf q)
      = if st.list.refsOf p = 1 then st.live.erase p else st.live :=
    filter_of_pred h.nodup hr.refsOf (fun q _ he => hrefs q he) hpos
  refine ⟨⟨list, st.appended, _⟩, by rw [Run.step, hun]; rfl, ⟨?_, ?_, ?_, h.nodup, ?_⟩, hr.current⟩
  · show Listed list (st.appended.filter fun q => 0 < list.refsOf q)
    rw [hlive]
    refine ⟨hr.linked, ?_⟩
    rw [hr.current, h.listed.current]
    split_ifs with hone
    · -- `current_` has a reference of its own besides the client's
      refine (getLast?_erase_of_ne fun he => ?_).symm
      have hrefsp := h.refs p hmem
      rw [h.listed.current, if_pos he] at hrefsp
      omega
    · rfl
  · intro q hq
    simp only [hr.current]
    by_cases he : q = p
    · subst he
      rw [hr.refsOf, Function.update_self, h.refs q hq]
      omega
    · rw [hrefs q he, Function.update_of_ne he, h.refs q hq]
  · intro q hq
    have he : q ≠ p := fun he => hq (he ▸ hmem)
    simp only [Function.update_of_ne he]
    exact h.held q hq
  · intro q hq
    simp only [hr.nextVersion]
    exact h.fresh q hq

/-- **One call keeps the invariant**, and `current_` is never null after the first. -/
theorem step (h : Counted st) {call : Call} (hcall : st.Allowed call)
    (hc : call = .appendVersion ∨ ∃ c, st.list.current = some c) :
    ∃ st', st.step call = .ok st' ∧ Counted st' ∧ ∃ c, st'.list.current = some c := by
  cases call with
  | appendVersion => exact h.appendVersion
  | ref p =>
      obtain ⟨c, hc⟩ := hc.resolve_left nofun
      obtain ⟨st', hstep, h', hcur⟩ := h.ref hcall
      exact ⟨st', hstep, h', c, hcur.trans hc⟩
  | unRef p =>
      obtain ⟨c, hc⟩ := hc.resolve_left nofun
      obtain ⟨st', hstep, h', hcur⟩ := h.unRef hcall
      exact ⟨st', hstep, h', c, hcur.trans hc⟩

theorem sound (h : Counted st) {c : VersionPtr} (hc : st.list.current = some c) :
    Sound (.ok st) := by
  refine ⟨h.listed.ring, ?_⟩
  have hlast : st.live.getLast? = some c := by rw [← h.listed.current, hc]
  obtain ⟨l', hl'⟩ := List.getLast?_eq_some_iff.mp hlast
  have hring := h.listed.ring
  rw [hl'] at hring
  rw [hc, hring.prev_head_append]

end Counted

/-- **Runs from a dummy that is linked to itself.** Every call returns, and the list stays
sound. -/
theorem sound_of_reachable_selfLinked {r : Except Fault Run} (h : Reachable selfLinked r) :
    ∃ st, r = .ok st ∧ Sound (.ok st) := by
  suffices hall : ∃ st, r = .ok st ∧ Counted st ∧ ∃ c, st.list.current = some c by
    obtain ⟨st, hr, hst, c, hc⟩ := hall
    exact ⟨st, hr, hst.sound hc⟩
  induction h with
  | construct => exact counted_selfLinked.step trivial (.inl rfl)
  | step call _ hcall ih =>
      obtain ⟨st, hr, hst, hc⟩ := ih
      cases hr
      exact hst.step hcall (.inr hc)

end SimpleLeveldb.VersionList
