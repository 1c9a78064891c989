import SimpleLeveldb.KeyOrder
import SimpleLeveldb.Version.LastWriter

set_option autoImplicit false

/-! # What a builder accumulates (`version_set.cc`)

A builder keeps, level by level, the numbers that were deleted and the files that were added, next to
its base version. A number is live at a level when it was not deleted, and the base version or the
files that were added have it. Edits that are applied one after the other change the live pairs as
their deletions and additions do (`Builder.live_apply`), although an insertion into the added files may
be ignored, and a number may be deleted and added again.
-/

namespace SimpleLeveldb.VersionSet

open ThreeWay (IsTotal)

/-! ## Live pairs -/

/-- A level and the number of a file. -/
abbrev Pair := Level × U64

/-- The files of a version, by level and number. -/
def basePairs (vl : VersionList) (base : VersionPtr) : Set Pair :=
  {p | ∃ v, vl.versions base = some v
    ∧ ∃ ptr ∈ v.files p.1, ∃ f, vl.files ptr = some f ∧ f.number = p.2}

def addedPairs (levels : Level → LevelState) : Set Pair :=
  {p | ∃ f ∈ (levels p.1).addedFiles, f.number = p.2}

def deletedPairs (levels : Level → LevelState) : Set Pair :=
  {p | p.2 ∈ (levels p.1).deletedFiles}

/-- The pairs that are live in a builder. -/
def Builder.live (vl : VersionList) (b : Builder) : Set Pair :=
  {p | p ∉ deletedPairs b.levels ∧ (p ∈ basePairs vl b.base ∨ p ∈ addedPairs b.levels)}

/-- The pairs of `deleted_files_`. -/
def droppedBy (edit : VersionEdit) : Set Pair := {p | (p.1.val, p.2) ∈ edit.deletedFiles}

/-- The pairs of some entries of `new_files_`. -/
def newPairs (files : List (Nat × FileMetaData)) : Set Pair :=
  {p | ∃ f, (p.1.val, f) ∈ files ∧ f.number = p.2}

/-- What an edit does to the pairs of a version. -/
def editPairs (pairs : Set Pair) (edit : VersionEdit) : Set Pair :=
  pairs \ droppedBy edit ∪ newPairs edit.newFiles

/-- The last compact pointer of a level among some entries of `compact_pointers_`. -/
def lastPointer (pointers : List (Nat × InternalKey)) (level : Level) : Option Bytes :=
  ((pointers.filter fun p => p.1 = level.val).map Prod.snd).getLast?

/-- `apply` for each of the edits, with the `compact_pointer_` of the version set. -/
def applyAll (icmp : InternalKeyComparator) (compactPointer : Level → Bytes) (b : Builder)
    (edits : List VersionEdit) : Except Fault ((Level → Bytes) × Builder) :=
  edits.foldlM (fun st edit => Builder.apply icmp st.1 st.2 edit) (compactPointer, b)

variable {icmp : InternalKeyComparator}

/-! ## The added files -/

theorem length_of_extractUserKey {key userKey : Bytes} (h : extractUserKey key = .ok userKey) :
    8 ≤ key.length := by
  obtain ⟨_, hlen, -⟩ := bind_eq_ok.mp h
  exact of_require hlen

/-- Only full keys are compared. -/
theorem length_of_bySmallestKey {f g : FileMetaData} {r : Bool} (h : bySmallestKey icmp f g = .ok r) :
    8 ≤ f.smallest.length ∧ 8 ≤ g.smallest.length := by
  obtain ⟨_, hkeys, -⟩ := bind_eq_ok.mp h
  obtain ⟨a, ha, hkeys⟩ := bind_eq_ok.mp hkeys
  obtain ⟨b, hb, hkeys⟩ := bind_eq_ok.mp hkeys
  obtain ⟨_, -, ha⟩ := bind_eq_ok.mp ha
  obtain ⟨_, -, hb⟩ := bind_eq_ok.mp hb
  cases ha
  cases hb
  obtain ⟨_, hf, hkeys⟩ := bind_eq_ok.mp hkeys
  obtain ⟨_, hg, -⟩ := bind_eq_ok.mp hkeys
  exact ⟨length_of_extractUserKey hf, length_of_extractUserKey hg⟩

/-- A file that is not inserted has the number of one that is there. -/
theorem insertFile_numbers (htotal : icmp.Total) {f : FileMetaData} {l l' : List FileMetaData}
    (h : insertFile icmp f l = .ok l') (n : U64) :
    (∃ g ∈ l', g.number = n) ↔ f.number = n ∨ ∃ g ∈ l, g.number = n := by
  induction l generalizing l' with
  | nil =>
      cases h
      simp
  | cons g l ih =>
      obtain ⟨r₁, h₁, h⟩ := bind_eq_ok.mp h
      cases r₁ with
      | true =>
          cases h
          simp
      | false =>
          obtain ⟨r₂, h₂, h⟩ := bind_eq_ok.mp h
          cases r₂ with
          | true =>
              obtain ⟨rest, hrest, h⟩ := bind_eq_ok.mp h
              cases h
              rw [List.exists_mem_cons_iff, List.exists_mem_cons_iff, ih hrest, or_left_comm]
          | false =>
              -- neither comes first: the insertion is ignored, and the numbers are equal
              cases h
              obtain ⟨hf, hg⟩ := length_of_bySmallestKey h₁
              have hnumber : f.number = g.number := htotal.numbers ⟨f, hf⟩ ⟨g, hg⟩ h₁ h₂
              rw [List.exists_mem_cons_iff, hnumber, ← or_assoc, or_self]

theorem val_of_levelOf {n : Nat} {level : Level} (h : levelOf n = .ok level) : n = level.val := by
  unfold levelOf at h
  split_ifs at h
  cases h
  rfl

@[simp] theorem mem_newPairs_singleton {level : Level} {f : FileMetaData} {p : Pair} :
    p ∈ newPairs [(level.val, f)] ↔ p = (level, f.number) := by
  constructor
  · rintro ⟨g, hg, hnumber⟩
    obtain ⟨hlevel, rfl⟩ := Prod.mk.inj (List.mem_singleton.mp hg)
    exact Prod.ext (Fin.ext hlevel) hnumber.symm
  · rintro rfl
    exact ⟨f, List.mem_singleton.mpr rfl, rfl⟩

/-- One new file: it is among the added files, and no longer deleted. -/
theorem applyNewFile_pairs (htotal : icmp.Total) {levels levels' : Level → LevelState}
    {p : Nat × FileMetaData} (h : applyNewFile icmp levels p = .ok levels') :
    addedPairs levels' = addedPairs levels ∪ newPairs [p]
      ∧ deletedPairs levels' = deletedPairs levels \ newPairs [p] := by
  obtain ⟨n, f⟩ := p
  obtain ⟨level, hlevel, h⟩ := bind_eq_ok.mp h
  obtain ⟨added, hadded, h⟩ := bind_eq_ok.mp h
  cases h
  obtain rfl := val_of_levelOf hlevel
  have hnumbers := insertFile_numbers htotal hadded
  constructor
  · ext ⟨l, m⟩
    rw [Set.mem_union, mem_newPairs_singleton, Prod.mk.injEq]
    by_cases he : l = level
    · subst he
      simp only [addedPairs, Set.mem_ofPred_eq, Function.update_self, hnumbers, true_and]
      rw [or_comm, eq_comm]
    · simp only [addedPairs, Set.mem_ofPred_eq, Function.update_of_ne he, he, false_and, or_false]
  · ext ⟨l, m⟩
    rw [Set.mem_sdiff, mem_newPairs_singleton, Prod.mk.injEq]
    by_cases he : l = level
    · subst he
      simp only [deletedPairs, Set.mem_ofPred_eq, Function.update_self, Finset.mem_erase, true_and]
      rw [and_comm]
    · simp only [deletedPairs, Set.mem_ofPred_eq, Function.update_of_ne he, he, false_and,
        not_false_eq_true, and_true]

theorem newPairs_cons (p : Nat × FileMetaData) (files : List (Nat × FileMetaData)) :
    newPairs (p :: files) = newPairs [p] ∪ newPairs files := by
  ext q
  simp only [newPairs, Set.mem_ofPred_eq, Set.mem_union, List.mem_cons, List.not_mem_nil, or_false,
    or_and_right, exists_or]

/-- All new files of an edit, by induction on them. -/
theorem foldlM_applyNewFile_pairs (htotal : icmp.Total) {files : List (Nat × FileMetaData)}
    {levels levels' : Level → LevelState} (h : files.foldlM (applyNewFile icmp) levels = .ok levels') :
    addedPairs levels' = addedPairs levels ∪ newPairs files
      ∧ deletedPairs levels' = deletedPairs levels \ newPairs files := by
  induction files generalizing levels with
  | nil =>
      cases h
      have hnone : newPairs [] = ∅ := by
        ext p
        simp [newPairs]
      rw [hnone, Set.union_empty, Set.sdiff_empty]
      exact ⟨rfl, rfl⟩
  | cons p files ih =>
      rw [List.foldlM_cons] at h
      obtain ⟨levels₁, h₁, h⟩ := bind_eq_ok.mp h
      obtain ⟨hadded₁, hdeleted₁⟩ := applyNewFile_pairs htotal h₁
      obtain ⟨hadded, hdeleted⟩ := ih h
      rw [hadded, hadded₁, hdeleted, hdeleted₁, newPairs_cons p files, Set.union_assoc, Set.sdiff_sdiff]
      exact ⟨rfl, rfl⟩

/-! ## Applying an edit -/

/-- Deletions and additions in one step: what is added is live, whether it was deleted before or not. -/
theorem live_step {α : Type} (base added deleted dropped new : Set α) :
    {p | p ∉ (deleted ∪ dropped) \ new ∧ (p ∈ base ∨ p ∈ added ∪ new)}
      = {p | p ∉ deleted ∧ (p ∈ base ∨ p ∈ added)} \ dropped ∪ new := by
  ext p
  simp only [Set.mem_ofPred_eq, Set.mem_sdiff, Set.mem_union]
  tauto

/-- The loop over `deleted_files_` -/
theorem deletedPairs_applyDeletedFiles (levels : Level → LevelState) (edit : VersionEdit) :
    deletedPairs (fun level => ⟨(levels level).deletedFiles ∪ deletedAt edit.deletedFiles level,
        (levels level).addedFiles⟩)
      = deletedPairs levels ∪ droppedBy edit := by
  ext ⟨level, n⟩
  simp only [deletedPairs, droppedBy, deletedAt, Set.mem_ofPred_eq, Set.mem_union, Finset.mem_union,
    Finset.mem_image, Finset.mem_filter]
  refine or_congr_right ⟨?_, fun hmem => ⟨(level.val, n), ⟨hmem, rfl⟩, rfl⟩⟩
  rintro ⟨⟨l, m⟩, ⟨hmem, hl⟩, rfl⟩
  rw [← show l = level.val from hl]
  exact hmem

theorem Builder.live_apply (htotal : icmp.Total) (vl : VersionList) {cp cp' : Level → Bytes}
    {b b' : Builder} {edit : VersionEdit} (h : b.apply icmp cp edit = .ok (cp', b')) :
    b'.live vl = editPairs (b.live vl) edit := by
  obtain ⟨_, -, h⟩ := bind_eq_ok.mp h
  obtain ⟨levels₁, hdeleted, h⟩ := bind_eq_ok.mp h
  obtain ⟨levels₂, hnew, h⟩ := bind_eq_ok.mp h
  cases h
  unfold applyDeletedFiles at hdeleted
  split_ifs at hdeleted with hlevels
  cases hdeleted
  obtain ⟨hadded, hdel⟩ := foldlM_applyNewFile_pairs htotal hnew
  rw [deletedPairs_applyDeletedFiles] at hdel
  show {p | p ∉ deletedPairs levels₂ ∧ (p ∈ basePairs vl b.base ∨ p ∈ addedPairs levels₂)} = _
  rw [hadded, hdel]
  exact live_step _ _ _ _ _

@[simp] theorem lastPointer_singleton (p : Nat × InternalKey) (level : Level) :
    lastPointer [p] level = if p.1 = level.val then some p.2 else none := by
  unfold lastPointer
  rw [List.filter_singleton]
  split_ifs <;> simp_all

theorem lastPointer_append (first second : List (Nat × InternalKey)) (level : Level) (key : Bytes) :
    (lastPointer (first ++ second) level).getD key
      = (lastPointer second level).getD ((lastPointer first level).getD key) := by
  unfold lastPointer
  rw [List.filter_append, List.map_append, List.getLast?_append]
  cases ((second.filter fun p => p.1 = level.val).map Prod.snd).getLast? <;> rfl

theorem applyCompactPointers_eq {pointers : List (Nat × InternalKey)} {cp cp' : Level → Bytes}
    (h : pointers.foldlM applyCompactPointer cp = .ok cp') (level : Level) :
    cp' level = (lastPointer pointers level).getD (cp level) := by
  induction pointers generalizing cp with
  | nil =>
      cases h
      rfl
  | cons p pointers ih =>
      rw [List.foldlM_cons] at h
      obtain ⟨cp₁, h₁, h⟩ := bind_eq_ok.mp h
      obtain ⟨key, hkey, h₁⟩ := bind_eq_ok.mp h₁
      obtain ⟨l, hl, h₁⟩ := bind_eq_ok.mp h₁
      obtain ⟨_, -, hkey⟩ := bind_eq_ok.mp hkey
      cases h₁
      cases hkey
      rw [ih h, ← List.singleton_append, lastPointer_append, lastPointer_singleton]
      congr 1
      by_cases he : p.1 = level.val
      · obtain rfl : level = l := Fin.ext (he.symm.trans (val_of_levelOf hl))
        rw [Function.update_self, if_pos he, Option.getD_some]
      · have hne : level ≠ l := by
          rintro rfl
          exact he (val_of_levelOf hl)
        rw [Function.update_of_ne hne, if_neg he, Option.getD_none]

theorem Builder.compactPointer_apply {cp cp' : Level → Bytes} {b b' : Builder} {edit : VersionEdit}
    (h : b.apply icmp cp edit = .ok (cp', b')) (level : Level) :
    cp' level = (lastPointer edit.compactPointers level).getD (cp level) := by
  obtain ⟨cp₁, hcp, h⟩ := bind_eq_ok.mp h
  obtain ⟨_, -, h⟩ := bind_eq_ok.mp h
  obtain ⟨_, -, h⟩ := bind_eq_ok.mp h
  cases h
  exact applyCompactPointers_eq hcp level

/-! ## Applying edits -/

/-- **The fold**, by the edits: the live pairs, and the compact pointers. -/
theorem applyAll_pairs (htotal : icmp.Total) (vl : VersionList) {cp cp' : Level → Bytes}
    {b b' : Builder} {edits : List VersionEdit} (h : applyAll icmp cp b edits = .ok (cp', b')) :
    b'.live vl = edits.foldl editPairs (b.live vl)
      ∧ ∀ level, cp' level = (lastPointer (edits.flatMap VersionEdit.compactPointers) level).getD
        (cp level) := by
  unfold applyAll at h
  induction edits generalizing cp b with
  | nil =>
      cases h
      exact ⟨rfl, fun _ => rfl⟩
  | cons edit edits ih =>
      rw [List.foldlM_cons] at h
      obtain ⟨⟨cp₁, b₁⟩, h₁, h⟩ := bind_eq_ok.mp h
      obtain ⟨hlive, hpointers⟩ := ih h
      refine ⟨?_, fun level => ?_⟩
      · rw [hlive, Builder.live_apply htotal vl h₁, List.foldl_cons]
      · rw [hpointers, Builder.compactPointer_apply h₁, List.flatMap_cons, lastPointer_append]

/-! ## Edits that can be applied -/

/-- Levels that there are, and keys that can be encoded and compared. -/
structure Applicable (edit : VersionEdit) : Prop where
  compactPointers : ∀ p ∈ edit.compactPointers, p.1 < kNumLevels ∧ p.2 ≠ []
  deletedFiles : ∀ p ∈ edit.deletedFiles, p.1 < kNumLevels
  newFiles : ∀ p ∈ edit.newFiles, p.1 < kNumLevels
  longKeys : LongKeys edit

theorem Applicable.apply_ok {edit : VersionEdit} (h : Applicable edit) (icmp : InternalKeyComparator)
    (cp : Level → Bytes) {b : Builder} (hb : b.LongKeys) :
    ∃ cp' b', b.apply icmp cp edit = .ok (cp', b') ∧ b'.LongKeys := by
  have hturn : ∀ (cp : Level → Bytes), ∀ p ∈ edit.compactPointers,
      ∃ cp', applyCompactPointer cp p = .ok cp' := by
    intro cp p hp
    obtain ⟨hlevel, hkey⟩ := h.compactPointers p hp
    rw [applyCompactPointer, InternalKey.encode_of_ne_nil hkey, ok_bind, levelOf_of_lt hlevel]
    exact ⟨_, rfl⟩
  obtain ⟨cp', hcp⟩ := exists_foldlM_eq_ok hturn cp
  exact ⟨cp', hb.apply_of_pointers icmp hcp h.deletedFiles h.newFiles h.longKeys⟩

theorem applyAll_ok (icmp : InternalKeyComparator) (cp : Level → Bytes) {b : Builder} (hb : b.LongKeys)
    {edits : List VersionEdit} (h : ∀ edit ∈ edits, Applicable edit) :
    ∃ r, applyAll icmp cp b edits = .ok r := by
  obtain ⟨r, hr, -⟩ := exists_foldlM_of_invariant
    (f := fun (st : (Level → Bytes) × Builder) edit => Builder.apply icmp st.1 st.2 edit)
    (fun st => st.2.LongKeys) (a := (cp, b)) (fun st edit hedit hst => by
      obtain ⟨cp', b', happly, hb'⟩ := (h edit hedit).apply_ok icmp st.1 hst
      exact ⟨_, happly, hb'⟩) hb
  exact ⟨r, hr⟩

/-- **A builder folds edits**, for every user comparator that orders its keys. From a new builder on a
base version, edits that can be applied are applied. Whenever they have been applied, the pairs that are
live are what the edits make of the pairs of the base version, one after the other; the compact pointer
of a level is the last one that the edits give, or as it was. -/
theorem applyAll_folds (htotal : IsTotal icmp.userComparator.compare) (vl : VersionList)
    (base : VersionPtr) (cp : Level → Bytes) (edits : List VersionEdit) :
    ((∀ edit ∈ edits, Applicable edit) → ∃ r, applyAll icmp cp { base := base } edits = .ok r)
      ∧ ∀ cp' b', applyAll icmp cp { base := base } edits = .ok (cp', b') →
        b'.live vl = edits.foldl editPairs (basePairs vl base)
          ∧ ∀ level, cp' level = (lastPointer (edits.flatMap VersionEdit.compactPointers) level).getD
            (cp level) := by
  refine ⟨fun h => applyAll_ok icmp cp (fun level f hf => by cases hf) h, fun cp' b' h => ?_⟩
  have hnew : Builder.live vl { base := base } = basePairs vl base := by
    ext p
    simp [Builder.live, deletedPairs, addedPairs]
  rw [← hnew]
  exact applyAll_pairs (InternalKeyComparator.compare_total htotal) vl h

/-- A file is added, deleted and added again. -/
def addedAgain : List VersionEdit :=
  [({} : VersionEdit).addFile 0 5 100 (zeros 8) (zeros 8), ({} : VersionEdit).removeFile 0 5,
    (({} : VersionEdit).addFile 0 5 100 (zeros 9) (zeros 9)).setCompactPointer 1 (zeros 8)]

/-- It is live, and the last edit has set a compact pointer. -/
theorem applyAll_folds_again :
    ∃ cp' b', applyAll ⟨⟨text "length", fun a b => (a.length : Int) - b.length⟩⟩ (fun _ => [])
        { base := 1 } addedAgain = .ok (cp', b')
      ∧ (⟨0, by decide⟩, 5) ∈ b'.live oneVersionSet.list ∧ cp' ⟨1, by decide⟩ = zeros 8 := by
  obtain ⟨hok, hfolds⟩ := @applyAll_folds ⟨⟨text "length", _⟩⟩ isTotal_length
    oneVersionSet.list 1 (fun _ => []) addedAgain
  have happlicable : ∀ edit ∈ addedAgain,
      (∀ p ∈ edit.compactPointers, p.1 < kNumLevels ∧ p.2 ≠ [])
        ∧ (∀ p ∈ edit.deletedFiles, p.1 < kNumLevels) ∧ (∀ p ∈ edit.newFiles, p.1 < kNumLevels)
        ∧ ∀ p ∈ edit.newFiles, 8 ≤ p.2.smallest.length := by decide
  obtain ⟨⟨cp', b'⟩, happly⟩ := hok fun edit hedit =>
    have h := happlicable edit hedit
    ⟨h.1, h.2.1, h.2.2.1, h.2.2.2⟩
  obtain ⟨hlive, hpointers⟩ := hfolds cp' b' happly
  refine ⟨cp', b', happly, ?_, ?_⟩
  · rw [hlive]
    exact .inr ⟨_, List.mem_singleton.mpr rfl, rfl⟩
  · rw [hpointers]
    rfl

end SimpleLeveldb.VersionSet
