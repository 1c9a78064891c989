import SimpleLeveldb.Version.Atomic
import SimpleLeveldb.Version.Decoding

set_option autoImplicit false

/-! # Snapshots

What `decode_from` makes of the record that `write_snap_shot` adds to a new manifest: the name of the
comparator and the files of the current version, level by level.
-/

namespace SimpleLeveldb.VersionSet

open VersionEdit (Field KeyOk NewFileOk decodeFrom decodeFromVars decodeTurn encodeNewFile Uninit)

/-! ## The edit of a snapshot -/

/-- `current_` points to a version, and `files` are the files of its levels. -/
def CurrentFiles (vs : VersionSet) (files : Level → List FileMetaData) : Prop :=
  ∃ p v, vs.list.current = some p ∧ vs.list.versions p = some v
    ∧ ∀ level, (v.files level).map vs.list.files = (files level).map some

/-- The entry for a file: its number, its size and its keys. -/
def snapShotFile (level : Level) (m : FileMetaData) : Nat × FileMetaData :=
  (level.val,
    { number := m.number, fileSize := m.fileSize, smallest := m.smallest, largest := m.largest })

/-- The name of the comparator, and the files level by level. -/
def snapShotEdit (name : Bytes) (files : Level → List FileMetaData) : VersionEdit where
  comparator := name
  hasComparator := true
  newFiles := (List.finRange kNumLevels).flatMap fun level => (files level).map (snapShotFile level)

variable {vs : VersionSet} {files : Level → List FileMetaData}

/-- One level, by induction on its files. -/
theorem snapShotLevel_eq {list : VersionList} {v : Version} {level : Level}
    {ms : List FileMetaData} (h : (v.files level).map list.files = ms.map some) (edit : VersionEdit) :
    snapShotLevel list v edit level
      = .ok { edit with newFiles := edit.newFiles ++ ms.map (snapShotFile level) } := by
  unfold snapShotLevel
  generalize v.files level = fs at h
  induction fs generalizing ms edit with
  | nil =>
      obtain rfl : ms = [] := List.map_eq_nil_iff.mp h.symm
      rw [List.map_nil, List.append_nil]
      rfl
  | cons f fs ih =>
      cases ms with
      | nil => cases h
      | cons m ms =>
          obtain ⟨hm, hms⟩ := List.cons.inj h
          have hread : list.readFile f = .ok m := by
            rw [VersionList.readFile, hm]
          rw [List.foldlM_cons, hread, ok_bind, pure_bind, ih _ hms]
          simp [VersionEdit.addFile, snapShotFile]

/-- All levels. -/
theorem snapShotLevels_eq {list : VersionList} {v : Version}
    (h : ∀ level, (v.files level).map list.files = (files level).map some) (levels : List Level)
    (edit : VersionEdit) :
    levels.foldlM (snapShotLevel list v) edit
      = .ok { edit with
          newFiles := edit.newFiles
            ++ levels.flatMap fun level => (files level).map (snapShotFile level) } := by
  induction levels generalizing edit with
  | nil =>
      rw [List.flatMap_nil, List.append_nil]
      rfl
  | cons level levels ih =>
      rw [List.foldlM_cons, snapShotLevel_eq (h level), ok_bind, ih, List.flatMap_cons,
        List.append_assoc]

/-- **The edit**, when no compact pointer is set. -/
theorem CurrentFiles.snapShot (h : vs.CurrentFiles files) (hc : ∀ level, vs.compactPointer level = []) :
    vs.snapShot = .ok (snapShotEdit vs.icmp.userComparator.name files) := by
  obtain ⟨p, v, hp, hv, hfiles⟩ := h
  have hpointer : ∀ edit level, vs.snapShotCompactPointer edit level = edit := by
    intro edit level
    rw [snapShotCompactPointer, hc]
    rfl
  rw [VersionSet.snapShot, hp]
  simp only [deref, ok_bind, VersionList.readVersion_of_some hv]
  rw [List.foldl_fixed' (hpointer _), snapShotLevels_eq hfiles]
  rfl

theorem wellFormed_snapShotEdit {name : Bytes} (hname : name.length < 2 ^ 32)
    (hfiles : ∀ level, ∀ m ∈ files level, KeyOk m.smallest ∧ KeyOk m.largest) :
    (snapShotEdit name files).WellFormed where
  comparator := fun h => (nomatch h)
  comparator_length := hname
  logNumber := fun _ => rfl
  prevLogNumber := fun _ => rfl
  nextFileNumber := fun _ => rfl
  lastSequence := fun _ => rfl
  newFiles := fun q hq => by
    obtain ⟨level, -, hq⟩ := List.mem_flatMap.mp hq
    obtain ⟨m, hm, rfl⟩ := List.mem_map.mp hq
    obtain ⟨hsmallest, hlargest⟩ := hfiles level m hm
    exact ⟨level.isLt, rfl, rfl, hsmallest, hlargest⟩

/-! ## The record -/

/-- `write_snap_shot` adds a record that is read back as the edit for the given files. -/
def Faithful (vs : VersionSet) (files : Level → List FileMetaData) : Prop :=
  ∃ record, (vs.snapShot >>= VersionEdit.encodeTo) = .ok record
    ∧ (∀ log env, vs.writeSnapShot log env = log.addRecord record env)
    ∧ ∀ uninit, decodeFromVars uninit record
      = .ok (.ok, snapShotEdit vs.icmp.userComparator.name files)

/-- **A snapshot is faithful** when its strings are shorter than 2^32 bytes. -/
theorem CurrentFiles.faithful (h : vs.CurrentFiles files)
    (hc : ∀ level, vs.compactPointer level = [])
    (hname : vs.icmp.userComparator.name.length < 2 ^ 32)
    (hfiles : ∀ level, ∀ m ∈ files level, KeyOk m.smallest ∧ KeyOk m.largest) :
    vs.Faithful files := by
  have hedit := h.snapShot hc
  obtain ⟨record, henc, hdec⟩ := (wellFormed_snapShotEdit hname hfiles).decodeFrom_encodeTo rfl
  refine ⟨record, by rw [hedit, ok_bind, henc], fun log env => ?_, fun uninit => ?_⟩
  · rw [writeSnapShot, hedit, ok_bind, henc, ok_bind]
  · rw [VersionEdit.decodeFromVars_eq, hdec]
    rfl

/-! ## Several files -/

/-- Files on the levels 0, 1 and 3. -/
def severalPtrs (level : Level) : List FilePtr :=
  if level.val = 0 then [0, 1] else if level.val = 1 then [2]
  else if level.val = 3 then [3, 4] else []

/-- Every file has its number, its size and its keys, of which the user keys have one byte. -/
def severalFile (f : FilePtr) : FileMetaData where
  refs := 1
  number := BitVec.ofNat 64 (f + 5)
  fileSize := BitVec.ofNat 64 (4096 * f)
  smallest := BitVec.ofNat 8 (2 * f) :: zeros 8
  largest := BitVec.ofNat 8 (2 * f + 1) :: zeros 8

def severalFilesSet : VersionSet :=
  { oneVersionSet with
    list := { oneVersion with
      versions := fun p =>
        if p = 1 then some { next := some 0, prev := some 0, refs := 1, files := severalPtrs }
        else oneVersion.versions p
      files := fun f => if f < 5 then some (severalFile f) else none } }

theorem severalFilesSet_faithful :
    severalFilesSet.Faithful fun level => (severalPtrs level).map severalFile := by
  refine CurrentFiles.faithful ⟨1, _, rfl, rfl, fun level => ?_⟩ (fun _ => rfl) (by decide) ?_
  · fin_cases level <;> rfl
  · intro level m hm
    obtain ⟨f, -, rfl⟩ := List.mem_map.mp hm
    have hshort : (zeros 8).length + 1 < 2 ^ 32 := by decide
    exact ⟨⟨List.cons_ne_nil _ _, hshort⟩, List.cons_ne_nil _ _, hshort⟩

/-! ## One file -/

/-- The current version has one file, at level 0, whose smallest key is `key`. -/
def oneFile (key : InternalKey) : FileMetaData :=
  { refs := 1, number := 5, smallest := key, largest := zeros 8 }

def oneFileSet (key : InternalKey) : VersionSet :=
  { oneVersionSet with
    list := { oneVersion with files := fun f => if f = 0 then some (oneFile key) else none } }

def oneFileFiles (key : InternalKey) (level : Level) : List FileMetaData :=
  if level.val = 0 then [oneFile key] else []

theorem oneFileSet_currentFiles (key : InternalKey) :
    (oneFileSet key).CurrentFiles (oneFileFiles key) := by
  refine ⟨1, _, rfl, rfl, fun level => ?_⟩
  unfold oneFileFiles
  dsimp only
  split_ifs <;> rfl

/-- A key of 2^32 bytes is written with the length 0, and read as an empty key. -/
theorem getNewFile_long {key : InternalKey} (hkey : key.length = 2 ^ 32) {level : Nat}
    (hlevel : level < kNumLevels) (number fileSize : U64) (rest : Bytes) :
    VersionEdit.getNewFile (putVarint32 (BitVec.ofNat 32 level) ++ (putVarint64 number
      ++ (putVarint64 fileSize ++ (putLengthPrefixedSlice key ++ rest)))) = none := by
  have hempty : putLengthPrefixedSlice key ++ rest = putLengthPrefixedSlice [] ++ (key ++ rest) := by
    unfold putLengthPrefixedSlice
    rw [hkey]
    simp
  have hget : VersionEdit.getInternalKey (putLengthPrefixedSlice [] ++ (key ++ rest)) = none := by
    rw [VersionEdit.getInternalKey, getLengthPrefixedSlice_put (by decide)]
    rfl
  rw [hempty]
  simp only [VersionEdit.getNewFile, VersionEdit.getLevel_put hlevel, getVarint64_putVarint64,
    Option.bind_eq_bind, Option.bind_some, hget, Option.bind_none]

theorem decodeTurn_newFile_none {rest : Bytes} (h : VersionEdit.getNewFile rest = none)
    (e : VersionEdit) :
    decodeTurn (e, putVarint32 kNewFile ++ rest)
      = .ok (.inr (.corruption (text "version_edit") (text "new-file entry"), e)) := by
  have hfield : VersionEdit.decodeField e kNewFile rest = .error (text "new-file entry") := by
    rw [VersionEdit.decodeField_newFile, h]
    rfl
  rw [decodeTurn]
  simp only [getVarint32_putVarint32, hfield]

/-- What is written of the version set with one file. -/
theorem oneFileSet_record {key : InternalKey} (hkey : key ≠ []) :
    ((oneFileSet key).snapShot >>= VersionEdit.encodeTo)
      = .ok ((Field.comparator (text "order")).encode
        ++ (Field.newFile 0 (oneFile key)).encode) := by
  have hfile : encodeNewFile (snapShotFile ⟨0, by decide⟩ (oneFile key))
      = .ok (Field.newFile 0 (oneFile key)).encode := by
    rw [encodeNewFile]
    simp only [snapShotFile, oneFile, InternalKey.encode_of_ne_nil hkey,
      InternalKey.encode_of_ne_nil (show zeros 8 ≠ [] by decide), ok_bind]
    rfl
  rw [(oneFileSet_currentFiles key).snapShot fun _ => rfl, ok_bind, VersionEdit.encodeTo]
  have hfiles : (snapShotEdit (text "order") (oneFileFiles key)).newFiles
      = [snapShotFile ⟨0, by decide⟩ (oneFile key)] := rfl
  have hname : (oneFileSet key).icmp.userComparator.name = text "order" := rfl
  rw [hname, hfiles, List.mapM_cons, hfile]
  simp [VersionEdit.encodeScalars, snapShotEdit, Field.encode]

/-- The record of a file with a key of 2^32 bytes is not read back. -/
theorem not_forall_faithful :
    ¬ ∀ (vs : VersionSet) (files : Level → List FileMetaData), vs.CurrentFiles files →
      (∀ level, vs.compactPointer level = []) →
      (∀ level, ∀ m ∈ files level, m.smallest ≠ [] ∧ m.largest ≠ []) → vs.Faithful files := by
  intro hall
  obtain ⟨key, hkey⟩ : ∃ key : Bytes, key.length = 2 ^ 32 := by
    refine ⟨List.replicate (2 ^ 32) 0, ?_⟩
    rw [List.length_replicate]
  have hne : key ≠ [] := by
    rintro rfl
    cases hkey
  obtain ⟨record, hrecord, -, hdec⟩ := hall (oneFileSet key) _ (oneFileSet_currentFiles key)
    (fun _ => rfl) fun level m hm => by
      unfold oneFileFiles at hm
      split_ifs at hm
      · obtain rfl := List.mem_singleton.mp hm
        exact ⟨hne, show zeros 8 ≠ [] by decide⟩
      · cases hm
  rw [oneFileSet_record hne] at hrecord
  cases hrecord
  have hrun := hdec {}
  rw [VersionEdit.decodeFromVars_eq, decodeFrom, List.length_append] at hrun
  have hpos := Field.encode_length_pos (.comparator (text "order"))
  obtain ⟨n, hn⟩ : ∃ n, (Field.comparator (text "order")).encode.length
      + (Field.newFile 0 (oneFile key)).encode.length = n + 1 := Nat.exists_eq_add_one.mpr (by omega)
  have hname : (Field.comparator (text "order")).Ok := show (text "order").length < 2 ^ 32 by decide
  rw [hn, Loop.run_inl _ (VersionEdit.decodeTurn_field hname _ _)] at hrun
  have hlong := decodeTurn_newFile_none
    (getNewFile_long hkey (show 0 < kNumLevels by decide) 5 0 (putLengthPrefixedSlice (zeros 8)))
    ((Field.comparator (text "order")).apply {})
  simp only [Field.encode, oneFile, List.append_assoc] at hrun
  rw [Loop.run_inr _ hlong] at hrun
  cases hrun

end SimpleLeveldb.VersionSet
