import SimpleLeveldb.Version.VersionEdit

set_option autoImplicit false

/-! # The round trip of version edits

Which edits, among all that the setters can build, `decode_from` gives back as `encode_to`
wrote them: those without compact pointers and without deleted files.
-/

namespace SimpleLeveldb.VersionEdit

/-- A call of one of the functions that build an edit. -/
inductive Update where
  | setComparatorName (name : Bytes)
  | setLogNumber (num : U64)
  | setPrevLogNumber (num : U64)
  | setNextFile (num : U64)
  | setLastSequence (seq : U64)
  | setCompactPointer (level : Nat) (key : InternalKey)
  | addFile (level : Nat) (file fileSize : U64) (smallest largest : InternalKey)
  | removeFile (level : Nat) (file : U64)

def update (e : VersionEdit) : Update → VersionEdit
  | .setComparatorName name => e.setComparatorName name
  | .setLogNumber num => e.setLogNumber num
  | .setPrevLogNumber num => e.setPrevLogNumber num
  | .setNextFile num => e.setNextFile num
  | .setLastSequence seq => e.setLastSequence seq
  | .setCompactPointer level key => e.setCompactPointer level key
  | .addFile level file fileSize smallest largest => e.addFile level file fileSize smallest largest
  | .removeFile level file => e.removeFile level file

/-- The edit that a sequence of calls builds. -/
def built (us : List Update) : VersionEdit := us.foldl update {}

/-- Levels from 0 to 6, keys that are not empty, and strings shorter than 2^32 bytes. -/
def Update.Ok : Update → Prop
  | .setComparatorName name => name.length < 2 ^ 32
  | .setCompactPointer level key => level < kNumLevels ∧ KeyOk key
  | .addFile level _ _ smallest largest => level < kNumLevels ∧ KeyOk smallest ∧ KeyOk largest
  | .removeFile level _ => level < kNumLevels
  | _ => True

/-- `encode_to` and then `decode_from` return OK and the same edit. -/
def RoundTrips (e : VersionEdit) : Prop :=
  ∃ bytes, e.encodeTo = .ok bytes ∧ decodeFrom bytes = .ok (.ok, e)

/-- Each call keeps the edit well formed. -/
theorem wellFormed_update {e : VersionEdit} (h : e.WellFormed) {u : Update} (hu : u.Ok) :
    (e.update u).WellFormed := by
  cases u with
  | setComparatorName name => exact { h with comparator := fun hf => (nomatch hf), comparator_length := hu }
  | setLogNumber num => exact { h with logNumber := fun hf => (nomatch hf) }
  | setPrevLogNumber num => exact { h with prevLogNumber := fun hf => (nomatch hf) }
  | setNextFile num => exact { h with nextFileNumber := fun hf => (nomatch hf) }
  | setLastSequence seq => exact { h with lastSequence := fun hf => (nomatch hf) }
  | setCompactPointer level key => exact { h with }
  | removeFile level file => exact { h with }
  | addFile level file fileSize smallest largest =>
      refine { h with newFiles := fun p hp => ?_ }
      rcases List.mem_append.mp hp with hp | hp
      · exact h.newFiles p hp
      · rw [List.mem_singleton.mp hp]
        exact ⟨hu.1, rfl, rfl, hu.2.1, hu.2.2⟩

theorem wellFormed_built {us : List Update} (h : ∀ u ∈ us, u.Ok) : (built us).WellFormed := by
  have hempty : ({} : VersionEdit).WellFormed := by
    constructor <;> simp
  unfold built
  generalize ({} : VersionEdit) = e at hempty ⊢
  induction us generalizing e with
  | nil => exact hempty
  | cons u us ih =>
      exact ih (fun v hv => h v (List.mem_cons_of_mem u hv)) _
        (wellFormed_update hempty (h u List.mem_cons_self))

/-- A lost field is a compact pointer or a deleted file. -/
theorem lost_of_roundTrips {e : VersionEdit} (h : e.WellFormed) (hr : RoundTrips e) :
    e.compactPointers = [] ∧ e.deletedFiles = ∅ := by
  obtain ⟨bytes, henc, hdec⟩ := hr
  have hc := decodeFrom_compactPointers hdec
  obtain ⟨bytes', henc', hdec'⟩ := h.decodeFrom_encodeTo hc
  rw [henc] at henc'
  cases henc'
  rw [hdec] at hdec'
  have he : e = { e with deletedFiles := ∅ } := by simpa using hdec'
  exact ⟨hc, by rw [he]⟩

/-- **The round trip** holds exactly for the edits without compact pointers and without
deleted files. -/
theorem roundTrips_built_iff {us : List Update} (h : ∀ u ∈ us, u.Ok) :
    RoundTrips (built us) ↔ (built us).compactPointers = [] ∧ (built us).deletedFiles = ∅ := by
  have hwf := wellFormed_built h
  constructor
  · exact lost_of_roundTrips hwf
  · rintro ⟨hc, hd⟩
    obtain ⟨bytes, henc, hdec⟩ := hwf.decodeFrom_encodeTo hc
    exact ⟨bytes, henc, by rw [hdec, ← hd]⟩

theorem roundTrips_built_newFile :
    RoundTrips (built [.setLogNumber 7, .addFile 2 5 4096 (text "a0000000") (text "b0000000")]) :=
  (roundTrips_built_iff (by simp [Update.Ok, KeyOk, kNumLevels, text])).mpr ⟨rfl, rfl⟩

/-- The deletion of the file 5 at level 1 is not written. -/
theorem not_roundTrips_removeFile : ¬ RoundTrips (built [.removeFile 1 5]) := by
  intro h
  have hlost := lost_of_roundTrips (wellFormed_built (by simp [Update.Ok, kNumLevels])) h
  exact absurd hlost.2 (by decide)

end SimpleLeveldb.VersionEdit
