import SimpleLeveldb.Version.VersionSet
import Mathlib.Data.Rat.Cast.Order
import Mathlib.Order.Bounds.Basic
import Mathlib.Tactic.Positivity

set_option autoImplicit false

/-! # The compaction score

`finalize` looks for the level with the highest score, and `needs_compaction` asks whether that
score is at least 1. The comparison stands in the branch of the levels above 0, so that level 0 is
never the best one.
-/

namespace SimpleLeveldb

/-- The files that the file pointers of a version point to, level by level. -/
def VersionList.FilesAre (list : VersionList) (v : Version) (files : Level → List FileMetaData) :
    Prop :=
  ∀ level, List.Forall₂ (fun f m => list.files f = some m) (v.files level) (files level)

namespace VersionSet

/-- The bytes in a list of files. -/
def levelBytes (files : List FileMetaData) : Nat := (files.map fun m => m.fileSize.toNat).sum

/-- The score that a level is to have. -/
def scoreOf (files : Level → List FileMetaData) (level : Level) : ℚ :=
  if level.val = 0 then ((files level).length : ℚ) / 4
  else (levelBytes (files level) : ℚ) / maxBytesForLevel level.val

/-- What `finalize` is to leave in a version: the highest score of the levels below the last, and a
level that has it. -/
structure Scored (files : Level → List FileMetaData) (v : Version) : Prop where
  greatest : IsGreatest {s | ∃ level : Level, level.val < 6 ∧ s = scoreOf files level}
    v.compactionScore
  level : ∃ level : Level, level.val < 6 ∧ v.compactionLevel = level.val
    ∧ scoreOf files level = v.compactionScore

/-- A level has so much in it that it must be compacted. -/
def Overfull (files : Level → List FileMetaData) (level : Level) : Prop :=
  if level.val = 0 then 4 ≤ (files level).length
  else maxBytesForLevel level.val ≤ (levelBytes (files level) : ℚ)

/-- After `finalize` the version has its score, and a compaction is needed when a level below the
last is overfull. -/
def ScoresRight (list : VersionList) (p : VersionPtr) (files : Level → List FileMetaData) : Prop :=
  ∃ list' v, finalize list p = .ok list' ∧ list'.versions p = some v ∧ Scored files v
    ∧ ∀ vs : VersionSet, vs.list = list' → list'.current = some p →
      (∃ level : Level, level.val < 6 ∧ Overfull files level) → vs.needsCompaction = .ok true

/-! ## The scores -/

theorem maxBytesForLevel_pos (level : Nat) : 0 < maxBytesForLevel level := by
  unfold maxBytesForLevel
  positivity

theorem scoreOf_nonneg (files : Level → List FileMetaData) (level : Level) :
    0 ≤ scoreOf files level := by
  have := (maxBytesForLevel_pos level.val).le
  unfold scoreOf
  split_ifs
  · positivity
  · exact div_nonneg (by positivity) this

/-- An overfull level has a score of at least 1. -/
theorem one_le_scoreOf {files : Level → List FileMetaData} {level : Level}
    (h : Overfull files level) : 1 ≤ scoreOf files level := by
  unfold Overfull at h
  unfold scoreOf
  split_ifs at h ⊢
  · rw [le_div_iff₀ (by norm_num)]
    have : (4 : ℚ) ≤ ((files level).length : ℚ) := by exact_mod_cast h
    linarith
  · rw [le_div_iff₀ (maxBytesForLevel_pos _), one_mul]
    exact h

variable {list : VersionList} {v : Version} {files : Level → List FileMetaData}

theorem totalFileSize_eq {fs : List FilePtr} {ms : List FileMetaData}
    (h : List.Forall₂ (fun f m => list.files f = some m) fs ms) :
    totalFileSize list fs = .ok (BitVec.ofNat 64 (levelBytes ms)) := by
  have hsizes : fs.mapM (fun f => do return (← list.readFile f).fileSize)
      = (.ok (ms.map FileMetaData.fileSize) : Except Fault (List U64)) := by
    induction h with
    | nil => rfl
    | @cons f m fs ms hf _ ih =>
        have hread : list.readFile f = .ok m := by rw [VersionList.readFile, hf]
        rw [List.mapM_cons, hread, ih]
        rfl
  have hsum : ∀ ms : List FileMetaData,
      (ms.map FileMetaData.fileSize).sum = BitVec.ofNat 64 (levelBytes ms) := by
    intro ms
    induction ms with
    | nil => rfl
    | cons m ms ih =>
        have hcons : levelBytes (m :: ms) = m.fileSize.toNat + levelBytes ms := by
          rw [levelBytes, List.map_cons, List.sum_cons]
          rfl
        rw [List.map_cons, List.sum_cons, ih, hcons, BitVec.ofNat_add, BitVec.ofNat_toNat,
          BitVec.setWidth_eq]
  rw [totalFileSize, hsizes, ok_bind, hsum]
  rfl

theorem levelScore_eq (h : list.FilesAre v files) (hbytes : ∀ level, levelBytes (files level) < 2 ^ 63)
    (level : Level) : levelScore list v level = .ok (scoreOf files level) := by
  unfold levelScore scoreOf
  split_ifs
  · rw [(h level).length_eq]
    rfl
  · rw [totalFileSize_eq (h level), ok_bind, BitVec.toNat_ofNat,
      Nat.mod_eq_of_lt ((hbytes level).trans (by norm_num))]
    rfl

/-! ## The highest score -/

/-- The turn of the loop, once the scores are known. -/
def best (files : Level → List FileMetaData) (b : Int × ℚ) (level : Level) : Int × ℚ :=
  if level.val ≠ 0 ∧ scoreOf files level > b.2 then (level.val, scoreOf files level) else b

/-- What the loop leaves over `levels`: level 0 is passed over. -/
theorem foldl_best (files : Level → List FileMetaData) (levels : List Level) (b : Int × ℚ) :
    b.2 ≤ (levels.foldl (best files) b).2
      ∧ (∀ level ∈ levels, level.val ≠ 0 → scoreOf files level ≤ (levels.foldl (best files) b).2)
      ∧ (levels.foldl (best files) b = b ∨ ∃ level ∈ levels, level.val ≠ 0
        ∧ levels.foldl (best files) b = ((level.val : Int), scoreOf files level)) := by
  induction levels generalizing b with
  | nil => exact ⟨le_refl _, nofun, .inl rfl⟩
  | cons level levels ih =>
      obtain ⟨hle, hall, hfrom⟩ := ih (best files b level)
      have hb : b.2 ≤ (best files b level).2 := by
        unfold best
        split_ifs with h
        · exact h.2.le
        · exact le_refl _
      have hlevel : level.val ≠ 0 → scoreOf files level ≤ (best files b level).2 := by
        intro h0
        unfold best
        split_ifs with h
        · exact le_refl _
        · exact not_lt.mp fun hlt => h ⟨h0, hlt⟩
      rw [List.foldl_cons]
      refine ⟨hb.trans hle, ?_, ?_⟩
      · intro level' hmem h0
        rcases List.mem_cons.mp hmem with rfl | hmem
        · exact (hlevel h0).trans hle
        · exact hall level' hmem h0
      · rcases hfrom with he | ⟨level', hmem, h0, he⟩
        · rw [he]
          unfold best
          split_ifs with h
          · exact .inr ⟨level, List.mem_cons_self, h.1, rfl⟩
          · exact .inl rfl
        · exact .inr ⟨level', List.mem_cons_of_mem _ hmem, h0, he⟩

/-- **What `finalize` leaves**: the highest score of the levels 1 to 5. -/
theorem finalize_spec {p : VersionPtr} (hv : list.versions p = some v) (h : list.FilesAre v files)
    (hbytes : ∀ level, levelBytes (files level) < 2 ^ 63) :
    ∃ level : Level, level.val ≠ 0 ∧ level.val < 6
      ∧ (∀ level' : Level, level'.val ≠ 0 → level'.val < 6 → scoreOf files level' ≤ scoreOf files level)
      ∧ finalize list p = .ok { list with
        versions := Function.update list.versions p (some { v with
          compactionLevel := level.val, compactionScore := scoreOf files level }) } := by
  set levels := (List.finRange kNumLevels).filter fun level => level.val < kNumLevels - 1
    with hlevels
  have hmem : ∀ level : Level, level ∈ levels ↔ level.val < 6 := by
    intro level
    rw [hlevels, List.mem_filter, decide_eq_true_iff]
    exact and_iff_right (List.mem_finRange level)
  have hturn : finalizeTurn list v = fun b level => .ok (best files b level) := by
    funext b level
    rw [finalizeTurn, levelScore_eq h hbytes, ok_bind, best]
    split_ifs <;> rfl
  have hfold : levels.foldlM (finalizeTurn list v) (-1, -1)
      = .ok (levels.foldl (best files) (-1, -1)) := by
    rw [hturn]
    exact List.foldlM_pure
  obtain ⟨-, hall, hfrom⟩ := foldl_best files levels (-1, -1)
  obtain ⟨level, hlevel, h0, hbest⟩ : ∃ level ∈ levels, level.val ≠ 0
      ∧ levels.foldl (best files) (-1, -1) = ((level.val : Int), scoreOf files level) := by
    rcases hfrom with he | hfrom
    · -- the score of level 1 is higher than -1
      have h1 := hall ⟨1, by decide⟩ ((hmem _).mpr (by decide)) (by decide)
      rw [he] at h1
      have := scoreOf_nonneg files ⟨1, by decide⟩
      linarith
    · exact hfrom
  refine ⟨level, h0, (hmem level).mp hlevel, fun level' h0' hlt => ?_, ?_⟩
  · have := hall level' ((hmem level').mpr hlt) h0'
    rwa [hbest] at this
  · rw [finalize, VersionList.readVersion, hv]
    simp only [ok_bind, ← hlevels, hfold, hbest]
    rw [VersionList.modifyVersion, hv]

/-- Level 0 is never the best level, so another one must score as high. -/
theorem exists_le_of_scoresRight {p : VersionPtr} (hv : list.versions p = some v)
    (h : list.FilesAre v files) (hbytes : ∀ level, levelBytes (files level) < 2 ^ 63)
    (hright : ScoresRight list p files) : ∃ level : Level, level.val ≠ 0 ∧ level.val < 6
      ∧ scoreOf files ⟨0, by decide⟩ ≤ scoreOf files level := by
  obtain ⟨level, h0, hlt, -, hfinalize⟩ := finalize_spec hv h hbytes
  obtain ⟨list', v', hfinalize', hv', hscored, -⟩ := hright
  rw [hfinalize] at hfinalize'
  cases hfinalize'
  simp only [Function.update_self, Option.some_inj] at hv'
  subst hv'
  exact ⟨level, h0, hlt, hscored.greatest.2 ⟨_, by decide, rfl⟩⟩

/-- **The compaction score** is right exactly when level 0 does not score higher than all of the
levels 1 to 5. -/
theorem scoresRight_iff {p : VersionPtr} (hv : list.versions p = some v)
    (h : list.FilesAre v files) (hbytes : ∀ level, levelBytes (files level) < 2 ^ 63) :
    ScoresRight list p files ↔ ∃ level : Level, level.val ≠ 0 ∧ level.val < 6
      ∧ scoreOf files ⟨0, by decide⟩ ≤ scoreOf files level := by
  refine ⟨exists_le_of_scoresRight hv h hbytes, ?_⟩
  rintro ⟨level', h0', hlt', hle⟩
  obtain ⟨level, h0, hlt, hall, hfinalize⟩ := finalize_spec hv h hbytes
  -- the highest score of the levels 1 to 5 is the highest of all
  have hzero := hle.trans (hall level' h0' hlt')
  have htop : ∀ level'' : Level, level''.val < 6 → scoreOf files level'' ≤ scoreOf files level := by
    intro level'' hlt''
    by_cases h0'' : level''.val = 0
    · rwa [show level'' = ⟨0, by decide⟩ from Fin.ext h0'']
    · exact hall level'' h0'' hlt''
  refine ⟨_, _, hfinalize, Function.update_self _ _ _, ⟨⟨⟨level, hlt, rfl⟩, ?_⟩, level, hlt, rfl,
    rfl⟩, ?_⟩
  · rintro s ⟨level'', hlt'', rfl⟩
    exact htop level'' hlt''
  · rintro vs hlist hcurrent ⟨level'', hlt'', hfull⟩
    have hone : 1 ≤ scoreOf files level := (one_le_scoreOf hfull).trans (htop level'' hlt'')
    have hcurrent : list.current = some p := hcurrent
    rw [needsCompaction, hlist]
    simp only [hcurrent, deref, ok_bind, VersionList.readVersion, Function.update_self]
    rw [decide_eq_true hone]
    rfl

/-! ## A version with files on three levels -/

/-- The sizes of the files: 100 bytes on level 0, 9 MiB on level 1, and 20 MiB on level 2. -/
def threeSizes (level : Level) : List U64 :=
  if level.val = 0 then [100] else if level.val = 1 then [4194304, 5242880]
  else if level.val = 2 then [20971520] else []

def sizedFile (size : U64) : FileMetaData :=
  { number := 7, fileSize := size, smallest := [], largest := [] }

/-- The files, level by level. -/
def threeLevels (level : Level) : List FileMetaData := (threeSizes level).map sizedFile

/-- A list with one version that has these files, each at the address that is its size. -/
def threeLevelsList : VersionList where
  versions := Function.update (fun _ => none) 1
    (some { files := fun level => (threeSizes level).map BitVec.toNat })
  files := fun f => some (sizedFile (BitVec.ofNat 64 f))
  nextVersion := 2
  current := some 1

theorem filesAre_threeLevels : threeLevelsList.FilesAre
    { files := fun level => (threeSizes level).map BitVec.toNat } threeLevels := by
  intro level
  unfold threeLevels
  rw [List.forall₂_map_left_iff, List.forall₂_map_right_iff, List.forall₂_same]
  intro size _
  show some (sizedFile (BitVec.ofNat 64 size.toNat)) = some (sizedFile size)
  rw [BitVec.ofNat_toNat, BitVec.setWidth_eq]

/-- Level 1 scores 9/10, more than level 0 with its one file. -/
theorem scoresRight_iff_three : ScoresRight threeLevelsList 1 threeLevels := by
  refine (scoresRight_iff rfl filesAre_threeLevels (by decide)).mpr
    ⟨⟨1, by decide⟩, by decide, by decide, ?_⟩
  have hzero : scoreOf threeLevels ⟨0, by decide⟩ = ((1 : Nat) : ℚ) / 4 := rfl
  have hone : scoreOf threeLevels ⟨1, by decide⟩
      = ((9437184 : Nat) : ℚ) / (10 * 1048576 * 10 ^ (1 - 1)) := rfl
  rw [hzero, hone]
  norm_num

/-! ## A version with files on one level -/

/-- Files of the number 7 on the level `level`, without bytes. -/
def emptyFiles (count : Nat) (level : Level) : Level → List FileMetaData := fun l =>
  if l = level then List.replicate count { number := 7, smallest := [], largest := [] } else []

/-- A list with one version that has these files. -/
def emptyFilesList (count : Nat) (level : Level) : VersionList where
  versions := Function.update (fun _ => none) 1
    (some { files := fun l => if l = level then List.replicate count 0 else [] })
  files := Function.update (fun _ => none) 0 (some { number := 7, smallest := [], largest := [] })
  nextVersion := 2
  current := some 1

theorem filesAre_emptyFiles (count : Nat) (level : Level) :
    (emptyFilesList count level).FilesAre
      { files := fun l => if l = level then List.replicate count 0 else [] }
      (emptyFiles count level) := by
  intro l
  rw [emptyFiles]
  by_cases hl : l = level
  · simp only [if_pos hl]
    induction count with
    | zero => exact .nil
    | succ count ih => exact .cons rfl ih
  · simp only [if_neg hl]
    exact .nil

theorem levelBytes_emptyFiles (count : Nat) (level l : Level) :
    levelBytes (emptyFiles count level l) = 0 := by
  rw [emptyFiles, levelBytes]
  split_ifs
  · simp
  · rfl

/-- With four files on level 0 the score stays 0. -/
theorem not_scoresRight_four :
    ¬ ScoresRight (emptyFilesList 4 ⟨0, by decide⟩) 1 (emptyFiles 4 ⟨0, by decide⟩) := by
  intro hright
  have hbytes : ∀ level, levelBytes (emptyFiles 4 ⟨0, by decide⟩ level) < 2 ^ 63 := by
    intro level
    rw [levelBytes_emptyFiles]
    norm_num
  obtain ⟨level, h0, -, hle⟩ := exists_le_of_scoresRight rfl
    (filesAre_emptyFiles 4 ⟨0, by decide⟩) hbytes hright
  have hzero : scoreOf (emptyFiles 4 ⟨0, by decide⟩) ⟨0, by decide⟩ = 1 := by
    rw [scoreOf, if_pos rfl, emptyFiles, if_pos rfl, List.length_replicate]
    norm_num
  have hother : scoreOf (emptyFiles 4 ⟨0, by decide⟩) level = 0 := by
    rw [scoreOf, if_neg h0, levelBytes_emptyFiles]
    norm_num
  rw [hzero, hother] at hle
  norm_num at hle

end VersionSet

end SimpleLeveldb
