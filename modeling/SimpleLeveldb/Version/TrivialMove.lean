import SimpleLeveldb.Version.VersionSet

set_option autoImplicit false

/-! # The trivial move (`background_compaction`)

A compaction with one input file that overlaps nothing is to move that file down a level, by an edit
that deletes the file on its level and adds it on the next one. `background_compaction` adds it on
the level where it is.
-/

namespace SimpleLeveldb

/-- `compaction`, as far as `background_compaction` uses it: `input` is `input_[ 0 ]`. -/
structure Compaction where
  level : Nat
  input : List FileMetaData
  edit : VersionEdit := {}

/-- What `background_compaction` does. -/
inductive BackgroundJob where
  | compactMemTable
  | nothing
  | logAnyApply (edit : VersionEdit)
  | doCompactionWork (c : Compaction)

/-- The edit of a trivial move. -/
def Compaction.moveEdit (c : Compaction) : Except Fault VersionEdit := do
  require (c.input.length = 1)
  match c.input with
  | f :: _ =>
      return (c.edit.removeFile c.level f.number).addFile c.level f.number f.fileSize f.smallest
        f.largest
  | [] => .error .badAccess

/-- `background_compaction`: `c` is what `compact_range` or `pick_compaction` has returned, which the
repository declares only, like `is_trivial_move`. -/
def backgroundCompaction (isTrivialMove : Compaction → Bool) (hasImm isManual : Bool)
    (c : Option Compaction) : Except Fault BackgroundJob :=
  if hasImm then .ok .compactMemTable
  else
    match c with
    | none => .ok .nothing
    | some c =>
        if !isManual && isTrivialMove c then do return .logAnyApply (← c.moveEdit)
        else .ok (.doCompactionWork c)

/-! ## What is live -/

/-- The file `m` is on the level `level` after the builder `b` has been saved over the files `files`
of its base version: it was added there, or it was there and has not been deleted. -/
def VersionSet.Builder.HasFile (b : VersionSet.Builder) (files : Level → List FileMetaData)
    (level : Level) (m : FileMetaData) : Prop :=
  m ∈ (b.levels level).addedFiles
    ∨ m ∈ files level ∧ m.number ∉ (b.levels level).deletedFiles

/-- The number `number` is live on the level `level`. -/
def VersionSet.Builder.Live (b : VersionSet.Builder) (files : Level → List FileMetaData)
    (level : Level) (number : U64) : Prop :=
  ∃ m, b.HasFile files level m ∧ m.number = number

open VersionSet (Builder)

/-- After the builder `b` the file `f` is on the level `next` and no longer on `level`, and all other
files are where they were. -/
structure Moved (b : Builder) (files : Level → List FileMetaData) (level next : Level)
    (f : FileMetaData) : Prop where
  next : ∃ m, b.HasFile files next m ∧ m.number = f.number ∧ m.fileSize = f.fileSize
    ∧ m.smallest = f.smallest ∧ m.largest = f.largest
  gone : ¬ b.Live files level f.number
  others : ∀ number, number ≠ f.number → ∀ l, b.Live files l number
    ↔ ∃ m ∈ files l, m.number = number

/-- The edit of a trivial move, applied to the version that has the files `files`, moves the input
file `f` from `level` down to `next`. -/
def MovesDown (isTrivialMove : Compaction → Bool) (icmp : InternalKeyComparator)
    (compactPointer : Level → Bytes) (base : VersionPtr) (files : Level → List FileMetaData)
    (c : Compaction) (level next : Level) (f : FileMetaData) : Prop :=
  ∃ edit compactPointer' b,
    backgroundCompaction isTrivialMove false false (some c) = .ok (.logAnyApply edit)
      ∧ Builder.apply icmp compactPointer { base := base } edit = .ok (compactPointer', b)
      ∧ Moved b files level next f

/-! ## Where the file is -/

/-- The file that is added last is not among the deleted ones of its level. -/
theorem not_mem_deletedFiles_of_addFile {icmp : InternalKeyComparator}
    {compactPointer compactPointer' : Level → Bytes} {b b' : Builder} {edit : VersionEdit}
    {level : Level} {number fileSize : U64} {smallest largest : InternalKey}
    (h : Builder.apply icmp compactPointer b
      (edit.addFile level.val number fileSize smallest largest) = .ok (compactPointer', b')) :
    number ∉ (b'.levels level).deletedFiles := by
  unfold Builder.apply at h
  obtain ⟨cp, -, h⟩ := bind_eq_ok.mp h
  obtain ⟨levels, -, h⟩ := bind_eq_ok.mp h
  obtain ⟨levels', hlevels', h⟩ := bind_eq_ok.mp h
  cases h
  rw [VersionEdit.addFile, List.foldlM_append] at hlevels'
  obtain ⟨levels'', -, hlast⟩ := bind_eq_ok.mp hlevels'
  rw [List.foldlM_cons] at hlast
  obtain ⟨levels₃, hturn, hlast⟩ := bind_eq_ok.mp hlast
  cases hlast
  -- the last turn takes the number out of the deleted files of its level
  rw [VersionSet.applyNewFile, levelOf_of_lt level.isLt, ok_bind] at hturn
  obtain ⟨added, -, hturn⟩ := bind_eq_ok.mp hturn
  cases hturn
  show number ∉ (Function.update levels'' level _ level).deletedFiles
  rw [Function.update_self]
  exact Finset.notMem_erase _ _

/-- After a trivial move the file is still where it was. -/
theorem live_of_trivialMove {isTrivialMove : Compaction → Bool} {icmp : InternalKeyComparator}
    {compactPointer compactPointer' : Level → Bytes} {b b' : Builder}
    {files : Level → List FileMetaData} {c : Compaction} {level : Level} {f : FileMetaData}
    {edit : VersionEdit} (hlevel : c.level = level.val) (hinput : c.input = [f])
    (hf : f ∈ files level)
    (hjob : backgroundCompaction isTrivialMove false false (some c) = .ok (.logAnyApply edit))
    (happly : Builder.apply icmp compactPointer b edit = .ok (compactPointer', b')) :
    b'.Live files level f.number := by
  have hedit : edit = (c.edit.removeFile c.level f.number).addFile c.level f.number f.fileSize
      f.smallest f.largest := by
    unfold backgroundCompaction at hjob
    rw [if_neg Bool.false_ne_true] at hjob
    simp only [Bool.not_false, Bool.true_and] at hjob
    split_ifs at hjob
    rw [Compaction.moveEdit, hinput, require_of (List.length_singleton)] at hjob
    · cases hjob
      rfl
    · cases hjob
  rw [hedit, hlevel] at happly
  exact ⟨f, .inr ⟨hf, not_mem_deletedFiles_of_addFile happly⟩, rfl⟩

/-- **No trivial move moves its file**, whatever the version, the compaction and its edit. -/
theorem not_movesDown (isTrivialMove : Compaction → Bool) (icmp : InternalKeyComparator)
    (compactPointer : Level → Bytes) (base : VersionPtr) (files : Level → List FileMetaData)
    (c : Compaction) (level next : Level) (f : FileMetaData) (hlevel : c.level = level.val)
    (hinput : c.input = [f]) (hf : f ∈ files level) :
    ¬ MovesDown isTrivialMove icmp compactPointer base files c level next f := by
  rintro ⟨edit, compactPointer', b, hjob, happly, hmoved⟩
  exact hmoved.gone (live_of_trivialMove hlevel hinput hf hjob happly)

/-! ## A file on level 0 -/

def movingFile : FileMetaData := { number := 7, smallest := zeros 8, largest := zeros 8 }

def movingFiles (level : Level) : List FileMetaData := if level.val = 0 then [movingFile] else []

/-- The compaction of the file is a trivial move, and leaves it on level 0. -/
theorem not_movesDown_movingFile :
    ¬ MovesDown (fun _ => true) ⟨⟨text "order", fun a b => (a.length : Int) - b.length⟩⟩
      (fun _ => []) 1 movingFiles { level := 0, input := [movingFile] } ⟨0, by decide⟩
      ⟨1, by decide⟩ movingFile :=
  not_movesDown _ _ _ _ _ _ _ _ _ rfl rfl (List.mem_singleton.mpr rfl)

/-- The edit is built and applied, and the file is live where it was. -/
theorem not_moved_movingFile : ∃ edit compactPointer b,
    backgroundCompaction (fun _ => true) false false
        (some { level := 0, input := [movingFile] }) = .ok (.logAnyApply edit)
      ∧ Builder.apply ⟨⟨text "order", fun a b => (a.length : Int) - b.length⟩⟩ (fun _ => [])
        { base := 1 } edit = .ok (compactPointer, b)
      ∧ ¬ Moved b movingFiles ⟨0, by decide⟩ ⟨1, by decide⟩ movingFile := by
  obtain ⟨edit, hjob⟩ : ∃ edit, backgroundCompaction (fun _ => true) false false
      (some { level := 0, input := [movingFile] }) = .ok (.logAnyApply edit) := ⟨_, rfl⟩
  obtain ⟨compactPointer, b, happly⟩ : ∃ compactPointer b,
      Builder.apply ⟨⟨text "order", fun a b => (a.length : Int) - b.length⟩⟩ (fun _ => [])
        { base := 1 } edit = .ok (compactPointer, b) := by
    cases hjob
    exact ⟨_, _, rfl⟩
  refine ⟨edit, compactPointer, b, hjob, happly, fun hmoved => hmoved.gone ?_⟩
  exact live_of_trivialMove rfl rfl (List.mem_singleton.mpr rfl) hjob happly

end SimpleLeveldb
