import SimpleLeveldb.Version.VersionEdit
import SimpleLeveldb.Lib.Ring
import Mathlib.Data.Rat.Defs

set_option autoImplicit false

/-! # The list of versions (`version`, and the list in `version_set`)

The versions of a database are heap objects in a circular list through `dummy_versions_`,
counted by `refs_`; a version owns table files, which versions share and which are counted as
well. A pointer to a version is a number, the one to `dummy_versions_` is 0, and a null pointer
is `none`. Following a null pointer is the fault `nullLink`, following one to an object that
is gone `badAccess`.
-/

namespace SimpleLeveldb

abbrev VersionPtr := Nat

abbrev FilePtr := Nat

/-- `version`, as its constructor makes it. The scores are exact rationals. -/
structure Version where
  next : Option VersionPtr := none
  prev : Option VersionPtr := none
  refs : Nat := 0
  files : Level → List FilePtr := fun _ => []
  fileToCompact : Option FilePtr := none
  fileToCompactLevel : Int := -1
  compactionScore : ℚ := -1
  compactionLevel : Int := -1

/-- The files of a version, level by level. -/
def Version.allFiles (v : Version) : List FilePtr := (List.finRange kNumLevels).flatMap v.files

/-- The address of `dummy_versions_`. -/
def dummyVersions : VersionPtr := 0

/-- The versions and the table files that are alive, the next free address, and `current_`. -/
structure VersionList where
  versions : VersionPtr → Option Version
  files : FilePtr → Option FileMetaData
  nextVersion : VersionPtr
  current : Option VersionPtr

namespace VersionList

/-! ## Objects -/

def readVersion (vl : VersionList) (p : VersionPtr) : Except Fault Version :=
  match vl.versions p with
  | some v => .ok v
  | none => .error .badAccess

/-- Change a field of the version at `p`. -/
def modifyVersion (vl : VersionList) (p : VersionPtr) (f : Version → Version) :
    Except Fault VersionList :=
  match vl.versions p with
  | some v => .ok { vl with versions := Function.update vl.versions p (some (f v)) }
  | none => .error .badAccess

def readFile (vl : VersionList) (f : FilePtr) : Except Fault FileMetaData :=
  match vl.files f with
  | some m => .ok m
  | none => .error .badAccess

/-- `new version( this )` -/
def newVersion (vl : VersionList) : VersionPtr × VersionList :=
  (vl.nextVersion, { vl with
    versions := Function.update vl.versions vl.nextVersion (some {})
    nextVersion := vl.nextVersion + 1 })

/-! ## Reference counts -/

/-- `version::ref` -/
def ref (vl : VersionList) (p : VersionPtr) : Except Fault VersionList :=
  vl.modifyVersion p fun v => { v with refs := v.refs + 1 }

/-- One turn of the loop of `~version`. -/
def dropFile (vl : VersionList) (f : FilePtr) : Except Fault VersionList := do
  let m ← vl.readFile f
  require (0 < m.refs)
  let m' : Option FileMetaData := if m.refs - 1 = 0 then none else some { m with refs := m.refs - 1 }
  return { vl with files := Function.update vl.files f m' }

/-- `~version`: the version at `p` is taken out of the list, and its files are released. -/
def deleteVersion (vl : VersionList) (p : VersionPtr) : Except Fault VersionList := do
  let v ← vl.readVersion p
  require (v.refs = 0)
  let prev ← deref v.prev
  let vl ← vl.modifyVersion prev fun u => { u with next := v.next }
  let next ← deref v.next
  let vl ← vl.modifyVersion next fun u => { u with prev := v.prev }
  let vl ← v.allFiles.foldlM dropFile vl
  return { vl with versions := Function.update vl.versions p none }

/-- `version::un_ref` -/
def unRef (vl : VersionList) (p : VersionPtr) : Except Fault VersionList := do
  require (p ≠ dummyVersions)
  let v ← vl.readVersion p
  require (1 ≤ v.refs)
  let vl ← vl.modifyVersion p fun v => { v with refs := v.refs - 1 }
  if v.refs - 1 = 0 then vl.deleteVersion p else return vl

/-! ## The list -/

/-- `if ( current_ != nullptr ) current_->un_ref();` -/
def unRefCurrent (vl : VersionList) : Except Fault VersionList :=
  match vl.current with
  | some c => vl.unRef c
  | none => .ok vl

/-- The assignments that put `v` between the last version and `dummy_versions_`. -/
def linkLast (vl : VersionList) (v : VersionPtr) : Except Fault VersionList := do
  let last := (← vl.readVersion dummyVersions).prev
  let vl ← vl.modifyVersion v fun u => { u with prev := last }
  let vl ← vl.modifyVersion v fun u => { u with next := some dummyVersions }
  let prev ← deref (← vl.readVersion v).prev
  let vl ← vl.modifyVersion prev fun u => { u with next := some v }
  let next ← deref (← vl.readVersion v).next
  vl.modifyVersion next fun u => { u with prev := some v }

/-- `append_version` -/
def appendVersion (vl : VersionList) (v : VersionPtr) : Except Fault VersionList := do
  require ((← vl.readVersion v).refs = 0)
  require (some v ≠ vl.current)
  let vl ← vl.unRefCurrent
  let vl ← VersionList.ref { vl with current := some v } v
  vl.linkLast v

/-- The list before the constructor of `version_set` appends a version: `dummy_versions_` is
as the constructor of `version` leaves it. -/
def initial : VersionList where
  versions := Function.update (fun _ => none) dummyVersions (some {})
  files := fun _ => none
  nextVersion := 1
  current := none

/-- The list that the constructor of `version_set` makes. -/
def construct : Except Fault VersionList :=
  let (v, vl) := initial.newVersion
  vl.appendVersion v

/-- It follows the null link of `dummy_versions_`. -/
theorem construct_nullLink : construct = .error .nullLink := rfl

/-- The numbers of the files of a version. -/
def fileNumbers (vl : VersionList) (v : Version) : Except Fault (List U64) :=
  v.allFiles.mapM fun f => do return (← vl.readFile f).number

/-- One turn of the loop of `add_live_files`, at the version `p` and with the numbers so far. -/
def addLiveFilesTurn (vl : VersionList) (st : Option VersionPtr × List U64) :
    Except Fault ((Option VersionPtr × List U64) ⊕ List U64) := do
  if st.1 = some dummyVersions then return .inr st.2
  let v ← vl.readVersion (← deref st.1)
  return .inl (v.next, st.2 ++ (← vl.fileNumbers v))

/-- `add_live_files`: the numbers inserted. There are fewer versions than addresses used. -/
def addLiveFiles (vl : VersionList) : Except Fault (List U64) := do
  let dummy ← vl.readVersion dummyVersions
  Loop.run .endless vl.addLiveFilesTurn (vl.nextVersion + 1) (dummy.next, [])

end VersionList

end SimpleLeveldb
