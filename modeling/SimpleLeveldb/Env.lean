import SimpleLeveldb.Basic
import Mathlib.Data.List.AList

set_option autoImplicit false

/-! # The environment (`leveldb/env.h`, `leveldb/env.cc`)

The source reaches files only through the abstract class `env`. Here an environment is its
files, the locks this process holds, and a `script` of the outcomes of the operations to come:
an operation takes the next outcome (success when the script has ended), has its effect when
the outcome is `ok`, and leaves the files alone otherwise. A file handle is the name of the
file. `synced` counts the bytes of a file that a crash keeps; `readScript` holds the outcomes
of the reads of a `sequential_file` opened on it. How a file falls into pieces when it is read does
not matter (`Chunks.run`).
-/

namespace SimpleLeveldb

structure File where
  data : Bytes
  synced : Nat := 0
  readScript : List Status := []

structure Env where
  files : AList (fun _ : Bytes => File)
  script : List Status := []
  /-- the locks that this process holds -/
  locked : List Bytes := []
  /-- how often a lock was requested -/
  lockRequests : Nat := 0

/-! ## Sequential files -/

/-- `sequential_file`: the bytes not yet read, and the outcomes of the reads to come. -/
structure SequentialFile where
  rest : Bytes
  script : List Status := []

namespace SequentialFile

/-- `read( n, &result, scratch )`: `n` bytes, or all that are left. -/
def read (f : SequentialFile) (n : Nat) : Status × Bytes × SequentialFile :=
  match f.script with
  | .error c m :: script => (.error c m, [], { f with script := script })
  | _ => (.ok, f.rest.take n, ⟨f.rest.drop n, f.script.tail⟩)

/-- `skip( n )` -/
def skip (f : SequentialFile) (n : Nat) : Status × SequentialFile :=
  match f.script with
  | .error c m :: script => (.error c m, { f with script := script })
  | _ => (.ok, ⟨f.rest.drop n, f.script.tail⟩)

/-- All reads of the file succeed. -/
def Sound (f : SequentialFile) : Prop := f.script = []

/-- A read that returns OK gives `n` bytes, or all that are left. -/
theorem read_of_ok {f : SequentialFile} {n : Nat} (h : (f.read n).1 = .ok) :
    f.read n = (.ok, f.rest.take n, ⟨f.rest.drop n, f.script.tail⟩) := by
  unfold read at h ⊢
  split at h
  · cases h
  · rfl

theorem read_of_sound {f : SequentialFile} (h : f.Sound) (n : Nat) :
    f.read n = (.ok, f.rest.take n, ⟨f.rest.drop n, []⟩) := by
  unfold Sound at h
  simp [read, h]

end SequentialFile

/-! ## Reading to the end -/

/-- `kBufferSize` in `read_file_to_string` -/
def kBufferSize : Nat := 8192

section

variable {σ : Type} (read : σ → Status × Bytes × σ)

/-- One turn of the loop of `read_file_to_string`, where `read` reads from the file. -/
def readStringTurn (st : Bytes × σ) : Except Fault ((Bytes × σ) ⊕ (Status × Bytes)) :=
  let (s, fragment, file) := read st.2
  if !s.isOk then .ok (.inr (s, st.1))
  else if fragment.isEmpty then .ok (.inr (s, st.1 ++ fragment))
  else .ok (.inl (st.1 ++ fragment, file))

/-- The reads of a file that give OK give it piece by piece, and give nothing only at its end. On a
`Sound` file all reads give OK. -/
structure Chunks (rest : σ → Bytes) (Sound : σ → Prop) : Prop where
  split : ∀ f, (read f).1 = .ok → (read f).2.1 ++ rest (read f).2.2 = rest f
  finished : ∀ f, (read f).1 = .ok → (read f).2.1 = [] → rest f = []
  sound : ∀ f, Sound f → (read f).1 = .ok ∧ Sound (read f).2.2

variable {read}

/-- **Reading to the end**, in any pieces. -/
theorem Chunks.run {rest : σ → Bytes} {Sound : σ → Prop} (h : Chunks read rest Sound) (n : Nat)
    (acc : Bytes) (f : σ) (hn : (rest f).length < n) :
    ∃ s data, Loop.run .endless (readStringTurn read) n (acc, f) = .ok (s, data)
      ∧ (s = .ok → data = acc ++ rest f) ∧ (Sound f → s = .ok) := by
  induction n generalizing acc f with
  | zero => omega
  | succ n ih =>
      by_cases hok : (read f).1 = .ok
      · -- a read that gives nothing is the last one; every other one leaves less
        have hsplit := h.split f hok
        have hisOk := (Status.isOk_iff _).mpr hok
        by_cases hempty : (read f).2.1 = []
        · have hturn : readStringTurn read (acc, f) = .ok (.inr ((read f).1, acc ++ (read f).2.1)) := by
            simp [readStringTurn, hisOk, hempty]
          refine ⟨_, _, Loop.run_inr _ hturn n, fun _ => ?_, fun _ => hok⟩
          rw [hempty, h.finished f hok hempty]
        · have hturn : readStringTurn read (acc, f)
              = .ok (.inl (acc ++ (read f).2.1, (read f).2.2)) := by
            simp [readStringTurn, hisOk, List.isEmpty_eq_false_iff.mpr hempty]
          have hpos := List.length_pos_of_ne_nil hempty
          have hlen := congrArg List.length hsplit
          rw [List.length_append] at hlen
          obtain ⟨s, data, hrun, hdata, hsound⟩ :=
            ih (acc ++ (read f).2.1) (read f).2.2 (by omega)
          refine ⟨s, data, (Loop.run_inl _ hturn n).trans hrun, fun hs => ?_, fun hf => ?_⟩
          · rw [hdata hs, List.append_assoc, hsplit]
          · exact hsound (h.sound f hf).2
      · have hturn : readStringTurn read (acc, f) = .ok (.inr ((read f).1, acc)) := by
          simp [readStringTurn, mt (Status.isOk_iff _).mp hok]
        exact ⟨_, _, Loop.run_inr _ hturn n, fun hs => absurd hs hok,
          fun hf => absurd (h.sound f hf).1 hok⟩

end

/-- The files of an `Env` are read in pieces of full length. -/
theorem SequentialFile.chunks_read :
    Chunks (fun f : SequentialFile => f.read kBufferSize) SequentialFile.rest SequentialFile.Sound where
  split f hok := by
    rw [read_of_ok hok]
    exact List.take_append_drop _ _
  finished f hok hempty := by
    rw [read_of_ok hok, List.take_eq_nil_iff] at hempty
    exact hempty.resolve_left (by decide)
  sound f hf := by
    rw [read_of_sound hf]
    exact ⟨rfl, rfl⟩

namespace Env

/-! ## Operations -/

/-- Take the next outcome of the script; on success, the operation `f` happens. -/
def act (env : Env) (f : Env → Status × Env) : Status × Env :=
  match env.script with
  | .error c m :: script => (.error c m, { env with script := script })
  | _ => f { env with script := env.script.tail }

/-- `if ( s.is_ok() ) { s = next; }` -/
def andThen (r : Status × Env) (next : Env → Status × Env) : Status × Env :=
  if r.1.isOk then next r.2 else r

/-- Replace the contents of a file that exists. -/
def modify (env : Env) (fname : Bytes) (f : File → File) : Env :=
  match env.files.lookup fname with
  | some file => { env with files := env.files.insert fname (f file) }
  | none => env

def newWritableFile (fname : Bytes) (env : Env) : Status × Env :=
  env.act fun env => (.ok, { env with files := env.files.insert fname { data := [] } })

def newAppendableFile (fname : Bytes) (env : Env) : Status × Env :=
  env.act fun env =>
    (.ok, if fname ∈ env.files then env
      else { env with files := env.files.insert fname { data := [] } })

/-- `writable_file::append` on the file opened under the name `fname`. -/
def append (fname data : Bytes) (env : Env) : Status × Env :=
  env.act fun env => (.ok, env.modify fname fun f => { f with data := f.data ++ data })

/-- `writable_file::flush` -/
def flush (_fname : Bytes) (env : Env) : Status × Env := env.act fun env => (.ok, env)

/-- `writable_file::sync` -/
def sync (fname : Bytes) (env : Env) : Status × Env :=
  env.act fun env => (.ok, env.modify fname fun f => { f with synced := f.data.length })

/-- `writable_file::close` -/
def close (_fname : Bytes) (env : Env) : Status × Env := env.act fun env => (.ok, env)

def newSequentialFile (fname : Bytes) (env : Env) : Status × SequentialFile × Env :=
  let (s, env) := env.act fun env =>
    (if fname ∈ env.files then .ok else .notFound fname, env)
  match env.files.lookup fname with
  | some file => (s, ⟨file.data, file.readScript⟩, env)
  | none => (s, ⟨[], []⟩, env)

def fileExists (fname : Bytes) (env : Env) : Bool := decide (fname ∈ env.files)

def removeFile (fname : Bytes) (env : Env) : Status × Env :=
  env.act fun env =>
    (if fname ∈ env.files then .ok else .notFound fname,
      { env with files := env.files.erase fname })

def renameFile (src target : Bytes) (env : Env) : Status × Env :=
  env.act fun env =>
    match env.files.lookup src with
    | some file => (.ok, { env with files := (env.files.erase src).insert target file })
    | none => (.notFound src, env)

def createDir (_dirname : Bytes) (env : Env) : Status × Env := env.act fun env => (.ok, env)

/-- The size of a file. -/
def getFileSize (fname : Bytes) (env : Env) : Status × Nat × Env :=
  let (s, env) := env.act fun env =>
    (if fname ∈ env.files then .ok else .notFound fname, env)
  (s, ((env.files.lookup fname).map fun f => f.data.length).getD 0, env)

/-- The names of the files in the directory `dir`. -/
def children (dir : Bytes) (env : Env) : List Bytes :=
  let pre := dir ++ text "/"
  (env.files.keys.filter fun name => pre.isPrefixOf name).map fun name => name.drop pre.length

/-- `get_children`: the listing is empty when it fails. -/
def getChildren (dir : Bytes) (env : Env) : Status × List Bytes × Env :=
  let (s, env) := env.act fun env => (.ok, env)
  (s, if s.isOk then env.children dir else [], env)

/-- `lock_file`: a lock that this process holds cannot be acquired again. -/
def lockFile (fname : Bytes) (env : Env) : Status × Env :=
  { env with lockRequests := env.lockRequests + 1 }.act fun env =>
    if fname ∈ env.locked then
      (.ioError (text "lock " ++ fname) (text "already held by process"), env)
    else (.ok, { env with locked := fname :: env.locked })

/-- `do_write_string_to_file` -/
def doWriteStringToFile (data fname : Bytes) (shouldSync : Bool) (env : Env) : Status × Env :=
  let (s, env) := env.newWritableFile fname
  if s.isOk then
    let r := env.append fname data
    let r := andThen r fun env => if shouldSync then env.sync fname else (.ok, env)
    let r := andThen r (close fname)
    if r.1.isOk then r else (r.1, (r.2.removeFile fname).2)
  else (s, env)

def writeStringToFileSync (data fname : Bytes) (env : Env) : Status × Env :=
  doWriteStringToFile data fname true env

/-- One turn of the loop of `read_file_to_string`, with the string read so far. -/
def readFileTurn :
    Bytes × SequentialFile → Except Fault ((Bytes × SequentialFile) ⊕ (Status × Bytes)) :=
  readStringTurn fun f => f.read kBufferSize

/-- `read_file_to_string`: the status, and what was read. -/
def readFileToString (fname : Bytes) (env : Env) : Except Fault (Status × Bytes × Env) := do
  let (s, file, env) := env.newSequentialFile fname
  if !s.isOk then return (s, [], env)
  let (s, data) ← Loop.run .endless readFileTurn (file.rest.length + file.script.length + 2)
    ([], file)
  return (s, data, env)

/-! ## Removing files -/

/-- An operation fails and leaves the files alone, or happens. -/
theorem act_cases (env : Env) (f : Env → Status × Env) :
    ((env.act f).1 ≠ .ok ∧ (env.act f).2.files = env.files)
      ∨ ∃ script, env.act f = f { env with script := script } := by
  unfold Env.act
  split
  · exact .inl ⟨nofun, rfl⟩
  · exact .inr ⟨_, rfl⟩

theorem act_lookup {env : Env} {f : Env → Status × Env} {g : Bytes}
    (h : ∀ env : Env, (f env).2.files.lookup g = env.files.lookup g) :
    (env.act f).2.files.lookup g = env.files.lookup g := by
  unfold act
  split
  · rfl
  · exact h _

theorem lookup_removeFile_ne {fname g : Bytes} (h : g ≠ fname) (env : Env) :
    (env.removeFile fname).2.files.lookup g = env.files.lookup g :=
  act_lookup fun _ => AList.lookup_erase_ne h

theorem lookup_getChildren (dir g : Bytes) (env : Env) :
    (env.getChildren dir).2.2.files.lookup g = env.files.lookup g :=
  act_lookup fun _ => rfl

/-- Removing some files leaves the others. -/
theorem lookup_foldl_removeFile {α : Type} (path : α → Bytes) {g : Bytes} (names : List α)
    (h : ∀ a ∈ names, g ≠ path a) (env : Env) :
    (names.foldl (fun env a => (env.removeFile (path a)).2) env).files.lookup g
      = env.files.lookup g := by
  induction names generalizing env with
  | nil => rfl
  | cons a names ih =>
      rw [List.foldl_cons, ih fun b hb => h b (List.mem_cons_of_mem a hb)]
      exact lookup_removeFile_ne (h a List.mem_cons_self) env

/-! ## Requests of a lock -/

theorem act_lockRequests {env : Env} {f : Env → Status × Env}
    (h : ∀ env : Env, (f env).2.lockRequests = env.lockRequests) :
    (env.act f).2.lockRequests = env.lockRequests := by
  unfold act
  split
  · rfl
  · exact h _

@[simp] theorem modify_lockRequests (env : Env) (fname : Bytes) (f : File → File) :
    (env.modify fname f).lockRequests = env.lockRequests := by
  unfold modify
  cases env.files.lookup fname <;> rfl

theorem andThen_lockRequests {n : Nat} {r : Status × Env} {next : Env → Status × Env}
    (hr : r.2.lockRequests = n)
    (h : ∀ env : Env, (next env).2.lockRequests = env.lockRequests) :
    (andThen r next).2.lockRequests = n := by
  unfold andThen
  split_ifs
  · rw [h, hr]
  · exact hr

@[simp] theorem newWritableFile_lockRequests (fname : Bytes) (env : Env) :
    (env.newWritableFile fname).2.lockRequests = env.lockRequests :=
  act_lockRequests fun _ => rfl

@[simp] theorem newAppendableFile_lockRequests (fname : Bytes) (env : Env) :
    (env.newAppendableFile fname).2.lockRequests = env.lockRequests := by
  refine act_lockRequests fun env => ?_
  simp only
  split_ifs <;> rfl

@[simp] theorem append_lockRequests (fname data : Bytes) (env : Env) :
    (env.append fname data).2.lockRequests = env.lockRequests :=
  act_lockRequests fun _ => modify_lockRequests _ _ _

@[simp] theorem flush_lockRequests (fname : Bytes) (env : Env) :
    (env.flush fname).2.lockRequests = env.lockRequests :=
  act_lockRequests fun _ => rfl

@[simp] theorem sync_lockRequests (fname : Bytes) (env : Env) :
    (env.sync fname).2.lockRequests = env.lockRequests :=
  act_lockRequests fun _ => modify_lockRequests _ _ _

@[simp] theorem close_lockRequests (fname : Bytes) (env : Env) :
    (env.close fname).2.lockRequests = env.lockRequests :=
  act_lockRequests fun _ => rfl

@[simp] theorem newSequentialFile_lockRequests (fname : Bytes) (env : Env) :
    (env.newSequentialFile fname).2.2.lockRequests = env.lockRequests := by
  have h : (env.act fun env =>
      (if fname ∈ env.files then .ok else .notFound fname, env)).2.lockRequests
        = env.lockRequests := act_lockRequests fun _ => rfl
  rw [← h, newSequentialFile]
  simp only
  split <;> rfl

@[simp] theorem removeFile_lockRequests (fname : Bytes) (env : Env) :
    (env.removeFile fname).2.lockRequests = env.lockRequests :=
  act_lockRequests fun _ => rfl

@[simp] theorem renameFile_lockRequests (src target : Bytes) (env : Env) :
    (env.renameFile src target).2.lockRequests = env.lockRequests := by
  refine act_lockRequests fun env => ?_
  split <;> rfl

@[simp] theorem createDir_lockRequests (dirname : Bytes) (env : Env) :
    (env.createDir dirname).2.lockRequests = env.lockRequests :=
  act_lockRequests fun _ => rfl

@[simp] theorem getFileSize_lockRequests (fname : Bytes) (env : Env) :
    (env.getFileSize fname).2.2.lockRequests = env.lockRequests :=
  act_lockRequests (f := fun env => (if fname ∈ env.files then .ok else .notFound fname, env))
    fun _ => rfl

@[simp] theorem getChildren_lockRequests (dir : Bytes) (env : Env) :
    (env.getChildren dir).2.2.lockRequests = env.lockRequests :=
  act_lockRequests (f := fun env => (.ok, env)) fun _ => rfl

/-- `lock_file` is the operation that requests a lock. -/
@[simp] theorem lockFile_lockRequests (fname : Bytes) (env : Env) :
    (env.lockFile fname).2.lockRequests = env.lockRequests + 1 := by
  refine act_lockRequests fun env => ?_
  split_ifs <;> rfl

@[simp] theorem writeStringToFileSync_lockRequests (data fname : Bytes) (env : Env) :
    (env.writeStringToFileSync data fname).2.lockRequests = env.lockRequests := by
  have hnew := newWritableFile_lockRequests fname env
  rw [writeStringToFileSync, doWriteStringToFile]
  rcases hr : env.newWritableFile fname with ⟨s, env₁⟩
  rw [hr] at hnew
  simp only at hnew ⊢
  split_ifs
  · exact andThen_lockRequests (andThen_lockRequests (by simpa using hnew) (by simp)) (by simp)
  · rw [removeFile_lockRequests]
    exact andThen_lockRequests (andThen_lockRequests (by simpa using hnew) (by simp)) (by simp)
  · exact hnew

/-! ## What is read -/

theorem newSequentialFile_ok {fname : Bytes} {env env' : Env} {file : SequentialFile}
    (h : env.newSequentialFile fname = (.ok, file, env')) :
    env'.files = env.files ∧ ∃ f, env.files.lookup fname = some f
      ∧ file = ⟨f.data, f.readScript⟩ := by
  have hact : ∃ script, env.act (fun env => (if fname ∈ env.files then .ok else .notFound fname, env))
      = (if fname ∈ env.files then .ok else .notFound fname, { env with script := script }) := by
    rcases act_cases env fun env => (if fname ∈ env.files then .ok else .notFound fname, env) with
      ⟨hne, -⟩ | hact
    · rw [newSequentialFile] at h
      simp only at h
      split at h
      · exact absurd (congrArg Prod.fst h) hne
      · exact absurd (congrArg Prod.fst h) hne
    · exact hact
  obtain ⟨script, hact⟩ := hact
  rw [newSequentialFile, hact] at h
  simp only at h
  by_cases hm : fname ∈ env.files
  · obtain ⟨f, hf⟩ := Option.isSome_iff_exists.mp (AList.lookup_isSome.mpr hm)
    simp only [if_pos hm, hf] at h
    cases h
    exact ⟨rfl, f, hf, rfl⟩
  · simp only [if_neg hm, AList.lookup_eq_none.mpr hm] at h
    cases h

/-- A string that has been read is the content of the file. -/
theorem readFileToString_ok {fname data : Bytes} {env env' : Env}
    (h : env.readFileToString fname = .ok (.ok, data, env')) :
    env'.files = env.files ∧ ∃ f, env.files.lookup fname = some f ∧ f.data = data := by
  unfold readFileToString at h
  rcases hopen : env.newSequentialFile fname with ⟨s, file, env₁⟩
  rw [hopen] at h
  simp only at h
  split_ifs at h with hs
  · cases h
    cases hs
  · simp only [Bool.not_eq_true', Bool.not_eq_false] at hs
    cases (Status.isOk_iff s).mp hs
    obtain ⟨hfiles, f, hf, rfl⟩ := newSequentialFile_ok hopen
    obtain ⟨⟨s, read⟩, hrun, h⟩ := bind_eq_ok.mp h
    cases h
    have hrounds : f.data.length < f.data.length + f.readScript.length + 2 := by omega
    obtain ⟨s', data, hall, hdata, -⟩ :=
      SequentialFile.chunks_read.run _ [] ⟨f.data, f.readScript⟩ hrounds
    unfold readFileTurn at hrun
    rw [hrun] at hall
    cases hall
    exact ⟨hfiles, f, hf, (hdata rfl).symm⟩

/-! ## Environments in which every operation succeeds -/

/-- Every operation to come succeeds. -/
def AllOk (env : Env) : Prop := ∀ s ∈ env.script, s = .ok

theorem act_of_allOk {env : Env} (h : env.AllOk) (f : Env → Status × Env) :
    env.act f = f { env with script := env.script.tail } := by
  unfold act
  cases hs : env.script with
  | nil => rfl
  | cons s script =>
      have : s = .ok := h s (by simp [hs])
      subst this
      rfl

theorem AllOk.tail {env : Env} (h : env.AllOk) :
    ({ env with script := env.script.tail } : Env).AllOk :=
  fun s hs => h s (List.mem_of_mem_tail hs)

theorem lookup_modify (env : Env) (fname : Bytes) (f : File → File) :
    (env.modify fname f).files.lookup fname = (env.files.lookup fname).map f := by
  unfold modify
  cases h : env.files.lookup fname with
  | none => simp [h]
  | some file => simp

theorem lookup_modify_ne (env : Env) {fname g : Bytes} (h : g ≠ fname) (f : File → File) :
    (env.modify fname f).files.lookup g = env.files.lookup g := by
  unfold modify
  cases env.files.lookup fname with
  | none => rfl
  | some file => exact AList.lookup_insert_ne h

@[simp] theorem modify_script (env : Env) (fname : Bytes) (f : File → File) :
    (env.modify fname f).script = env.script := by
  unfold modify
  cases env.files.lookup fname <;> rfl

@[simp] theorem modify_locked (env : Env) (fname : Bytes) (f : File → File) :
    (env.modify fname f).locked = env.locked := by
  unfold modify
  cases env.files.lookup fname <;> rfl

/-- `env'` is `env` with `data` appended to the file `fname`, after operations that all
succeeded. -/
structure Appended (fname data : Bytes) (env env' : Env) : Prop where
  allOk : env'.AllOk
  file : env'.files.lookup fname
    = (env.files.lookup fname).map fun f => { f with data := f.data ++ data }
  frame : ∀ g, g ≠ fname → env'.files.lookup g = env.files.lookup g
  locked : env'.locked = env.locked

theorem Appended.refl {env : Env} (h : env.AllOk) (fname : Bytes) : Appended fname [] env env where
  allOk := h
  file := by simp
  frame := fun _ _ => rfl
  locked := rfl

theorem Appended.trans {fname a b : Bytes} {env₁ env₂ env₃ : Env}
    (h₁ : Appended fname a env₁ env₂) (h₂ : Appended fname b env₂ env₃) :
    Appended fname (a ++ b) env₁ env₃ where
  allOk := h₂.allOk
  file := by
    rw [h₂.file, h₁.file, Option.map_map]
    congr 1
    funext f
    simp
  frame := fun g hg => (h₂.frame g hg).trans (h₁.frame g hg)
  locked := h₂.locked.trans h₁.locked

theorem append_of_allOk {env : Env} (h : env.AllOk) (fname data : Bytes) :
    (env.append fname data).1 = .ok ∧ Appended fname data env (env.append fname data).2 := by
  rw [append, act_of_allOk h]
  refine ⟨rfl, ?_, lookup_modify _ _ _, fun g hg => lookup_modify_ne _ hg _, modify_locked _ _ _⟩
  intro s hs
  rw [modify_script] at hs
  exact h.tail s hs

theorem flush_of_allOk {env : Env} (h : env.AllOk) (fname : Bytes) :
    (env.flush fname).1 = .ok ∧ Appended fname [] env (env.flush fname).2 := by
  rw [flush, act_of_allOk h]
  exact ⟨rfl, h.tail, by simp, fun _ _ => rfl, rfl⟩

theorem mem_of_lookup {env : Env} {fname : Bytes} {file : File}
    (h : env.files.lookup fname = some file) : fname ∈ env.files := by
  rw [← AList.lookup_isSome, h]
  rfl

theorem newSequentialFile_of_allOk {env : Env} (h : env.AllOk) {fname : Bytes} {file : File}
    (hfile : env.files.lookup fname = some file) :
    env.newSequentialFile fname
      = (.ok, ⟨file.data, file.readScript⟩, { env with script := env.script.tail }) := by
  rw [newSequentialFile, act_of_allOk h]
  simp only [if_pos (mem_of_lookup hfile), hfile]

/-- Reading a file piece by piece gives all of it. -/
theorem run_readFileTurn (n : Nat) (acc : Bytes) {rest : Bytes} (h : rest.length < n) :
    Loop.run .endless readFileTurn n (acc, ⟨rest, []⟩) = .ok (.ok, acc ++ rest) := by
  obtain ⟨s, data, hrun, hdata, hsound⟩ := SequentialFile.chunks_read.run n acc ⟨rest, []⟩ h
  have hok : s = .ok := hsound rfl
  rw [readFileTurn, hrun, hok, hdata hok]

theorem readFileToString_of_allOk {env : Env} (h : env.AllOk) {fname : Bytes} {file : File}
    (hfile : env.files.lookup fname = some file) (hsound : file.readScript = []) :
    env.readFileToString fname
      = .ok (.ok, file.data, { env with script := env.script.tail }) := by
  rw [readFileToString, newSequentialFile_of_allOk h hfile]
  simp only [Status.isOk_ok, Bool.not_true, Bool.false_eq_true, if_false, hsound]
  rw [run_readFileTurn _ _ (by simp), ok_bind, List.nil_append]
  rfl

end Env

end SimpleLeveldb
