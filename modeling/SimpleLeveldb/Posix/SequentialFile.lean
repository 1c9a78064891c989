import SimpleLeveldb.Env
import SimpleLeveldb.Posix.Errno

set_option autoImplicit false

/-! # Sequential reading (`__detail/posix_env.cc`)

A read of a `posix_sequential_file` may give less than what is left, and may be interrupted.
`read_file_to_string` reads such a file to its end nevertheless (`readToString_spec`).
-/

namespace SimpleLeveldb

/-- What one call of `read` does: it gives so many bytes, or fails with this `errno`. -/
inductive ReadAnswer where
  | gave (n : Nat)
  | failed (e : Errno)

/-- The call gives bytes, or is interrupted. -/
def ReadAnswer.sound : ReadAnswer → Bool
  | .gave _ => true
  | .failed e => decide (e.number = EINTR.number)

/-- `posix_sequential_file`: the bytes not yet read, and what the calls of `read` do; when none is left,
a call gives all it can. -/
structure PosixSequentialFile where
  filename : Bytes
  rest : Bytes
  answers : List ReadAnswer

namespace PosixSequentialFile

/-- The loop of `read`: `*result` is `none` where it is not set. -/
def readLoop (filename rest : Bytes) (n : Nat) : List ReadAnswer →
    Status × Option Bytes × PosixSequentialFile
  | [] => (.ok, some (rest.take n), ⟨filename, rest.drop n, []⟩)
  | .failed e :: answers =>
      if e.number = EINTR.number then readLoop filename rest n answers
      else (posixError filename e, none, ⟨filename, rest, answers⟩)
  -- nothing is given only when nothing is left, or is asked for
  | .gave m :: answers =>
      let readSize := min n (max 1 m)
      (.ok, some (rest.take readSize), ⟨filename, rest.drop readSize, answers⟩)

/-- `posix_sequential_file::read`, with `*result` before and after. -/
def read (f : PosixSequentialFile) (n : Nat) (result : Bytes) :
    Status × Bytes × PosixSequentialFile :=
  let (stat, slice, f) := readLoop f.filename f.rest n f.answers
  (stat, slice.getD result, f)

/-- `read_file_to_string` on an open file -/
def readToString (f : PosixSequentialFile) : Except Fault (Status × Bytes) :=
  Loop.run .endless (readStringTurn fun f => f.read kBufferSize []) (f.rest.length + 1) ([], f)

theorem readLoop_ok {filename rest : Bytes} {n : Nat} (hn : 0 < n) (answers : List ReadAnswer) :
    ((readLoop filename rest n answers).1 = .ok →
        ∃ size, 0 < size ∧ (readLoop filename rest n answers).2.1 = some (rest.take size)
          ∧ (readLoop filename rest n answers).2.2.rest = rest.drop size)
      ∧ ((∀ a ∈ answers, a.sound) → (readLoop filename rest n answers).1 = .ok
        ∧ ∀ a ∈ (readLoop filename rest n answers).2.2.answers, a.sound) := by
  induction answers with
  | nil => exact ⟨fun _ => ⟨n, hn, rfl, rfl⟩, fun h => ⟨rfl, h⟩⟩
  | cons a answers ih =>
      cases a with
      | gave m =>
          exact ⟨fun _ => ⟨min n (max 1 m), by omega, rfl, rfl⟩,
            fun h => ⟨rfl, fun a ha => h a (List.mem_cons_of_mem _ ha)⟩⟩
      | failed e =>
          rw [readLoop]
          split_ifs with hint
          · exact ⟨ih.1, fun h => ih.2 fun a ha => h a (List.mem_cons_of_mem _ ha)⟩
          · refine ⟨fun h => absurd h (posixError_ne_ok _ _), fun h => ?_⟩
            exact absurd (of_decide_eq_true (h _ List.mem_cons_self)) hint

theorem chunks_read : Chunks (fun f : PosixSequentialFile => f.read kBufferSize [])
    PosixSequentialFile.rest (fun f => ∀ a ∈ f.answers, a.sound) where
  split f hok := by
    obtain ⟨size, -, hslice, hrest⟩ := (readLoop_ok (by decide) f.answers).1 hok
    show ((readLoop f.filename f.rest kBufferSize f.answers).2.1).getD []
      ++ (readLoop f.filename f.rest kBufferSize f.answers).2.2.rest = f.rest
    rw [hslice, hrest]
    exact List.take_append_drop _ _
  finished f hok hempty := by
    obtain ⟨size, hsize, hslice, -⟩ := (readLoop_ok (by decide) f.answers).1 hok
    replace hempty : ((readLoop f.filename f.rest kBufferSize f.answers).2.1).getD [] = [] := hempty
    rw [hslice, Option.getD_some, List.take_eq_nil_iff] at hempty
    exact hempty.resolve_left hsize.ne'
  sound f hf := (readLoop_ok (by decide) f.answers).2 hf

/-- `read_file_to_string` returns, and with OK it has read the file. -/
theorem readToString_spec (f : PosixSequentialFile) :
    ∃ s data, f.readToString = .ok (s, data) ∧ (s = .ok → data = f.rest)
      ∧ ((∀ a ∈ f.answers, a.sound) → s = .ok) :=
  chunks_read.run _ [] f (Nat.lt_succ_self _)

end PosixSequentialFile

end SimpleLeveldb
