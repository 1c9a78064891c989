import SimpleLeveldb.Basic

set_option autoImplicit false

/-! # Errors of system calls (`__detail/posix_env.cc`)

A system call that fails sets `errno`, and `posix_error` makes a status of it.
-/

namespace SimpleLeveldb

/-- A value of `errno`, with its text (`strerror`). -/
structure Errno where
  number : Nat
  strerror : Bytes
  deriving DecidableEq

def ENOENT : Errno := ⟨2, text "No such file or directory"⟩

def EINTR : Errno := ⟨4, text "Interrupted system call"⟩

def EINVAL : Errno := ⟨22, text "Invalid argument"⟩

/-- `posix_error` -/
def posixError (context : Bytes) (errorNumber : Errno) : Status :=
  if errorNumber.number = ENOENT.number then .notFound context errorNumber.strerror
  else .ioError context errorNumber.strerror

@[simp] theorem isOk_posixError (context : Bytes) (e : Errno) :
    (posixError context e).isOk = false := by
  unfold posixError
  split_ifs <;> rfl

theorem posixError_ne_ok (context : Bytes) (e : Errno) : posixError context e ≠ .ok := by
  intro h
  have hok := isOk_posixError context e
  rw [h] at hok
  cases hok

/-- What kind of status it is: OK, or the code of the error. -/
def Status.kind : Status → Option Code
  | .ok => none
  | .error c _ => some c

end SimpleLeveldb
