import SimpleLeveldb.Env

set_option autoImplicit false

/-! # File names (`leveldb/__detail/filename.h`, `filename.cc`, `util/logging.cc`)

The names of the files of a database, how a name is taken apart again, and the switch of the
`CURRENT` file to another manifest.
-/

namespace SimpleLeveldb

/-- `enum class file_type` -/
inductive FileType where
  | kLogFile
  | kDBLockFile
  | kTableFile
  | kDescriptorFile
  | kCurrentFile
  | kTempFile
  | kInfoLogFile
  deriving DecidableEq, Repr

/-! ## Making names -/

/-- `snprintf` with `%06llu` -/
def decimal06 (n : Nat) : Bytes :=
  List.replicate (6 - (decimal n).length) 48#8 ++ decimal n

def makeFileName (dbname : Bytes) (number : U64) (suffix : String) : Bytes :=
  dbname ++ (text "/" ++ decimal06 number.toNat ++ text "." ++ text suffix)

def tableFileName (dbname : Bytes) (number : U64) : Except Fault Bytes := do
  require (0 < number)
  return makeFileName dbname number "ldb"

def logFileName (dbname : Bytes) (number : U64) : Except Fault Bytes := do
  require (0 < number)
  return makeFileName dbname number "log"

/-- The name of a manifest without the directory. -/
def descriptorBaseName (number : U64) : Bytes := text "MANIFEST-" ++ decimal06 number.toNat

def descriptorFileName (dbname : Bytes) (number : U64) : Except Fault Bytes := do
  require (0 < number)
  return dbname ++ text "/" ++ descriptorBaseName number

def lockFileName (dbname : Bytes) : Bytes := dbname ++ text "/LOCK"

def currentFileName (dbname : Bytes) : Bytes := dbname ++ text "/CURRENT"

def tempFileName (dbname : Bytes) (number : U64) : Except Fault Bytes := do
  require (0 < number)
  return makeFileName dbname number "dbtmp"

def infoLogFileName (dbname : Bytes) : Bytes := dbname ++ text "/LOG"

def oldInfoLogFileName (dbname : Bytes) : Bytes := dbname ++ text "/LOG.old"

/-! ## Names that differ -/

theorem decimal_le_nine (n : Nat) : ∀ c ∈ decimal n, c.toNat ≤ 57 := by
  intro c hc
  unfold decimal at hc
  split_ifs at hc
  · revert c
    decide
  · obtain ⟨d, hd, rfl⟩ := List.mem_map.mp hc
    have : d < 10 := Nat.digits_lt_base (by decide) (List.mem_reverse.mp hd)
    rw [BitVec.toNat_ofNat]
    omega

theorem decimal06_le_nine (n : Nat) : ∀ c ∈ decimal06 n, c.toNat ≤ 57 := by
  intro c hc
  rcases List.mem_append.mp hc with hc | hc
  · rw [List.eq_of_mem_replicate hc]
    decide
  · exact decimal_le_nine n c hc

theorem inDirectory_inj {dbname a b : Bytes} :
    dbname ++ text "/" ++ a = dbname ++ text "/" ++ b ↔ a = b := List.append_right_inj _

theorem currentFileName_eq (dbname : Bytes) :
    currentFileName dbname = dbname ++ text "/" ++ text "CURRENT" := by
  rw [List.append_assoc]
  rfl

theorem makeFileName_eq (dbname : Bytes) (number : U64) (suffix : String) :
    makeFileName dbname number suffix
      = dbname ++ text "/" ++ (decimal06 number.toNat ++ text "." ++ text suffix) := by
  rw [makeFileName]
  simp only [List.append_assoc]

theorem descriptorFile_ne_current (dbname : Bytes) (number : U64) :
    dbname ++ text "/" ++ descriptorBaseName number ≠ currentFileName dbname := by
  rw [currentFileName_eq, Ne, inDirectory_inj]
  intro h
  have := congrArg List.head? h
  simp [descriptorBaseName, text] at this

theorem ne_of_head {a b : Bytes} {c d : Byte} (ha : a.head? = some c) (hb : b.head? = some d)
    (h : c ≠ d) : a ≠ b := by
  rintro rfl
  rw [ha] at hb
  exact h (Option.some.inj hb)

/-- Other than the names of `CURRENT` and of the manifests, a name that a number begins begins
with a digit or a point. -/
theorem decimal06_head (number : Nat) (suffix : Bytes) :
    ∃ c, (decimal06 number ++ text "." ++ suffix).head? = some c ∧ c.toNat ≤ 57 := by
  have hdigit := decimal06_le_nine number
  cases hd : decimal06 number with
  | nil => exact ⟨46#8, rfl, by decide⟩
  | cons d ds =>
      rw [hd] at hdigit
      exact ⟨d, rfl, hdigit d List.mem_cons_self⟩

theorem decimal06_head_ne {number : Nat} {suffix base : Bytes} {c : Byte} (hc : 57 < c.toNat)
    (hbase : base.head? = some c) : decimal06 number ++ text "." ++ suffix ≠ base := by
  obtain ⟨d, hd, hle⟩ := decimal06_head number suffix
  refine ne_of_head hd hbase ?_
  rintro rfl
  omega

theorem tempFile_ne_current (dbname : Bytes) (number : U64) :
    makeFileName dbname number "dbtmp" ≠ currentFileName dbname := by
  rw [currentFileName_eq, makeFileName_eq, Ne, inDirectory_inj]
  exact decimal06_head_ne (show 57 < (67#8 : Byte).toNat by decide) rfl

theorem tempFile_ne_descriptorFile (dbname : Bytes) (number number' : U64) :
    makeFileName dbname number "dbtmp" ≠ dbname ++ text "/" ++ descriptorBaseName number' := by
  rw [makeFileName_eq, Ne, inDirectory_inj]
  exact decimal06_head_ne (show 57 < (77#8 : Byte).toNat by decide) rfl

/-! ## `CURRENT` -/

/-- `set_current_file` -/
def setCurrentFile (dbname : Bytes) (descriptorNumber : U64) (env : Env) :
    Except Fault (Status × Env) := do
  let manifest ← descriptorFileName dbname descriptorNumber
  require ((dbname ++ text "/").isPrefixOf manifest)
  let contents := manifest.drop (dbname.length + 1)
  let tmp ← tempFileName dbname descriptorNumber
  let (s, env) := env.writeStringToFileSync (contents ++ text "\n") tmp
  let (s, env) := if s.isOk then env.renameFile tmp (currentFileName dbname) else (s, env)
  return (s, if s.isOk then env else (env.removeFile tmp).2)

/-! ## Taking names apart -/

/-- `::isdigit` -/
def isDigit (ch : Byte) : Bool := decide (48 ≤ ch.toNat ∧ ch.toNat ≤ 57)

def kMaxUint64 : Nat := 2 ^ 64 - 1

/-- The loop of `consume_decimal_number`, with the number of digits so far; `none` for a
number that does not fit. -/
def consumeDigits (value : U64) (digits : Nat) : Bytes → Option (U64 × Nat × Bytes)
  | [] => some (value, digits, [])
  | ch :: rest =>
      if !isDigit ch then some (value, digits, ch :: rest)
      else if value.toNat > kMaxUint64 / 10
          ∨ (value.toNat = kMaxUint64 / 10 ∧ ch.toNat > 48 + kMaxUint64 % 10) then none
      else consumeDigits (value * 10 + (ch.setWidth 64 - 48)) (digits + 1) rest

/-- `consume_decimal_number`: the number and the rest of the input, or `none` for `false`. -/
def consumeDecimalNumber (input : Bytes) : Option (U64 × Bytes) :=
  match consumeDigits 0 0 input with
  | some (value, digits, rest) => if digits = 0 then none else some (value, rest)
  | none => none

/-- `parse_file_name`: the number and the type, or `none` for `false`. -/
def parseFileName (filename : Bytes) : Option (U64 × FileType) :=
  if filename = text "CURRENT" then some (0, .kCurrentFile)
  else if filename = text "LOCK" then some (0, .kDBLockFile)
  else if filename = text "LOG" ∨ filename = text "LOG.old" then some (0, .kInfoLogFile)
  else if (text "MANIFEST-").isPrefixOf filename then
    match consumeDecimalNumber (filename.drop (text "MANIFEST-").length) with
    | some (num, rest) => if rest.isEmpty then some (num, .kDescriptorFile) else none
    | none => none
  else
    match consumeDecimalNumber filename with
    | some (num, suffix) =>
        if suffix = text ".log" then some (num, .kLogFile)
        else if suffix = text ".sst" ∨ suffix = text ".ldb" then some (num, .kTableFile)
        else if suffix = text ".dbtmp" then some (num, .kTempFile)
        else none
    | none => none

example : parseFileName (text "000012.log") = some (12, .kLogFile) := by decide

/-! ## Logs -/

/-- The name of a log without the directory. -/
def logBaseName (number : U64) : Bytes := decimal06 number.toNat ++ text "." ++ text "log"

theorem logFile_ne_current (dbname : Bytes) (number : U64) :
    dbname ++ text "/" ++ logBaseName number ≠ currentFileName dbname := by
  rw [currentFileName_eq, Ne, inDirectory_inj]
  exact decimal06_head_ne (show 57 < (67#8 : Byte).toNat by decide) rfl

end SimpleLeveldb
