import SimpleLeveldb.Filename
import SimpleLeveldb.Lib.Horner
import Mathlib.Data.List.TakeWhile

set_option autoImplicit false

/-! # The grammar of file names

Which names `parse_file_name` accepts, with which number and type: the four fixed names, and the
names in which a number below 2^64 stands, with any number of digits. The names that the other
functions make are among them.
-/

namespace SimpleLeveldb

/-! ## The grammar -/

/-- The number that a sequence of digits denotes. -/
def digitsValue (ds : Bytes) : Nat := Nat.ofDigits 10 (ds.map fun c => c.toNat - 48).reverse

/-- `ds` is one or more digits, and denotes `n`. -/
structure Numeral (ds : Bytes) (n : Nat) : Prop where
  ne_nil : ds ≠ []
  digits : ∀ c ∈ ds, isDigit c = true
  value : digitsValue ds = n

/-- The names of the files of a database, with their numbers and types. -/
inductive IsFileName : Bytes → Nat → FileType → Prop
  | current : IsFileName (text "CURRENT") 0 .kCurrentFile
  | lock : IsFileName (text "LOCK") 0 .kDBLockFile
  | infoLog : IsFileName (text "LOG") 0 .kInfoLogFile
  | oldInfoLog : IsFileName (text "LOG.old") 0 .kInfoLogFile
  | manifest {ds : Bytes} {n : Nat} :
      Numeral ds n → IsFileName (text "MANIFEST-" ++ ds) n .kDescriptorFile
  | log {ds : Bytes} {n : Nat} : Numeral ds n → IsFileName (ds ++ text ".log") n .kLogFile
  | sst {ds : Bytes} {n : Nat} : Numeral ds n → IsFileName (ds ++ text ".sst") n .kTableFile
  | ldb {ds : Bytes} {n : Nat} : Numeral ds n → IsFileName (ds ++ text ".ldb") n .kTableFile
  | dbtmp {ds : Bytes} {n : Nat} : Numeral ds n → IsFileName (ds ++ text ".dbtmp") n .kTempFile

/-- `parse_file_name` with the variables behind its pointers, before and after: whether it returns
true, `*number` and `*type`. -/
def parseFileNameInto (filename : Bytes) (number : U64) (type : FileType) :
    Bool × U64 × FileType :=
  if filename = text "CURRENT" then (true, 0, .kCurrentFile)
  else if filename = text "LOCK" then (true, 0, .kDBLockFile)
  else if filename = text "LOG" ∨ filename = text "LOG.old" then (true, 0, .kInfoLogFile)
  else if (text "MANIFEST-").isPrefixOf filename then
    match consumeDecimalNumber (filename.drop (text "MANIFEST-").length) with
    | none => (false, number, type)
    | some (num, rest) =>
        if !rest.isEmpty then (false, number, type) else (true, num, .kDescriptorFile)
  else
    match consumeDecimalNumber filename with
    | none => (false, number, type)
    | some (num, suffix) =>
        if suffix = text ".log" then (true, num, .kLogFile)
        else if suffix = text ".sst" ∨ suffix = text ".ldb" then (true, num, .kTableFile)
        else if suffix = text ".dbtmp" then (true, num, .kTempFile)
        else (false, number, type)

/-- The variables are written exactly when the name is accepted. -/
theorem parseFileNameInto_eq (filename : Bytes) (number : U64) (type : FileType) :
    parseFileNameInto filename number type
      = ((parseFileName filename).isSome, (parseFileName filename).getD (number, type)) := by
  -- what the function leaves, as a function of what is parsed; it goes into the branches
  let into (parsed : Option (U64 × FileType)) : Bool × U64 × FileType :=
    (parsed.isSome, parsed.getD (number, type))
  show parseFileNameInto filename number type = into (parseFileName filename)
  unfold parseFileNameInto parseFileName
  rw [apply_ite into, apply_ite into, apply_ite into, apply_ite into]
  refine if_congr Iff.rfl rfl (if_congr Iff.rfl rfl (if_congr Iff.rfl rfl (if_congr Iff.rfl ?_ ?_)))
  · cases consumeDecimalNumber (filename.drop (text "MANIFEST-").length) with
    | none => rfl
    | some r =>
        simp only
        cases r.2.isEmpty <;> rfl
  · cases consumeDecimalNumber filename with
    | none => rfl
    | some r =>
        simp only
        rw [apply_ite into, apply_ite into, apply_ite into]
        rfl

/-! ## Numbers -/

/-- The digits as numbers. -/
def digitValues (ds : Bytes) : List Nat := ds.map fun c => c.toNat - 48

@[simp] theorem digitValues_nil : digitValues [] = [] := rfl

@[simp] theorem digitValues_cons (c : Byte) (ds : Bytes) :
    digitValues (c :: ds) = (c.toNat - 48) :: digitValues ds := rfl

theorem digitsValue_eq (ds : Bytes) : digitsValue ds = Horner.value 10 0 (digitValues ds) :=
  (Horner.value_zero 10 (digitValues ds)).symm

/-- **The loop of `consume_decimal_number`** takes the digits at the front, and ends with their
value if it fits; the induction is on the input, the value so far general. -/
theorem consumeDigits_eq (input : Bytes) (value : U64) (digits : Nat) :
    consumeDigits value digits input
      = if Horner.value 10 value.toNat (digitValues (input.takeWhile isDigit)) ≤ kMaxUint64 then
          some (BitVec.ofNat 64 (Horner.value 10 value.toNat (digitValues (input.takeWhile isDigit))),
            digits + (input.takeWhile isDigit).length, input.dropWhile isDigit)
        else none := by
  have hmax : kMaxUint64 = 2 ^ 64 - 1 := rfl
  have hle : ∀ v : U64, v.toNat ≤ kMaxUint64 := fun v => Nat.le_sub_one_of_lt v.isLt
  induction input generalizing value digits with
  | nil =>
      rw [consumeDigits, List.takeWhile_nil, List.dropWhile_nil]
      simp [hle value]
  | cons ch rest ih =>
      by_cases hdigit : isDigit ch = true
      · have hrange : 48 ≤ ch.toNat ∧ ch.toNat ≤ 57 := of_decide_eq_true hdigit
        have htest : (value.toNat > kMaxUint64 / 10
            ∨ value.toNat = kMaxUint64 / 10 ∧ ch.toNat > 48 + kMaxUint64 % 10)
              ↔ kMaxUint64 < value.toNat * 10 + (ch.toNat - 48) := by
          rw [Horner.lt_mul_add_iff (by omega)]
          omega
        rw [consumeDigits, hdigit, List.takeWhile_cons_of_pos hdigit,
          List.dropWhile_cons_of_pos hdigit, digitValues_cons, Horner.value_cons, List.length_cons]
        simp only [Bool.not_true, Bool.false_eq_true, if_false, htest]
        by_cases hfit : kMaxUint64 < value.toNat * 10 + (ch.toNat - 48)
        · -- the value so far is too large already
          have hgrow := Horner.le_value (b := 10) (by decide) (value.toNat * 10 + (ch.toNat - 48))
            (digitValues (rest.takeWhile isDigit))
          rw [if_pos hfit, if_neg (not_le.mpr (lt_of_lt_of_le hfit hgrow))]
        · have hnext : (value * 10 + (ch.setWidth 64 - 48)).toNat
              = value.toNat * 10 + (ch.toNat - 48) := by
            have := hle value
            rw [BitVec.toNat_add, BitVec.toNat_mul, BitVec.toNat_sub, BitVec.toNat_setWidth]
            simp only [show (10 : U64).toNat = 10 from rfl, show (48 : U64).toNat = 48 from rfl]
            omega
          rw [if_neg hfit, ih, hnext, Nat.add_assoc, Nat.add_comm 1]
      · rw [consumeDigits, List.takeWhile_cons_of_neg hdigit, List.dropWhile_cons_of_neg hdigit]
        simp [hdigit, hle value]

/-- **`consume_decimal_number`** accepts a numeral below 2^64 that no digit follows. -/
theorem consumeDecimalNumber_iff (input rest : Bytes) (num : U64) :
    consumeDecimalNumber input = some (num, rest)
      ↔ ∃ ds, input = ds ++ rest ∧ Numeral ds num.toNat
        ∧ ∀ c, rest.head? = some c → isDigit c = false := by
  have hmax : kMaxUint64 = 2 ^ 64 - 1 := rfl
  rw [consumeDecimalNumber, consumeDigits_eq]
  simp only [show (0 : U64).toNat = 0 from rfl, ← digitsValue_eq, Nat.zero_add]
  constructor
  · intro h
    split_ifs at h with hfit
    simp only at h
    split_ifs at h with hlen
    obtain ⟨rfl, rfl⟩ := Prod.mk.inj (Option.some.inj h)
    refine ⟨input.takeWhile isDigit, List.takeWhile_append_dropWhile.symm,
      ⟨fun hnil => hlen (congrArg List.length hnil), fun c hc => List.mem_takeWhile_imp hc, ?_⟩,
      fun c hc => ?_⟩
    · rw [BitVec.toNat_ofNat, Nat.mod_eq_of_lt (by omega)]
    · have hhead := List.head?_dropWhile_not isDigit input
      rw [hc] at hhead
      simpa using hhead
  · rintro ⟨ds, rfl, ⟨hne, hdigits, hvalue⟩, hrest⟩
    have hrest' : rest.takeWhile isDigit = [] ∧ rest.dropWhile isDigit = rest := by
      cases rest with
      | nil => exact ⟨rfl, rfl⟩
      | cons c rest =>
          have hc : ¬ isDigit c = true := by rw [hrest c rfl]; exact Bool.false_ne_true
          exact ⟨List.takeWhile_cons_of_neg hc, List.dropWhile_cons_of_neg hc⟩
    have htake : (ds ++ rest).takeWhile isDigit = ds := by
      rw [List.takeWhile_append_of_pos hdigits, hrest'.1, List.append_nil]
    have hdrop : (ds ++ rest).dropWhile isDigit = rest := by
      rw [List.dropWhile_append_of_pos hdigits, hrest'.2]
    have hfit : num.toNat ≤ kMaxUint64 := Nat.le_sub_one_of_lt num.isLt
    have hlen : ds.length ≠ 0 := fun h => hne (List.length_eq_zero_iff.mp h)
    rw [htake, hdrop, hvalue, if_pos hfit]
    simp only [if_neg hlen, BitVec.ofNat_toNat, BitVec.setWidth_eq]

/-! ## Names -/

/-- What begins with a numeral begins with no letter. -/
theorem Numeral.append_ne {ds suffix base : Bytes} {n : Nat} (h : Numeral ds n) {c : Byte}
    (hc : 57 < c.toNat) (hbase : base.head? = some c) : ds ++ suffix ≠ base := by
  cases ds with
  | nil => exact absurd rfl h.ne_nil
  | cons d ds =>
      have hdigit : 48 ≤ d.toNat ∧ d.toNat ≤ 57 :=
        of_decide_eq_true (h.digits d List.mem_cons_self)
      refine ne_of_head (c := d) rfl hbase ?_
      rintro rfl
      omega

/-- The name of a manifest. -/
theorem Numeral.parse_manifest {ds : Bytes} {num : U64} (h : Numeral ds num.toNat) :
    parseFileName (text "MANIFEST-" ++ ds) = some (num, .kDescriptorFile) := by
  have hconsume : consumeDecimalNumber ds = some (num, []) :=
    (consumeDecimalNumber_iff ds [] num).mpr ⟨ds, (List.append_nil ds).symm, h, by simp⟩
  have hprefix : (text "MANIFEST-").isPrefixOf (text "MANIFEST-" ++ ds) = true :=
    List.isPrefixOf_iff_prefix.mpr (List.prefix_append _ _)
  have hne : ∀ {base : Bytes} {c : Byte}, base.head? = some c → 77#8 ≠ c →
      text "MANIFEST-" ++ ds ≠ base := fun hbase hc => ne_of_head rfl hbase hc
  rw [parseFileName, if_neg (hne rfl (by decide)), if_neg (hne rfl (by decide)),
    if_neg (not_or.mpr ⟨hne rfl (by decide), hne rfl (by decide)⟩), if_pos hprefix, List.drop_left,
    hconsume]
  rfl

/-- A name that a number begins is told by what follows the number. -/
theorem Numeral.parse_suffix {ds : Bytes} {num : U64} (h : Numeral ds num.toNat) (suffix : Bytes)
    (hsuffix : ∀ c, suffix.head? = some c → isDigit c = false) :
    parseFileName (ds ++ suffix) = if suffix = text ".log" then some (num, .kLogFile)
      else if suffix = text ".sst" ∨ suffix = text ".ldb" then some (num, .kTableFile)
      else if suffix = text ".dbtmp" then some (num, .kTempFile)
      else none := by
  have hconsume : consumeDecimalNumber (ds ++ suffix) = some (num, suffix) :=
    (consumeDecimalNumber_iff (ds ++ suffix) suffix num).mpr ⟨ds, rfl, h, hsuffix⟩
  have hprefix : ¬ (text "MANIFEST-").isPrefixOf (ds ++ suffix) = true := by
    rw [List.isPrefixOf_iff_prefix]
    rintro ⟨rest, hrest⟩
    exact h.append_ne (show 57 < (77#8 : Byte).toNat by decide) rfl hrest.symm
  rw [parseFileName, if_neg (h.append_ne (c := 67) (by decide) rfl),
    if_neg (h.append_ne (c := 76) (by decide) rfl),
    if_neg (not_or.mpr ⟨h.append_ne (c := 76) (by decide) rfl,
      h.append_ne (c := 76) (by decide) rfl⟩), if_neg hprefix, hconsume]

/-- What is accepted is in the grammar: the branches of `parse_file_name` are its forms. -/
theorem isFileName_of_parse {filename : Bytes} {number : U64} {type : FileType}
    (h : parseFileName filename = some (number, type)) :
    IsFileName filename number.toNat type := by
  unfold parseFileName at h
  split_ifs at h with h₁ h₂ h₃ h₄
  · cases h
    exact h₁ ▸ .current
  · cases h
    exact h₂ ▸ .lock
  · cases h
    rcases h₃ with rfl | rfl
    · exact .infoLog
    · exact .oldInfoLog
  · -- a number behind "MANIFEST-", with nothing after it
    obtain ⟨ds, rfl⟩ := List.isPrefixOf_iff_prefix.mp h₄
    rw [List.drop_left] at h
    cases hc : consumeDecimalNumber ds with
    | none =>
        rw [hc] at h
        cases h
    | some r =>
        obtain ⟨num, rest⟩ := r
        rw [hc] at h
        simp only at h
        split_ifs at h with hrest
        cases h
        obtain ⟨ds', rfl, hnumeral, -⟩ := (consumeDecimalNumber_iff _ _ _).mp hc
        rw [List.isEmpty_iff.mp hrest, List.append_nil]
        exact .manifest hnumeral
  · -- a number and one of the suffixes
    cases hc : consumeDecimalNumber filename with
    | none =>
        rw [hc] at h
        cases h
    | some r =>
        obtain ⟨num, suffix⟩ := r
        rw [hc] at h
        simp only at h
        obtain ⟨ds, rfl, hnumeral, -⟩ := (consumeDecimalNumber_iff _ _ _).mp hc
        split_ifs at h with hlog htable htemp
        · cases h
          exact hlog ▸ .log hnumeral
        · cases h
          rcases htable with rfl | rfl
          · exact .sst hnumeral
          · exact .ldb hnumeral
        · cases h
          exact htemp ▸ .dbtmp hnumeral

/-- What is in the grammar is accepted, form by form. -/
theorem parse_of_isFileName {filename : Bytes} {number : U64} {type : FileType}
    (h : IsFileName filename number.toNat type) :
    parseFileName filename = some (number, type) := by
  generalize hn : number.toNat = n at h
  have hzero : n = 0 → number = 0 := fun h0 => BitVec.eq_of_toNat_eq (hn.trans h0)
  cases h with
  | current => rw [hzero rfl]; rfl
  | lock => rw [hzero rfl]; rfl
  | infoLog => rw [hzero rfl]; rfl
  | oldInfoLog => rw [hzero rfl]; rfl
  | manifest hnumeral => exact Numeral.parse_manifest (hn ▸ hnumeral)
  | log hnumeral => exact Numeral.parse_suffix (hn ▸ hnumeral) _ (by decide)
  | sst hnumeral => exact Numeral.parse_suffix (hn ▸ hnumeral) _ (by decide)
  | ldb hnumeral => exact Numeral.parse_suffix (hn ▸ hnumeral) _ (by decide)
  | dbtmp hnumeral => exact Numeral.parse_suffix (hn ▸ hnumeral) _ (by decide)

/-- **`parse_file_name` accepts exactly the grammar**, with the number and the type of the form. -/
theorem parseFileName_iff (filename : Bytes) (number : U64) (type : FileType) :
    parseFileName filename = some (number, type) ↔ IsFileName filename number.toNat type :=
  ⟨isFileName_of_parse, parse_of_isFileName⟩

/-- **`parse_file_name` is exact**: it returns true on the names of the grammar whose numbers are
below 2^64, with that number and that type, and on all other names it returns false and leaves the
variables as they are. -/
theorem parseFileNameInto_exact (filename : Bytes) (number : U64) (type : FileType) :
    ((parseFileNameInto filename number type).1 = true
        ↔ ∃ n t, IsFileName filename n t ∧ n ≤ 2 ^ 64 - 1)
      ∧ (∀ n t, IsFileName filename n t → n ≤ 2 ^ 64 - 1 →
        parseFileNameInto filename number type = (true, BitVec.ofNat 64 n, t))
      ∧ ((parseFileNameInto filename number type).1 = false →
        parseFileNameInto filename number type = (false, number, type)) := by
  have haccepted : ∀ n t, IsFileName filename n t → n ≤ 2 ^ 64 - 1 →
      parseFileName filename = some (BitVec.ofNat 64 n, t) := by
    intro n t hname hn
    rw [parseFileName_iff, BitVec.toNat_ofNat, Nat.mod_eq_of_lt (by omega)]
    exact hname
  rw [parseFileNameInto_eq]
  refine ⟨⟨fun h => ?_, ?_⟩, fun n t hname hn => ?_, fun h => ?_⟩
  · obtain ⟨⟨num, t⟩, hparse⟩ := Option.isSome_iff_exists.mp h
    exact ⟨num.toNat, t, (parseFileName_iff _ _ _).mp hparse, Nat.le_sub_one_of_lt num.isLt⟩
  · rintro ⟨n, t, hname, hn⟩
    rw [haccepted n t hname hn]
    rfl
  · rw [haccepted n t hname hn]
    rfl
  · rw [Option.not_isSome_iff_eq_none.mp (Bool.eq_false_iff.mp h)]
    rfl

/-- The largest number, and the next one behind a leading zero. -/
example : parseFileNameInto (text "18446744073709551615.log") 7 .kTempFile
      = (true, BitVec.ofNat 64 (2 ^ 64 - 1), .kLogFile)
    ∧ parseFileNameInto (text "018446744073709551616.log") 7 .kTempFile = (false, 7, .kTempFile) := by
  decide

/-! ## Names that are made -/

/-- What `%06llu` prints is a numeral. -/
theorem numeral_decimal06 (n : Nat) : Numeral (decimal06 n) n := by
  have hdigit : ∀ c ∈ decimal n, isDigit c = true := by
    intro c hc
    unfold decimal at hc
    split_ifs at hc
    · revert c
      decide
    · obtain ⟨d, hd, rfl⟩ := List.mem_map.mp hc
      have hlt : d < 10 := Nat.digits_lt_base (by decide) (List.mem_reverse.mp hd)
      have hch : (BitVec.ofNat 8 (48 + d)).toNat = 48 + d := by
        rw [BitVec.toNat_ofNat, Nat.mod_eq_of_lt (by omega)]
      rw [isDigit, hch]
      exact decide_eq_true (by omega)
  have hne : decimal n ≠ [] := by
    unfold decimal
    split_ifs with hn
    · exact List.cons_ne_nil _ _
    · rw [Ne, List.map_eq_nil_iff, List.reverse_eq_nil_iff]
      exact Nat.digits_ne_nil_iff_ne_zero.mpr hn
  refine ⟨fun h => hne (List.append_eq_nil_iff.mp h).2, fun c hc => ?_, ?_⟩
  · rcases List.mem_append.mp hc with hc | hc
    · rw [List.eq_of_mem_replicate hc]
      decide
    · exact hdigit c hc
  · -- zeros in front of the digits do not count
    rw [digitsValue, decimal06, List.map_append, List.map_replicate, List.reverse_append,
      List.reverse_replicate, show (48#8 : Byte).toNat - 48 = 0 from rfl,
      Nat.ofDigits_append_replicate_zero, ofDigits_decimal]

/-- The name of a manifest parses. -/
theorem parseFileName_descriptorBaseName (number : U64) :
    parseFileName (descriptorBaseName number) = some (number, .kDescriptorFile) :=
  (numeral_decimal06 number.toNat).parse_manifest

/-- The name of a log parses. -/
theorem parseFileName_logBaseName (number : U64) :
    parseFileName (logBaseName number) = some (number, .kLogFile) := by
  have hname : logBaseName number = decimal06 number.toNat ++ text ".log" :=
    List.append_assoc (decimal06 number.toNat) (text ".") (text "log")
  rw [hname, (numeral_decimal06 number.toNat).parse_suffix _ (by decide)]
  rfl

/-- The files in whose names a number stands. -/
inductive NumberedFile where
  | log
  | table
  | temp
  | descriptor
  deriving DecidableEq, Repr

namespace NumberedFile

/-- The function that makes the name. -/
def fileName : NumberedFile → Bytes → U64 → Except Fault Bytes
  | log => logFileName
  | table => tableFileName
  | temp => tempFileName
  | descriptor => descriptorFileName

def type : NumberedFile → FileType
  | log => .kLogFile
  | table => .kTableFile
  | temp => .kTempFile
  | descriptor => .kDescriptorFile

/-- The name without the directory. -/
def baseName (number : U64) : NumberedFile → Bytes
  | log => decimal06 number.toNat ++ text ".log"
  | table => decimal06 number.toNat ++ text ".ldb"
  | temp => decimal06 number.toNat ++ text ".dbtmp"
  | descriptor => descriptorBaseName number

theorem fileName_eq (kind : NumberedFile) (dbname : Bytes) {number : U64} (h : 0 < number) :
    kind.fileName dbname number = .ok (dbname ++ text "/" ++ kind.baseName number) := by
  have hmake : ∀ suffix : String, (do require (0 < number); return makeFileName dbname number suffix)
      = (.ok (dbname ++ text "/" ++ (decimal06 number.toNat ++ (text "." ++ text suffix)))
        : Except Fault Bytes) := by
    intro suffix
    rw [require_of h, ok_bind, makeFileName_eq, List.append_assoc (decimal06 _)]
    rfl
  cases kind with
  | log => exact hmake "log"
  | table => exact hmake "ldb"
  | temp => exact hmake "dbtmp"
  | descriptor =>
      rw [fileName, descriptorFileName, require_of h]
      rfl

/-- **A name that is made parses.** -/
theorem parse_baseName (kind : NumberedFile) (number : U64) :
    parseFileName (kind.baseName number) = some (number, kind.type) := by
  have hnumeral := numeral_decimal06 number.toNat
  cases kind with
  | log => exact hnumeral.parse_suffix (text ".log") (by decide)
  | table => exact hnumeral.parse_suffix (text ".ldb") (by decide)
  | temp => exact hnumeral.parse_suffix (text ".dbtmp") (by decide)
  | descriptor => exact hnumeral.parse_manifest

/-- **File names parse back**, whatever the directory and the number, and names of different numbers
or of different files are different. -/
theorem fileName_parses (kind : NumberedFile) (dbname : Bytes) (number : U64) (h : 0 < number) :
    ∃ name, kind.fileName dbname number = .ok (dbname ++ text "/" ++ name)
      ∧ (∀ n t, parseFileNameInto name n t = (true, number, kind.type))
      ∧ ∀ (kind' : NumberedFile) (number' : U64), 0 < number' →
        kind'.fileName dbname number' = kind.fileName dbname number →
          kind' = kind ∧ number' = number := by
  refine ⟨kind.baseName number, kind.fileName_eq dbname h, fun n t => ?_, fun kind' number' h' heq => ?_⟩
  · rw [parseFileNameInto_eq, kind.parse_baseName]
    rfl
  · rw [kind.fileName_eq dbname h, kind'.fileName_eq dbname h', Except.ok.injEq,
      inDirectory_inj] at heq
    have hparse := kind'.parse_baseName number'
    rw [heq, kind.parse_baseName, Option.some.injEq, Prod.mk.injEq] at hparse
    refine ⟨?_, hparse.1.symm⟩
    have htype := hparse.2
    cases kind <;> cases kind' <;> first | rfl | cases htype

/-- The last number of twenty digits that fits. -/
theorem fileName_parses_max :
    ∃ name, NumberedFile.table.fileName (text "db") (BitVec.ofNat 64 (2 ^ 64 - 1))
        = .ok (text "db" ++ text "/" ++ name)
      ∧ (∀ n t, parseFileNameInto name n t = (true, BitVec.ofNat 64 (2 ^ 64 - 1), .kTableFile))
      ∧ ∀ (kind' : NumberedFile) (number' : U64), 0 < number' →
        kind'.fileName (text "db") number'
            = NumberedFile.table.fileName (text "db") (BitVec.ofNat 64 (2 ^ 64 - 1)) →
          kind' = .table ∧ number' = BitVec.ofNat 64 (2 ^ 64 - 1) :=
  fileName_parses .table (text "db") (BitVec.ofNat 64 (2 ^ 64 - 1)) (by decide)

end NumberedFile

end SimpleLeveldb
