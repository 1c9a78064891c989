import SimpleLeveldb.DbFormat

set_option autoImplicit false

/-! # Write batches (`write_batch.cc`, `__detail/write_batch_internal.cc`)

The format of `rep_` is a header of a sequence number (fixed64) and a count (fixed32), and as many
records as the count says. The record area is right after any calls (`readRecords_run`). The count
is not: `Put` sets it to what it was, so it stays zero.
-/

namespace SimpleLeveldb

/-- The size of the header. -/
def kHeader : Nat := 12

/-- `write_batch`: its `rep_`, which has room for the header. -/
structure WriteBatch where
  rep : Bytes
  header_le : kHeader ≤ rep.length

namespace WriteBatch

/-! ## The code -/

/-- `write_batch_internal::count` -/
def count (batch : WriteBatch) : Int := (decodeFixed32 (batch.rep.drop 8)).toInt

/-- `write_batch_internal::set_count` -/
def setCount (batch : WriteBatch) (n : Int) : WriteBatch where
  rep := batch.rep.take 8 ++ encodeFixed32 (BitVec.ofInt 32 n) ++ batch.rep.drop (8 + 4)
  header_le := by
    have := batch.header_le
    simp only [kHeader, List.length_append, List.length_take, List.length_drop,
      encodeFixed32_length] at this ⊢
    omega

/-- `write_batch::Clear`, and what the constructor leaves. -/
def clear : WriteBatch where
  rep := zeros kHeader
  header_le := (zeros_length kHeader).ge

/-- `write_batch::Put` -/
def put (batch : WriteBatch) (key value : Bytes) : WriteBatch :=
  let batch := batch.setCount batch.count
  { rep := batch.rep ++ [ValueType.kTypeValue.byte] ++ putLengthPrefixedSlice key
      ++ putLengthPrefixedSlice value
    header_le := by
      rw [List.length_append, List.length_append, List.length_append]
      exact le_trans batch.header_le (by omega) }

/-! ## Runs and the format -/

/-- A call on a batch. -/
inductive Call where
  | clear
  | put (key value : Bytes)

def Call.apply (batch : WriteBatch) : Call → WriteBatch
  | .clear => WriteBatch.clear
  | .put key value => batch.put key value

/-- A new batch after calls. -/
def run (calls : List Call) : WriteBatch := calls.foldl Call.apply clear

/-- The puts since the last call of `Clear`. -/
def puts (calls : List Call) : List (Bytes × Bytes) :=
  calls.foldl (fun ps call => match call with
    | .clear => []
    | .put key value => ps ++ [(key, value)]) []

/-- The lengths of the keys and values fit the length prefix. -/
def Call.Short : Call → Prop
  | .clear => True
  | .put key value => key.length < 2 ^ 32 ∧ value.length < 2 ^ 32

/-- One record: the type byte of a value, the key and the value, and the bytes behind it. -/
def readRecord (input : Bytes) : Option ((Bytes × Bytes) × Bytes) :=
  match input with
  | [] => none
  | type :: input =>
      if type = ValueType.kTypeValue.byte then
        match getLengthPrefixedSlice input with
        | none => none
        | some (key, input) =>
            match getLengthPrefixedSlice input with
            | none => none
            | some (value, input) => some ((key, value), input)
      else none

/-- So many records, and the bytes behind them. -/
def readRecords : Nat → Bytes → Option (List (Bytes × Bytes) × Bytes)
  | 0, input => some ([], input)
  | n + 1, input =>
      match readRecord input with
      | none => none
      | some (kv, input) => (readRecords n input).map fun r => (kv :: r.1, r.2)

/-- **The documented format** of a batch that holds the puts `ps`. -/
structure Documented (batch : WriteBatch) (ps : List (Bytes × Bytes)) : Prop where
  count : batch.count = ps.length
  records : readRecords ps.length (batch.rep.drop kHeader) = some (ps, [])

/-! ## The record area -/

/-- The bytes of a put. -/
def encodeRecord (kv : Bytes × Bytes) : Bytes :=
  [ValueType.kTypeValue.byte] ++ putLengthPrefixedSlice kv.1 ++ putLengthPrefixedSlice kv.2

theorem readRecord_encodeRecord {kv : Bytes × Bytes} (hkey : kv.1.length < 2 ^ 32)
    (hvalue : kv.2.length < 2 ^ 32) (rest : Bytes) :
    readRecord (encodeRecord kv ++ rest) = some (kv, rest) := by
  have hsplit : encodeRecord kv ++ rest = ValueType.kTypeValue.byte
      :: (putLengthPrefixedSlice kv.1 ++ (putLengthPrefixedSlice kv.2 ++ rest)) := by
    simp [encodeRecord]
  rw [hsplit, readRecord, if_pos rfl]
  simp only [getLengthPrefixedSlice_put hkey, getLengthPrefixedSlice_put hvalue]

theorem readRecords_encodeRecord (ps : List (Bytes × Bytes))
    (h : ∀ kv ∈ ps, kv.1.length < 2 ^ 32 ∧ kv.2.length < 2 ^ 32) (rest : Bytes) :
    readRecords ps.length (ps.flatMap encodeRecord ++ rest) = some (ps, rest) := by
  induction ps with
  | nil => rfl
  | cons kv ps ih =>
      obtain ⟨hkv, hps⟩ := List.forall_mem_cons.mp h
      rw [List.length_cons, readRecords, List.flatMap_cons, List.append_assoc,
        readRecord_encodeRecord hkv.1 hkv.2]
      simp only [ih hps, Option.map_some]

/-- The count of a batch, set to what it is, changes nothing. -/
theorem setCount_count (batch : WriteBatch) : (batch.setCount batch.count).rep = batch.rep := by
  obtain ⟨rep, hle⟩ := batch
  obtain ⟨b0, b1, b2, b3, rest, hdrop⟩ : ∃ b0 b1 b2 b3 rest, rep.drop 8 = b0 :: b1 :: b2 :: b3 :: rest := by
    have hlen : 4 ≤ (rep.drop 8).length := by
      rw [List.length_drop]
      simp only [kHeader] at hle
      omega
    match rep.drop 8, hlen with
    | b0 :: b1 :: b2 :: b3 :: rest, _ => exact ⟨_, _, _, _, _, rfl⟩
  have hrest : rep.drop (8 + 4) = rest := by
    rw [← List.drop_drop, hdrop]
    rfl
  show rep.take 8 ++ encodeFixed32 (BitVec.ofInt 32 (decodeFixed32 (rep.drop 8)).toInt)
    ++ rep.drop (8 + 4) = rep
  rw [BitVec.ofInt_toInt, hdrop, encodeFixed32_decodeFixed32, hrest, List.append_assoc]
  exact (congrArg (rep.take 8 ++ ·) hdrop.symm).trans (List.take_append_drop 8 rep)

theorem put_rep (batch : WriteBatch) (key value : Bytes) :
    (batch.put key value).rep = batch.rep ++ encodeRecord (key, value) := by
  show (batch.setCount batch.count).rep ++ _ ++ _ ++ _ = _
  rw [setCount_count, encodeRecord]
  simp only [List.append_assoc]

theorem run_append (calls : List Call) (call : Call) :
    run (calls ++ [call]) = call.apply (run calls) := by
  rw [run, List.foldl_append]
  rfl

theorem puts_append (calls : List Call) (call : Call) :
    puts (calls ++ [call]) = match call with
      | .clear => []
      | .put key value => puts calls ++ [(key, value)] := by
  rw [puts, List.foldl_append]
  rfl

/-- **After any calls** `rep_` is a header of zeros and the puts since the last `Clear`. -/
theorem run_rep (calls : List Call) :
    (run calls).rep = zeros kHeader ++ (puts calls).flatMap encodeRecord := by
  induction calls using List.reverseRecOn with
  | nil => rfl
  | append_singleton calls call ih =>
      rw [run_append, puts_append]
      cases call with
      | clear => rfl
      | put key value =>
          rw [Call.apply, put_rep, ih, List.flatMap_append, List.append_assoc]
          simp only [List.flatMap_cons, List.flatMap_nil, List.append_nil]

theorem puts_short {calls : List Call} (h : ∀ call ∈ calls, call.Short) :
    ∀ kv ∈ puts calls, kv.1.length < 2 ^ 32 ∧ kv.2.length < 2 ^ 32 := by
  induction calls using List.reverseRecOn with
  | nil => simp [puts]
  | append_singleton calls call ih =>
      obtain ⟨hcalls, hcall⟩ := List.forall_mem_append.mp h
      rw [puts_append]
      cases call with
      | clear => simp
      | put key value =>
          refine List.forall_mem_append.mpr ⟨ih hcalls, ?_⟩
          rw [List.forall_mem_singleton]
          exact hcall _ List.mem_cons_self

theorem drop_run (calls : List Call) :
    (run calls).rep.drop kHeader = (puts calls).flatMap encodeRecord := by
  rw [run_rep, List.drop_left' (zeros_length kHeader)]

/-- **The record area** is in the documented format after any calls. -/
theorem readRecords_run (calls : List Call) (h : ∀ call ∈ calls, call.Short) :
    readRecords (puts calls).length ((run calls).rep.drop kHeader) = some (puts calls, []) := by
  have hread := readRecords_encodeRecord (puts calls) (puts_short h) []
  rw [List.append_nil] at hread
  rw [drop_run, hread]

/-! ## The count -/

/-- The count stays zero. -/
theorem count_run (calls : List Call) : (run calls).count = 0 := by
  have hzeros : (zeros kHeader).drop 8 = encodeFixed32 0 := by decide
  rw [count, run_rep, List.drop_append_of_le_length (by rw [zeros_length]; decide), hzeros,
    decodeFixed32_encodeFixed32]
  rfl

/-- **When a batch is in the documented format**: exactly when there has been no put since the
last `Clear`. -/
theorem documented_run_iff (calls : List Call) :
    Documented (run calls) (puts calls) ↔ puts calls = [] := by
  constructor
  · intro h
    have hcount := h.count
    rw [count_run] at hcount
    exact List.length_eq_zero_iff.mp (Int.natCast_eq_zero.mp hcount.symm)
  · intro hnil
    refine ⟨?_, ?_⟩
    · rw [count_run, hnil]
      rfl
    · rw [drop_run, hnil]
      rfl

/-- One put is not counted. -/
theorem not_documented_put :
    ¬ Documented (run [.put (text "a") (text "b")]) (puts [.put (text "a") (text "b")]) := by
  intro h
  have hcount := h.count
  rw [count_run] at hcount
  exact absurd hcount (by decide)

end WriteBatch

end SimpleLeveldb
