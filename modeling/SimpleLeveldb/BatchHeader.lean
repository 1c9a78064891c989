import SimpleLeveldb.WriteBatch

set_option autoImplicit false

/-! # The header of a write batch (`__detail/write_batch_internal.cc`)

The header holds a sequence number in its first eight bytes and a count in the next four.
`set_count` writes the count. `set_sequence` writes eight bytes from index 8 on: over the count and
the first four bytes of the records, or past the end of a batch without records. No call writes the
first eight bytes, so that `sequence` is 0 in every run (`sequence_run`).
-/

namespace SimpleLeveldb.WriteBatch

/-- `write_batch_internal::sequence` -/
def sequence (batch : WriteBatch) : U64 := decodeFixed64 batch.rep

/-- `write_batch_internal::set_sequence`: the bytes written must lie in `rep_`. -/
def setSequence (batch : WriteBatch) (seq : U64) : Except Fault WriteBatch :=
  if h : 8 + 8 ≤ batch.rep.length then
    .ok {
      rep := batch.rep.take 8 ++ encodeFixed64 seq ++ batch.rep.drop (8 + 8)
      header_le := by
        have hlen : (encodeFixed64 seq).length = 8 := rfl
        rw [List.length_append, List.length_append, List.length_take, List.length_drop, hlen, kHeader]
        omega }
  else .error .badAccess

/-! ## Runs -/

/-- The calls that write a batch or its header. -/
inductive HeaderCall where
  | clear
  | put (key value : Bytes)
  | setCount (n : U32)
  | setSequence (seq : U64)

def HeaderCall.apply (batch : WriteBatch) : HeaderCall → Except Fault WriteBatch
  | .clear => .ok WriteBatch.clear
  | .put key value => .ok (batch.put key value)
  | .setCount n => .ok (batch.setCount n.toInt)
  | .setSequence seq => batch.setSequence seq

/-- A new batch after calls. -/
def runHeader (calls : List HeaderCall) : Except Fault WriteBatch :=
  calls.foldlM HeaderCall.apply clear

/-- What `set_sequence( b, s )` must do. -/
def SetsSequence (batch : WriteBatch) (s : U64) : Prop :=
  ∃ batch', batch.setSequence s = .ok batch' ∧ batch'.sequence = s ∧ batch'.count = batch.count
    ∧ batch'.rep.length = batch.rep.length ∧ batch'.rep.drop kHeader = batch.rep.drop kHeader

/-- What `set_count( b, n )` must do. -/
structure SetsCount (batch : WriteBatch) (n : U32) : Prop where
  count : (batch.setCount n.toInt).count = n.toInt
  sequence : (batch.setCount n.toInt).sequence = batch.sequence
  length : (batch.setCount n.toInt).rep.length = batch.rep.length
  records : (batch.setCount n.toInt).rep.drop kHeader = batch.rep.drop kHeader

/-! ## The three parts of a batch -/

/-- The bytes of the count. -/
theorem encodeFixed32_count (batch : WriteBatch) :
    encodeFixed32 (decodeFixed32 (batch.rep.drop 8)) = (batch.rep.drop 8).take 4 := by
  have hlen : 4 ≤ (batch.rep.drop 8).length := by
    have hle := batch.header_le
    rw [List.length_drop]
    simp only [kHeader] at hle
    omega
  match batch.rep.drop 8, hlen with
  | b0 :: b1 :: b2 :: b3 :: rest, _ => exact encodeFixed32_decodeFixed32 b0 b1 b2 b3 rest

/-- A batch is its first eight bytes, its count and its records. -/
theorem rep_eq (batch : WriteBatch) :
    batch.rep = batch.rep.take 8 ++ encodeFixed32 (decodeFixed32 (batch.rep.drop 8))
      ++ batch.rep.drop kHeader := by
  have hdrop : batch.rep.drop kHeader = (batch.rep.drop 8).drop 4 := by rw [List.drop_drop]; rfl
  rw [encodeFixed32_count, hdrop, List.append_assoc, List.take_append_drop, List.take_append_drop]

theorem decodeFixed64_take (bytes : Bytes) : decodeFixed64 (bytes.take 8) = decodeFixed64 bytes := by
  have hget : ∀ i, i < 8 → (bytes.take 8).getD i 0#8 = bytes.getD i 0#8 := by
    intro i hi
    rw [List.getD_eq_getElem?_getD, List.getD_eq_getElem?_getD, List.getElem?_take_of_lt hi]
  simp only [decodeFixed64, hget 0 (by decide), hget 1 (by decide), hget 2 (by decide),
    hget 3 (by decide), hget 4 (by decide), hget 5 (by decide), hget 6 (by decide),
    hget 7 (by decide)]

/-- What is written behind the first eight bytes leaves the sequence number. -/
theorem sequence_of_take {batch batch' : WriteBatch} (h : batch'.rep.take 8 = batch.rep.take 8) :
    batch'.sequence = batch.sequence := by
  rw [sequence, sequence, ← decodeFixed64_take, h, decodeFixed64_take]

theorem take_length (batch : WriteBatch) : (batch.rep.take 8).length = 8 := by
  have hle := batch.header_le
  rw [List.length_take]
  simp only [kHeader] at hle
  omega

/-- **`set_count`** changes the count, and nothing else. -/
theorem setsCount (batch : WriteBatch) (n : U32) : SetsCount batch n := by
  have hrep : (batch.setCount n.toInt).rep
      = batch.rep.take 8 ++ (encodeFixed32 n ++ batch.rep.drop kHeader) := by
    show batch.rep.take 8 ++ encodeFixed32 (BitVec.ofInt 32 n.toInt) ++ batch.rep.drop (8 + 4) = _
    rw [BitVec.ofInt_toInt, List.append_assoc]
    rfl
  have hlen := batch.take_length
  refine ⟨?_, sequence_of_take ?_, ?_, ?_⟩
  -- each part is read back from the three that the bytes are made of
  · rw [count, hrep, List.drop_left' hlen, decodeFixed32_encodeFixed32]
  · rw [hrep, List.take_left' hlen]
  · have hle := batch.header_le
    rw [hrep, List.length_append, List.length_append, hlen, List.length_drop, encodeFixed32_length]
    simp only [kHeader] at hle ⊢
    omega
  · rw [hrep, ← List.append_assoc, List.drop_left']
    rw [List.length_append, hlen, encodeFixed32_length, kHeader]

/-- Batches with the same three parts have the same bytes. -/
theorem rep_ext {batch batch' : WriteBatch} (htake : batch'.rep.take 8 = batch.rep.take 8)
    (hcount : batch'.count = batch.count)
    (hrecords : batch'.rep.drop kHeader = batch.rep.drop kHeader) : batch'.rep = batch.rep := by
  have hdecode : decodeFixed32 (batch'.rep.drop 8) = decodeFixed32 (batch.rep.drop 8) :=
    BitVec.eq_of_toInt_eq hcount
  rw [rep_eq batch', htake, hdecode, hrecords, ← rep_eq]

/-! ## `set_sequence` -/

theorem setSequence_eq_ok {batch batch' : WriteBatch} {seq : U64}
    (h : batch.setSequence seq = .ok batch') :
    16 ≤ batch.rep.length
      ∧ batch'.rep = batch.rep.take 8 ++ (encodeFixed64 seq ++ batch.rep.drop 16) := by
  unfold setSequence at h
  split_ifs at h with hlen
  cases h
  exact ⟨hlen, List.append_assoc _ _ _⟩

/-- **Where `set_sequence` does what it must**, it changes nothing: the batch has the sequence number
already, and the eight bytes from index 8 on are those of the number. -/
theorem setsSequence_iff (batch : WriteBatch) (s : U64) :
    SetsSequence batch s ↔ batch.sequence = s ∧ 16 ≤ batch.rep.length
      ∧ (batch.rep.drop 8).take 8 = encodeFixed64 s := by
  have hparts : batch.rep = batch.rep.take 8
      ++ ((batch.rep.drop 8).take 8 ++ batch.rep.drop 16) := by
    have hdrop : batch.rep.drop 16 = (batch.rep.drop 8).drop 8 := by rw [List.drop_drop]
    rw [hdrop, List.take_append_drop, List.take_append_drop]
  constructor
  · rintro ⟨batch', hset, hseq, hcount, -, hrecords⟩
    obtain ⟨hlen, hrep⟩ := setSequence_eq_ok hset
    have htake : batch'.rep.take 8 = batch.rep.take 8 := by
      rw [hrep, List.take_left' batch.take_length]
    -- the first eight bytes, the count and the records are the same, so nothing has changed
    have hsame : batch'.rep = batch.rep := rep_ext htake hcount hrecords
    refine ⟨(sequence_of_take htake).symm.trans hseq, hlen, ?_⟩
    rw [← hsame, hrep, List.drop_left' batch.take_length, List.take_left']
    rfl
  · rintro ⟨hseq, hlen, hbytes⟩
    have hset : ∃ batch', batch.setSequence s = .ok batch' := ⟨_, dif_pos hlen⟩
    obtain ⟨batch', hset⟩ := hset
    have hsame : batch'.rep = batch.rep := by
      rw [(setSequence_eq_ok hset).2, ← hbytes, ← hparts]
    refine ⟨batch', hset, ?_, ?_, ?_, ?_⟩
    · rw [sequence, hsame]
      exact hseq
    · rw [count, hsame, count]
    · rw [hsame]
    · rw [hsame]

/-! ## Every run -/

/-- No call writes the first eight bytes. -/
theorem HeaderCall.apply_take {batch batch' : WriteBatch} {call : HeaderCall}
    (hzeros : batch.rep.take 8 = zeros 8) (h : call.apply batch = .ok batch') :
    batch'.rep.take 8 = zeros 8 := by
  cases call with
  | clear =>
      cases h
      rfl
  | put key value =>
      cases h
      have hle := batch.header_le
      rw [put_rep, List.take_append_of_le_length, hzeros]
      simp only [kHeader] at hle
      omega
  | setCount n =>
      cases h
      show (batch.rep.take 8 ++ _ ++ _).take 8 = zeros 8
      rw [List.append_assoc, List.take_left' batch.take_length, hzeros]
  | setSequence seq =>
      -- it writes from the eighth byte on
      rw [(setSequence_eq_ok h).2, List.take_left' batch.take_length, hzeros]

theorem take_runHeader {calls : List HeaderCall} {batch : WriteBatch}
    (h : runHeader calls = .ok batch) : batch.rep.take 8 = zeros 8 :=
  foldlM_invariant (fun batch => batch.rep.take 8 = zeros 8)
    (fun _ _ _ hzeros happly => HeaderCall.apply_take hzeros happly) rfl h

/-- The sequence number stays 0. -/
theorem sequence_run {calls : List HeaderCall} {batch : WriteBatch}
    (h : runHeader calls = .ok batch) : batch.sequence = 0 := by
  rw [sequence, ← decodeFixed64_take, take_runHeader h]
  decide

/-- **The header of a batch in every run**: `set_count` changes the count and nothing else, and
`set_sequence` does what it must exactly for the number 0 on a batch with the count 0 and at least
four more bytes, which are zeros. -/
theorem header_run_iff (calls : List HeaderCall) (batch : WriteBatch)
    (h : runHeader calls = .ok batch) :
    (∀ n, SetsCount batch n)
      ∧ ∀ s, SetsSequence batch s ↔ s = 0 ∧ 16 ≤ batch.rep.length
        ∧ (batch.rep.drop 8).take 8 = zeros 8 := by
  refine ⟨batch.setsCount, fun s => ?_⟩
  rw [setsSequence_iff, sequence_run h, eq_comm (a := (0 : U64))]
  constructor
  · rintro ⟨rfl, hlen, hbytes⟩
    exact ⟨rfl, hlen, hbytes⟩
  · rintro ⟨rfl, hlen, hbytes⟩
    exact ⟨rfl, hlen, hbytes⟩

/-- After one put the number 5 lands in the count. -/
theorem header_run_put :
    (∀ n, SetsCount ((clear.put (text "k") (text "v"))) n)
      ∧ ∀ s, SetsSequence (clear.put (text "k") (text "v")) s ↔ s = 0
        ∧ 16 ≤ (clear.put (text "k") (text "v")).rep.length
        ∧ ((clear.put (text "k") (text "v")).rep.drop 8).take 8 = zeros 8 :=
  header_run_iff [.put (text "k") (text "v")] _ rfl

theorem not_setsSequence_run : ¬ ∀ (calls : List HeaderCall) (batch : WriteBatch),
    runHeader calls = .ok batch → ∀ s, SetsSequence batch s := by
  intro hall
  have hset := hall [.put (text "k") (text "v")] _ rfl 5
  exact absurd ((setsSequence_iff _ _).mp hset).1 (by decide)

end SimpleLeveldb.WriteBatch
