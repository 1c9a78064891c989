import SimpleLeveldb.Log.Damage

set_option autoImplicit false

/-! # Reading from an offset

A reader with an `initial_offset` should return the records that start at or behind it. But
`read_record` returns false when `skip_to_initial_block` returns true, which says that the skip
succeeded: with an offset other than zero no record is ever returned.
-/

namespace SimpleLeveldb.Log

/-- The records whose first physical record starts at or behind an offset. -/
def LogImage.recordsFrom (log : LogImage) (offset : Nat) : List Bytes :=
  (log.placed.filter fun r => decide (∀ x ∈ r.2.head?, offset ≤ x.1)).map Prod.fst

namespace Reader

/-- **Reading from an offset**: the reader returns the records that start at or behind it, and then
false. -/
def ReadsFrom (log : LogImage) (reporter : Option (List (Nat × Status))) (checksum : Bool)
    (offset : U64) : Prop :=
  ∃ rd, readAll (Reader.new ⟨log.bytes, []⟩ reporter checksum offset)
    = .ok (log.recordsFrom offset.toNat, rd)

/-! ## Offset zero -/

theorem torn_zeros {o k : Nat} (ho : o ≤ kBlockSize) (hk : k ≤ padding o) : Torn o (zeros k) := by
  refine ⟨⟨.kFullType, []⟩, k, start_add_kHeaderSize_le ho, ?_, ?_⟩
  · rw [Fragment.encode_length]
    have : kHeaderSize = 7 := rfl
    omega
  · rw [List.take_append_of_le_length (by rw [zeros_length]; exact hk), zeros, zeros,
      List.take_replicate, min_eq_left hk]

theorem recordsFrom_zero (log : LogImage) : log.recordsFrom 0 = log.records := by
  have hlen : log.records.length = (placeAll 0 log.pieces).length := by
    rw [length_placeAll, log.formed.length_eq]
  unfold LogImage.recordsFrom
  rw [List.filter_eq_self.mpr (by simp)]
  exact List.map_fst_zip hlen.le

/-- From the start of the file all records are read. -/
theorem readsFrom_zero (log : LogImage) (reporter : Option (List (Nat × Status)))
    (checksum : Bool) : ReadsFrom log reporter checksum 0 := by
  have hend := endOffset_le (Nat.zero_le kBlockSize) log.fits
  obtain ⟨rd, hread, -⟩ := readAll_layout log.fits (torn_zeros hend log.trailer_le) reporter checksum
  refine ⟨rd, ?_⟩
  rw [LogImage.bytes, hread, assemble_flatten log.formed]
  exact congrArg (fun ds => Except.ok (ds, rd)) (recordsFrom_zero log).symm

/-! ## Other offsets -/

/-- The skip succeeds. -/
theorem skipToInitialBlock_new (data : Bytes) (reporter : Option (List (Nat × Status)))
    (checksum : Bool) (offset : U64) :
    (skipToInitialBlock (Reader.new ⟨data, []⟩ reporter checksum offset)).1 = true := by
  have hskip : ∀ n, ((Reader.new ⟨data, []⟩ reporter checksum offset).file.skip n).1.isOk = true :=
    fun _ => rfl
  unfold skipToInitialBlock
  simp only [hskip, Bool.not_true, Bool.false_eq_true, if_false]
  split_ifs
  · rfl
  · rfl
  · rfl
  · rfl

/-- **No record is read** from an offset other than zero. -/
theorem readAll_of_ne_zero (data : Bytes) (reporter : Option (List (Nat × Status)))
    (checksum : Bool) {offset : U64} (h : offset ≠ 0) :
    ∃ rd, readAll (Reader.new ⟨data, []⟩ reporter checksum offset) = .ok ([], rd) := by
  have hlt : (Reader.new ⟨data, []⟩ reporter checksum offset).lastRecordOffset
      < (Reader.new ⟨data, []⟩ reporter checksum offset).initialOffset := by
    show (0 : U64) < offset
    rw [BitVec.lt_def]
    exact Nat.pos_of_ne_zero fun hz => h (BitVec.eq_of_toNat_eq hz)
  have hskip := skipToInitialBlock_new data reporter checksum offset
  obtain ⟨⟨skipped, rd⟩, hs⟩ : ∃ r, skipToInitialBlock (Reader.new ⟨data, []⟩ reporter checksum offset)
      = r := ⟨_, rfl⟩
  rw [hs] at hskip
  obtain rfl : skipped = true := hskip
  have hread : readRecord (Reader.new ⟨data, []⟩ reporter checksum offset) = .ok (false, [], rd) := by
    rw [readRecord, if_pos hlt, hs]
    rfl
  refine ⟨rd, Loop.run_inr _ ?_ _⟩
  rw [readAllTurn, hread]
  rfl

theorem recordsFrom_eq_nil (log : LogImage) (offset : Nat) :
    log.recordsFrom offset = [] ↔ ∀ r ∈ log.placed, ∀ x ∈ r.2.head?, x.1 < offset := by
  unfold LogImage.recordsFrom
  rw [List.map_eq_nil_iff, List.filter_eq_nil_iff]
  refine forall₂_congr fun r hr => ?_
  rw [decide_eq_true_iff]
  -- a record has a first physical record
  obtain ⟨x, xs, hx⟩ : ∃ x xs, r.2 = x :: xs :=
    List.exists_cons_of_ne_nil fun hnil => (log.placed_pieces r hr).ne_nil (by rw [hnil]; rfl)
  rw [hx, List.head?_cons]
  simp

/-- **When a reader reads from its offset**: exactly when the offset is zero, or every record
starts in front of it. -/
theorem readsFrom_iff (log : LogImage) (reporter : Option (List (Nat × Status))) (checksum : Bool)
    (offset : U64) :
    ReadsFrom log reporter checksum offset
      ↔ offset = 0 ∨ ∀ r ∈ log.placed, ∀ x ∈ r.2.head?, x.1 < offset.toNat := by
  by_cases h : offset = 0
  · subst h
    exact iff_of_true (readsFrom_zero log reporter checksum) (.inl rfl)
  · rw [or_iff_right h, ← recordsFrom_eq_nil]
    obtain ⟨rd, hread⟩ := readAll_of_ne_zero log.bytes reporter checksum h
    unfold ReadsFrom
    rw [hread]
    constructor
    · rintro ⟨rd', heq⟩
      exact (Prod.mk.inj (Except.ok.inj heq)).1.symm
    · intro hnil
      exact ⟨rd, by rw [hnil]⟩

/-- The record "cd" starts at the offset 9, and is not read from there. -/
theorem not_readsFrom_nine : ¬ ReadsFrom twoRecords (some []) true 9 := by
  obtain ⟨rd, hread⟩ := readAll_of_ne_zero twoRecords.bytes (some []) true
    (by decide : (9 : U64) ≠ 0)
  rintro ⟨rd', heq⟩
  rw [hread] at heq
  have hrecords : ([] : List Bytes) = twoRecords.recordsFrom (9 : U64).toNat :=
    (Prod.mk.inj (Except.ok.inj heq)).1
  exact absurd hrecords (by decide)

end Reader

end SimpleLeveldb.Log
