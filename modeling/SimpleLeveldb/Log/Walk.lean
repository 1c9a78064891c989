import SimpleLeveldb.Log.Items

set_option autoImplicit false

/-! # The reader on arbitrary bytes

What `read_physical_record` returns at a position of a file is the next item there
(`readPhysicalRecord_some`, `readPhysicalRecord_none`). What `read_record` makes of the items in
front of it, and which reports it makes, is `nextRecord`, without any bytes in sight
(`readRecord_walk`).
-/

namespace SimpleLeveldb.Log

/-! ## One physical record -/

namespace Reader

/-- More calls of the reporter, if there is one. -/
def addCalls (reporter : Option (List (Nat × Status))) (calls : List (Nat × Status)) :
    Option (List (Nat × Status)) := reporter.map fun old => old ++ calls

@[simp] theorem addCalls_nil (reporter : Option (List (Nat × Status))) :
    addCalls reporter [] = reporter := by
  cases reporter <;> simp [addCalls]

theorem addCalls_addCalls (reporter : Option (List (Nat × Status)))
    (calls calls' : List (Nat × Status)) :
    addCalls (addCalls reporter calls) calls' = addCalls reporter (calls ++ calls') := by
  cases reporter <;> simp [addCalls]

/-- Every report from the start of the file is made. -/
theorem reportCorruption_of_zero {rd : Reader} (h : rd.initialOffset = 0) (n : Nat)
    (reason : Bytes) :
    rd.reportCorruption n reason
      = { rd with reporter := addCalls rd.reporter [(n, .corruption reason)] } := by
  have hall : ∀ x : U64, x ≥ rd.initialOffset := by
    intro x
    rw [h]
    exact BitVec.le_def.mpr (Nat.zero_le _)
  obtain ⟨file, reporter, checksum, buffer, eof, last, endOff, initial, resyncing⟩ := rd
  cases reporter with
  | none => rfl
  | some calls => exact if_pos (hall _)

theorem lengthField_eq (b : Bytes) :
    ((charToU32 (b.getD 4 0#8) &&& 0xff#32)
      ||| ((charToU32 (b.getD 5 0#8) &&& 0xff#32) <<< 8)).toNat = lengthField b := by
  have h5 := (b.getD 5 0#8).isLt
  have h4 := (b.getD 4 0#8).isLt
  have hlow : ∀ c : Byte, (c.setWidth 32).toNat = c.toNat := by
    intro c
    have := c.isLt
    rw [BitVec.toNat_setWidth]
    omega
  rw [charToU32_and_ff, charToU32_and_ff, Varint.toNat_or_shift (m := (b.getD 5 0#8).toNat)
    (hlow _) (by rw [hlow]; omega) (by omega), hlow, lengthField]
  omega

theorem charToU32_eq_zero (c : Byte) : (charToU32 c).toNat = RecordType.kZeroType.toNat ↔ c = 0#8 := by
  revert c
  decide

/-- **A reader at a position** of a file, with the checksum on and `data` left of it. -/
def Stands (pos : Nat) (data : Bytes) (rd : Reader) : Prop :=
  rd.checksum = true
    ∧ ∃ o, At o data rd ∧ padding o = padding (pos % kBlockSize) ∧ start o = start (pos % kBlockSize)

theorem At.stands {o pos : Nat} {data : Bytes} {rd : Reader} (h : At o data rd)
    (hchecksum : rd.checksum = true) (ho : o = pos % kBlockSize ∨ o = kBlockSize ∧ pos % kBlockSize = 0) : Stands pos data rd := by
  refine ⟨hchecksum, o, h, ?_⟩
  rcases ho with rfl | ⟨rfl, hpos⟩
  · exact ⟨rfl, rfl⟩
  · rw [hpos]
    exact ⟨rfl, rfl⟩

theorem stands_new (data : Bytes) (reporter : Option (List (Nat × Status))) :
    Stands 0 data (Reader.new ⟨data, []⟩ reporter true 0) :=
  (at_new data reporter true).stands rfl (.inr ⟨rfl, rfl⟩)

/-- What `read_physical_record` returns for an item. -/
def itemType : Item → U32
  | .record _ type _ => charToU32 type
  | .bad _ _ => kBadRecord

/-- `*result` after it. -/
def itemFragment (result : Bytes) : Item → Bytes
  | .record _ _ payload => payload
  | .bad _ _ => result

/-- The reports that `read_physical_record` makes. -/
def itemReports : Item → List (Nat × Status)
  | .record _ _ _ => []
  | .bad _ calls => calls

/-- **A turn with a header in the buffer** does what `parse` says. -/
theorem turn_parse {o : Nat} {data : Bytes} {rd : Reader} (h : At o data rd)
    (hchecksum : rd.checksum = true) (ho : o + kHeaderSize ≤ kBlockSize) (hlen : kHeaderSize ≤ data.length) (pos : Nat)
    (result : Bytes) :
    match parse pos (data.take (kBlockSize - o)) (decide (data.length < kBlockSize - o)) with
    | none => ∃ rd', readPhysicalRecordTurn result rd = .ok (.inr (kEof, result, rd'))
        ∧ At 0 [] rd' ∧ rd'.checksum = true ∧ rd'.reporter = rd.reporter
    | some (i, n) => ∃ rd', readPhysicalRecordTurn result rd
          = .ok (.inr (itemType i, itemFragment result i, rd'))
        ∧ At (o + n) (data.drop n) rd' ∧ rd'.checksum = true
        ∧ rd'.reporter = addCalls rd.reporter (itemReports i) := by
  obtain ⟨file, reporter, checksum, buffer, eof, lastOff, endOff, initial, resyncing⟩ := rd
  obtain ⟨hle, hbuffer, hrest, heof, hsound, hinitial, hresyncing⟩ := h
  simp only at hchecksum hbuffer hrest heof hsound hinitial hresyncing
  subst hchecksum hinitial hresyncing
  set b := data.take (kBlockSize - o) with hb
  have hblen : b.length = min (kBlockSize - o) data.length := List.length_take
  have hge : ¬ b.length < kHeaderSize := by omega
  -- the reader when the block is dropped
  have hdrop : ∀ reporter', At (o + b.length) (data.drop b.length)
      ⟨file, reporter', true, [], eof, lastOff, endOff, 0, false⟩ := by
    refine fun reporter' => ⟨by omega, ?_, ?_, ?_, hsound, rfl, rfl⟩
    · symm
      rw [List.take_eq_nil_iff, List.drop_eq_nil_iff]
      omega
    · show file.rest = _
      rw [hrest, List.drop_drop]
      congr 1
      omega
    · show eof = _
      rw [heof, List.length_drop]
      apply decide_eq_decide.mpr
      omega
  have hreport : ∀ eof' reason, (Reader.mk file reporter true [] eof' lastOff endOff 0
      false).reportCorruption b.length reason = ⟨file, addCalls reporter
        [(b.length, .corruption reason)], true, [], eof', lastOff, endOff, 0, false⟩ :=
    fun _ reason => reportCorruption_of_zero rfl b.length reason
  rw [parse]
  simp only [readPhysicalRecordTurn, hbuffer, if_neg hge, lengthField_eq, charToU32_eq_zero,
    true_and, hreport]
  by_cases hshort : b.length < kHeaderSize + lengthField b
  · simp only [if_pos hshort]
    by_cases hlast : data.length < kBlockSize - o
    · rw [decide_eq_true hlast] at heof ⊢
      subst heof
      refine ⟨_, rfl, ⟨Nat.zero_le _, rfl, ?_, rfl, hsound, rfl, rfl⟩, rfl, rfl⟩
      show file.rest = _
      rw [hrest, List.drop_eq_nil_of_le (by omega), List.drop_nil]
    · rw [decide_eq_false hlast] at heof ⊢
      subst heof
      exact ⟨_, rfl, hdrop _, rfl, rfl⟩
  · simp only [if_neg hshort]
    by_cases hzero : b.getD 6 0#8 = 0#8 ∧ lengthField b = 0
    · simp only [if_pos hzero]
      exact ⟨_, rfl, hdrop _, rfl, by simp [itemReports]⟩
    · simp only [if_neg hzero]
      by_cases hcrc : crcMatches b
      · have hcrc' : ¬ Crc32c.value ((b.drop 6).take (1 + lengthField b))
            ≠ Crc32c.unmask (decodeFixed32 b) := not_not_intro hcrc
        have hoff : ∀ x : U64, ¬ x < 0 := by
          intro x
          rw [BitVec.lt_def]
          exact Nat.not_lt_zero _
        simp only [if_pos hcrc, if_neg hcrc', if_neg (hoff _)]
        refine ⟨_, rfl, ⟨by omega, ?_, ?_, ?_, hsound, rfl, rfl⟩, rfl, by simp [itemReports]⟩
        · show b.drop _ = _
          rw [hb, List.drop_take, Nat.sub_sub]
        · show file.rest = _
          rw [hrest, List.drop_drop]
          congr 1
          omega
        · show eof = _
          rw [heof, List.length_drop]
          apply decide_eq_decide.mpr
          omega
      · have hcrc' : Crc32c.value ((b.drop 6).take (1 + lengthField b))
            ≠ Crc32c.unmask (decodeFixed32 b) := hcrc
        simp only [if_neg hcrc, if_pos hcrc']
        exact ⟨_, rfl, hdrop _, rfl, rfl⟩

/-- At the end of a file the reader stands at any block start behind it. -/
theorem stands_nil {rd : Reader} (h : At 0 [] rd) (hchecksum : rd.checksum = true) (whole : Bytes) :
    ∃ pos, Stands pos (whole.drop pos) rd ∧ Walk pos (whole.drop pos) [] := by
  have hnil : whole.drop (kBlockSize * whole.length) = [] := by
    refine List.drop_eq_nil_of_le ?_
    simp only [kBlockSize]
    omega
  refine ⟨kBlockSize * whole.length, ?_, ?_⟩
  · rw [hnil]
    exact h.stands hchecksum (.inl (Nat.mul_mod_right _ _).symm)
  · rw [hnil]
    exact .done (step_nil _)

/-- **Where the next item starts**: the reader gets there with one refill at most. -/
theorem At.arrive {o : Nat} {data : Bytes} {rd : Reader} (h : At o data rd)
    (hlen : padding o ≤ data.length) (result : Bytes) :
    ∃ rd', At (start o) (data.drop (padding o)) rd' ∧ rd'.checksum = rd.checksum
      ∧ rd'.reporter = rd.reporter ∧ ∀ n, ∃ m, n ≤ m
        ∧ Loop.run Fault.endless (readPhysicalRecordTurn result) (n + 1) rd
          = Loop.run Fault.endless (readPhysicalRecordTurn result) m rd' := by
  by_cases ho : kBlockSize - o < kHeaderSize
  · obtain ⟨hpad, hstart⟩ := padding_of_lt ho
    rw [hpad] at hlen ⊢
    rw [hstart]
    obtain ⟨rd', hturn, hat, hrep, hcheck⟩ := turn_refill h ho hlen result
    exact ⟨rd', hat, hcheck, hrep, fun n => ⟨n, le_rfl, Loop.run_inl _ hturn n⟩⟩
  · obtain ⟨hpad, hstart⟩ := padding_of_ge ho
    rw [hpad, hstart, List.drop_zero]
    exact ⟨rd, h, rfl, rfl, fun n => ⟨n + 1, Nat.le_succ n, rfl⟩⟩

/-- **`read_physical_record` at the end**: there is no room for another item. -/
theorem readPhysicalRecord_none {pos : Nat} {data : Bytes} {rd : Reader} (h : Stands pos data rd)
    (hs : step pos data = none) (result : Bytes) :
    ∃ rd', rd.readPhysicalRecord result = .ok (kEof, result, rd') ∧ At 0 [] rd'
      ∧ rd'.checksum = true ∧ rd'.reporter = rd.reporter := by
  obtain ⟨hchecksum, o, hat, hpad, hstart⟩ := h
  unfold step at hs
  simp only [← hpad, ← hstart] at hs
  have hroom := start_add_kHeaderSize_le hat.le
  rw [readPhysicalRecord]
  by_cases htrailer : padding o ≤ data.length
  · obtain ⟨rd₁, hat₁, hcheck₁, hrep₁, hrun⟩ := hat.arrive htrailer result
    obtain ⟨m, hm, hrun⟩ := hrun 2
    obtain ⟨m, rfl⟩ : ∃ k, m = k + 1 := ⟨m - 1, by omega⟩
    rw [hrun]
    by_cases hlen : data.length < padding o + kHeaderSize
    · have heof : rd₁.eof = true := by
        rw [hat₁.eof, List.length_drop]
        exact decide_eq_true (by omega)
      have hshort : rd₁.buffer.length < kHeaderSize := by
        rw [hat₁.buffer_length, List.length_drop]
        omega
      have hrest : rd₁.file.rest = [] := by
        rw [hat₁.rest]
        refine List.drop_eq_nil_of_le ?_
        rw [List.length_drop]
        omega
      refine ⟨_, Loop.run_inr _ (turn_eof heof result (.inl hshort)) m, ?_,
        hcheck₁.trans hchecksum, hrep₁⟩
      exact ⟨Nat.zero_le _, rfl, by simpa using hrest, heof, hat₁.sound,
        hat₁.initialOffset, hat₁.resyncing⟩
    · rw [if_neg hlen, Option.map_eq_none_iff] at hs
      have hturn := turn_parse hat₁ (hcheck₁.trans hchecksum) hroom (by rw [List.length_drop]; omega)
        (pos + padding o) result
      rw [hs] at hturn
      obtain ⟨rd', hturn, hat', hcheck', hrep'⟩ := hturn
      exact ⟨rd', Loop.run_inr _ hturn m, hat', hcheck', hrep'.trans hrep₁⟩
  · -- the file ends inside the trailer
    have ho : kBlockSize - o < kHeaderSize := by
      by_contra hge
      exact htrailer (by rw [(padding_of_ge hge).1]; exact Nat.zero_le _)
    rw [(padding_of_lt ho).1] at htrailer
    have heof : rd.eof = true := by
      rw [hat.eof]
      exact decide_eq_true (by omega)
    have hshort : rd.buffer.length < kHeaderSize := by
      rw [hat.buffer_length]
      omega
    have hrest : rd.file.rest = [] := by
      rw [hat.rest]
      exact List.drop_eq_nil_of_le (by omega)
    refine ⟨_, Loop.run_inr _ (turn_eof heof result (.inl hshort)) 2, ?_, hchecksum, rfl⟩
    exact ⟨Nat.zero_le _, rfl, by simpa using hrest, heof, hat.sound,
      hat.initialOffset, hat.resyncing⟩

/-- **`read_physical_record`** takes the next item. -/
theorem readPhysicalRecord_some {pos pos' : Nat} {data data' : Bytes} {i : Item} {rd : Reader}
    (h : Stands pos data rd) (hs : step pos data = some (i, pos', data')) (result : Bytes) :
    ∃ rd', rd.readPhysicalRecord result = .ok (itemType i, itemFragment result i, rd')
      ∧ Stands pos' data' rd' ∧ rd'.resyncing = false
      ∧ rd'.reporter = addCalls rd.reporter (itemReports i) := by
  obtain ⟨n, hlen, hparse, rfl, rfl⟩ := step_eq_some hs
  obtain ⟨hchecksum, o, hat, hpad, hstart⟩ := h
  have hsize := (parse_size hparse (block_length (mod_le pos) hlen)).2
  have hroom := start_add_kHeaderSize_le hat.le
  rw [← hpad, ← hstart] at hparse
  rw [← hpad] at hlen
  have htrailer : padding o ≤ data.length := by
    have : kHeaderSize = 7 := rfl
    rw [List.length_drop] at hlen
    omega
  obtain ⟨rd₁, hat₁, hcheck₁, hrep₁, hrun⟩ := hat.arrive htrailer result
  obtain ⟨m, hm, hrun⟩ := hrun 2
  obtain ⟨m, rfl⟩ : ∃ k, m = k + 1 := ⟨m - 1, by omega⟩
  have hturn := turn_parse hat₁ (hcheck₁.trans hchecksum) hroom hlen (pos + padding o) result
  rw [hparse] at hturn
  obtain ⟨rd', hturn, hat', hcheck', hrep'⟩ := hturn
  refine ⟨rd', ?_, ?_, hat'.resyncing, hrep'.trans (by rw [hrep₁])⟩
  · rw [readPhysicalRecord, hrun, Loop.run_inr _ hturn]
  · rw [hpad, hstart] at hat'
    refine hat'.stands hcheck' (mod_behind ?_)
    rw [List.length_take] at hsize
    omega

/-! ## The loop of `read_record` -/

/-- The report of a record that a new one cuts off. -/
def partialCalls (pending : Option Bytes) (reason : Bytes) : List (Nat × Status) :=
  if pending.getD [] = [] then [] else [((pending.getD []).length, .corruption reason)]

/-- The report of a record in which a block is dropped. -/
def middleCalls : Option Bytes → List (Nat × Status)
  | none => []
  | some s => [(s.length, .corruption (text "error in middle of record"))]

/-- The status that reports an unknown type byte. -/
def unknownType (type : Byte) : Status :=
  .corruption (text "unknown record type " ++ decimal (charToU32 type).toNat)

/-- What `read_record` makes of an item, with the record in progress: it goes on, or returns a
record, or returns false; and the reports that it makes. -/
def take (pending : Option Bytes) : Item → (Option Bytes ⊕ Option Bytes) × List (Nat × Status)
  | .bad _ calls => (.inl none, calls ++ middleCalls pending)
  | .record _ type payload =>
      if type = 1#8 then
        (.inr (some payload), partialCalls pending (text "partial record without end(1)"))
      else if type = 2#8 then
        (.inl (some payload), partialCalls pending (text "partial record without end(2)"))
      else if type = 3#8 then
        match pending with
        | some s => (.inl (some (s ++ payload)), [])
        | none => (.inl none,
            [(payload.length, .corruption (text "missing start of fragmented record(1)"))])
      else if type = 4#8 then
        match pending with
        | some s => (.inr (some (s ++ payload)), [])
        | none => (.inl none,
            [(payload.length, .corruption (text "missing start of fragmented record(2)"))])
      else if type = 5#8 then (.inr none, [])
      else if type = 6#8 then (.inl none, middleCalls pending)
      else (.inl none, [(payload.length + (pending.getD []).length, unknownType type)])

/-- A call of `read_record` that has these items in front of it: the reports that it makes, the
record that it returns, if any, and the items behind. -/
def nextRecord : Option Bytes → List Item → List (Nat × Status) × Option Bytes × List Item
  | _, [] => ([], none, [])
  | pending, i :: is =>
      match take pending i with
      | (.inl pending', calls) =>
          (calls ++ (nextRecord pending' is).1, (nextRecord pending' is).2)
      | (.inr r, calls) => (calls, r, is)

theorem charToU32_inj {c c' : Byte} : charToU32 c = charToU32 c' ↔ c = c' := by
  refine ⟨fun h => ?_, fun h => by rw [h]⟩
  have hlow := congrArg (BitVec.setWidth 8) (congrArg (fun x => x &&& 0xff#32) h)
  simpa only [charToU32_and_ff, BitVec.setWidth_setWidth_of_le _ (show 8 ≤ 32 by decide),
    BitVec.setWidth_eq] using hlow

theorem reportPartial_of_zero {st : ReadState} (h : st.rd.initialOffset = 0) (reason : Bytes) :
    reportPartial st reason
      = { st.rd with reporter := addCalls st.rd.reporter (partialCalls st.pending reason) } := by
  obtain ⟨rd, scratch, inFragmentedRecord, prospective, fragment⟩ := st
  cases inFragmentedRecord with
  | false => simp [reportPartial, partialCalls, ReadState.pending]
  | true =>
      cases scratch with
      | nil => simp [reportPartial, partialCalls, ReadState.pending]
      | cons c cs => exact reportCorruption_of_zero h _ reason

/-- The loop of `read_record` after an item: in the state `r`, with the reports `calls` in all
since the reporter had made those of `reporter`. -/
def Took (rd : Reader) (reporter : Option (List (Nat × Status))) (r : ReadState ⊕ (Bool × Bytes × Reader)) :
    (Option Bytes ⊕ Option Bytes) × List (Nat × Status) → Prop
  | (.inl pending, calls) => ∃ st, r = .inl st ∧ st.pending = pending
      ∧ st.rd = { rd with reporter := addCalls reporter calls }
  | (.inr d, calls) => ∃ x, r = .inr (d.isSome, d.getD [],
      { rd with reporter := addCalls reporter calls, lastRecordOffset := x })

/-- **The switch** does what `take` says. -/
theorem dispatch_item {i : Item} {st : ReadState} {reporter : Option (List (Nat × Status))}
    (h : st.rd.initialOffset = 0) (hrep : st.rd.reporter = addCalls reporter (itemReports i))
    (hf : ∀ pos type payload, i = .record pos type payload → st.fragment = payload) (x : U64) :
    Took st.rd reporter (dispatch st (itemType i) x) (take st.pending i) := by
  have hpartial := reportPartial_of_zero h
  obtain ⟨rd, scratch, inFragmentedRecord, prospective, fragment⟩ := st
  simp only at hrep h
  cases i with
  | bad pos calls =>
      cases inFragmentedRecord with
      | false =>
          refine ⟨_, rfl, rfl, ?_⟩
          show rd = { rd with reporter := addCalls reporter (calls ++ []) }
          rw [List.append_nil, show addCalls reporter calls = rd.reporter from hrep.symm]
      | true =>
          refine ⟨_, rfl, rfl, ?_⟩
          rw [reportCorruption_of_zero h, hrep, itemReports, addCalls_addCalls]
          rfl
  | record pos type payload =>
      obtain rfl : fragment = payload := hf pos type payload rfl
      rw [itemReports, addCalls_nil] at hrep
      have hself : rd = { rd with reporter := addCalls reporter [] } := by
        rw [addCalls_nil, ← hrep]
      have htype : ∀ c : Byte, charToU32 type = charToU32 c ↔ type = c := fun c => charToU32_inj
      unfold dispatch take
      simp only [itemType, show BitVec.ofNat 32 RecordType.kFullType.toNat = charToU32 1#8 from rfl,
        show BitVec.ofNat 32 RecordType.kFirstType.toNat = charToU32 2#8 from rfl,
        show BitVec.ofNat 32 RecordType.kMiddleType.toNat = charToU32 3#8 from rfl,
        show BitVec.ofNat 32 RecordType.kLastType.toNat = charToU32 4#8 from rfl,
        show kEof = charToU32 5#8 from rfl, show kBadRecord = charToU32 6#8 from rfl, htype,
        hpartial, hrep]
      by_cases h1 : type = 1#8
      · simp only [if_pos h1]
        exact ⟨_, rfl⟩
      by_cases h2 : type = 2#8
      · simp only [if_neg h1, if_pos h2]
        exact ⟨_, rfl, rfl, rfl⟩
      by_cases h3 : type = 3#8
      · simp only [if_neg h1, if_neg h2, if_pos h3]
        cases inFragmentedRecord with
        | false => exact ⟨_, rfl, rfl, by rw [reportCorruption_of_zero h, hrep]⟩
        | true => exact ⟨_, rfl, rfl, hself⟩
      by_cases h4 : type = 4#8
      · simp only [if_neg h1, if_neg h2, if_neg h3, if_pos h4]
        cases inFragmentedRecord with
        | false => exact ⟨_, rfl, rfl, by rw [reportCorruption_of_zero h, hrep]⟩
        | true => exact ⟨_, by rw [addCalls_nil, ← hrep]; rfl⟩
      by_cases h5 : type = 5#8
      · simp only [if_neg h1, if_neg h2, if_neg h3, if_neg h4, if_pos h5]
        exact ⟨rd.lastRecordOffset, by rw [addCalls_nil, ← hrep]; rfl⟩
      by_cases h6 : type = 6#8
      · simp only [if_neg h1, if_neg h2, if_neg h3, if_neg h4, if_neg h5, if_pos h6]
        cases inFragmentedRecord with
        | false => exact ⟨_, rfl, rfl, hself⟩
        | true => exact ⟨_, rfl, rfl, by rw [reportCorruption_of_zero h, hrep]; rfl⟩
      · simp only [if_neg h1, if_neg h2, if_neg h3, if_neg h4, if_neg h5, if_neg h6]
        refine ⟨_, rfl, rfl, ?_⟩
        rw [reportCorruption_of_zero h, hrep]
        cases inFragmentedRecord <;> rfl

/-- A report, and the offset of the last record, move nothing. -/
theorem Stands.congr {pos : Nat} {data : Bytes} {rd : Reader} (h : Stands pos data rd)
    (reporter : Option (List (Nat × Status))) (x : U64) :
    Stands pos data { rd with reporter := reporter, lastRecordOffset := x } := by
  obtain ⟨hchecksum, o, hat, ho⟩ := h
  exact ⟨hchecksum, o, ⟨hat.le, hat.buffer, hat.rest, hat.eof, hat.sound, hat.initialOffset,
    hat.resyncing⟩, ho⟩

theorem Stands.initialOffset {pos : Nat} {data : Bytes} {rd : Reader} (h : Stands pos data rd) :
    rd.initialOffset = 0 := by
  obtain ⟨-, o, hat, -⟩ := h
  exact hat.initialOffset

theorem Stands.unread {pos : Nat} {data : Bytes} {rd : Reader} (h : Stands pos data rd) :
    rd.unread = data.length := by
  obtain ⟨-, o, hat, -⟩ := h
  exact hat.unread

/-- **One turn of the loop** takes one item. -/
theorem readRecordTurn_item {pos pos' : Nat} {data data' : Bytes} {i : Item} {st : ReadState}
    (h : Stands pos data st.rd) (hs : step pos data = some (i, pos', data')) :
    ∃ rd r, readRecordTurn st = .ok r ∧ Stands pos' data' rd
      ∧ Took rd st.rd.reporter r (take st.pending i) := by
  obtain ⟨rd, hread, hstands, hresync, hrep⟩ := readPhysicalRecord_some h hs st.fragment
  set fragment := itemFragment st.fragment i with hfragment
  set x := rd.endOfBufferOffset - BitVec.ofNat 64 rd.buffer.length - BitVec.ofNat 64 kHeaderSize
    - BitVec.ofNat 64 fragment.length with hx
  refine ⟨rd, dispatch { st with rd := rd, fragment := fragment } (itemType i) x, ?_, hstands, ?_⟩
  · rw [readRecordTurn, hread]
    simp only [ok_bind, resync_of_not hresync]
    rfl
  · have hfragment' : ∀ p type payload, i = .record p type payload → fragment = payload := by
      rintro p type payload rfl
      rfl
    exact @dispatch_item i { st with rd := rd, fragment := fragment } _ hstands.initialOffset hrep
      hfragment' x

theorem readRecordTurn_none {pos : Nat} {data : Bytes} {st : ReadState}
    (h : Stands pos data st.rd) (hs : step pos data = none) :
    ∃ rd, readRecordTurn st = .ok (.inr (false, [], rd)) ∧ At 0 [] rd ∧ rd.checksum = true
      ∧ rd.reporter = st.rd.reporter := by
  obtain ⟨rd, hread, hat, hcheck, hrep⟩ := readPhysicalRecord_none h hs st.fragment
  refine ⟨rd, ?_, hat, hcheck, hrep⟩
  rw [readRecordTurn, hread]
  simp only [ok_bind, resync_of_not hat.resyncing]
  rfl

/-- What a call of `read_record` with the items `is` in front of it does, in a file that holds
`whole`. -/
structure Follows (whole : Bytes) (pending : Option Bytes) (is : List Item)
    (reporter : Option (List (Nat × Status))) (r : Bool × Bytes × Reader) : Prop where
  more : r.1 = (nextRecord pending is).2.1.isSome
  record : r.2.1 = (nextRecord pending is).2.1.getD []
  stands : ∃ pos, Stands pos (whole.drop pos) r.2.2
    ∧ Walk pos (whole.drop pos) (nextRecord pending is).2.2
  reports : r.2.2.reporter = addCalls reporter (nextRecord pending is).1
  atEnd : (∀ i ∈ is, i.type? ≠ some 5#8) → (nextRecord pending is).2.1 = none → At 0 [] r.2.2

theorem nextRecord_inl {pending p : Option Bytes} {i : Item} {calls : List (Nat × Status)}
    (h : take pending i = (.inl p, calls)) (is : List Item) :
    nextRecord pending (i :: is) = (calls ++ (nextRecord p is).1, (nextRecord p is).2) := by
  rw [nextRecord, h]

theorem nextRecord_inr {pending r : Option Bytes} {i : Item} {calls : List (Nat × Status)}
    (h : take pending i = (.inr r, calls)) (is : List Item) :
    nextRecord pending (i :: is) = (calls, r, is) := by
  rw [nextRecord, h]

/-- Only one type byte ends the file early. -/
theorem take_inr_none {pending : Option Bytes} {i : Item} {calls : List (Nat × Status)}
    (h : take pending i = (.inr none, calls)) : i.type? = some 5#8 := by
  cases i with
  | bad pos cs => cases h
  | record pos type payload =>
      unfold take at h
      simp only at h
      split_ifs at h with h1 h2 h3 h4 h5 h6
      · cases h
      · cases h
      · cases pending <;> cases h
      · cases pending <;> cases h
      · exact congrArg some h5
      · cases h
      · cases h

/-- The loop of `read_record`, by induction on the items in front of it. -/
theorem run_readRecordTurn_walk {whole data : Bytes} {pos : Nat} {is : List Item}
    (hw : Walk pos data is) (hdata : data = whole.drop pos) (st : ReadState) (n : Nat)
    (h : Stands pos data st.rd) (hn : is.length < n) :
    ∃ r, Loop.run .endless readRecordTurn n st = .ok r
      ∧ Follows whole st.pending is st.rd.reporter r := by
  induction hw generalizing st n with
  | done hs =>
      obtain ⟨n, rfl⟩ : ∃ k, n = k + 1 := ⟨n - 1, by omega⟩
      obtain ⟨rd, hturn, hat, hcheck, hrep⟩ := readRecordTurn_none h hs
      refine ⟨_, Loop.run_inr _ hturn n, rfl, rfl, stands_nil hat hcheck whole, ?_,
        fun _ _ => hat⟩
      rw [nextRecord, addCalls_nil]
      exact hrep
  | @item pos pos' data data' i is hs hw ih =>
      obtain ⟨n, rfl⟩ : ∃ k, n = k + 1 := ⟨n - 1, by omega⟩
      obtain ⟨rd, r, hturn, hstands, htook⟩ := readRecordTurn_item h hs
      obtain rfl : data' = whole.drop pos' := step_drop (hdata ▸ hs)
      rcases ht : take st.pending i with ⟨p | d, calls⟩
      · rw [ht] at htook
        obtain ⟨st', rfl, rfl, hrd⟩ := htook
        have hstands' : Stands pos' (whole.drop pos') st'.rd := by
          rw [hrd]
          exact hstands.congr _ _
        obtain ⟨r, hrun, hfollows⟩ := ih rfl st' n hstands' (by rw [List.length_cons] at hn; omega)
        have hnext := nextRecord_inl ht is
        refine ⟨r, (Loop.run_inl _ hturn n).trans hrun, ?_, ?_, ?_, ?_, ?_⟩
        · rw [hnext]
          exact hfollows.more
        · rw [hnext]
          exact hfollows.record
        · rw [hnext]
          exact hfollows.stands
        · rw [hnext, ← addCalls_addCalls, hfollows.reports, hrd]
        · rw [hnext]
          exact fun hall => hfollows.atEnd fun j hj => hall j (List.mem_cons_of_mem _ hj)
      · rw [ht] at htook
        obtain ⟨x, rfl⟩ := htook
        have hnext := nextRecord_inr ht is
        refine ⟨_, Loop.run_inr _ hturn n, ?_, ?_, ?_, ?_, ?_⟩
        · rw [hnext]
        · rw [hnext]
        · rw [hnext]
          exact ⟨pos', hstands.congr _ _, hw⟩
        · rw [hnext]
        · rw [hnext]
          rintro hall (rfl : d = none)
          exact absurd (take_inr_none ht) (hall i List.mem_cons_self)

/-- **`read_record`** on whatever bytes. -/
theorem readRecord_walk {whole : Bytes} {pos : Nat} {is : List Item} {rd : Reader}
    (h : Stands pos (whole.drop pos) rd) (hw : Walk pos (whole.drop pos) is) :
    ∃ r, rd.readRecord = .ok r ∧ Follows whole none is rd.reporter r := by
  have hno : ¬ rd.lastRecordOffset < rd.initialOffset := by
    rw [h.initialOffset, BitVec.lt_def]
    exact Nat.not_lt_zero _
  rw [readRecord, if_neg hno, readRecordLoop]
  apply run_readRecordTurn_walk hw rfl _ _ h
  rw [h.unread]
  exact Nat.lt_succ_of_le hw.length_le

/-! ## All records -/

theorem nextRecord_length (pending : Option Bytes) (is : List Item)
    (h : (nextRecord pending is).2.1 ≠ none) : (nextRecord pending is).2.2.length < is.length := by
  induction is generalizing pending with
  | nil => exact absurd rfl h
  | cons i is ih =>
      rcases ht : take pending i with ⟨p | d, calls⟩
      · rw [nextRecord_inl ht] at h ⊢
        exact (ih p h).trans (Nat.lt_succ_self _)
      · rw [nextRecord_inr ht]
        exact Nat.lt_succ_self _

/-- The records that items make up, up to the first `false`, and the reports. -/
def records : Option Bytes → List Item → List Bytes × List (Nat × Status)
  | _, [] => ([], [])
  | pending, i :: is =>
      match take pending i with
      | (.inl p, calls) => ((records p is).1, calls ++ (records p is).2)
      | (.inr (some d), calls) => (d :: (records none is).1, calls ++ (records none is).2)
      | (.inr none, calls) => ([], calls)

/-- The first record, and those behind it. -/
theorem records_eq (pending : Option Bytes) (is : List Item) :
    records pending is = match nextRecord pending is with
      | (calls, some d, js) => (d :: (records none js).1, calls ++ (records none js).2)
      | (calls, none, _) => ([], calls) := by
  induction is generalizing pending with
  | nil => rfl
  | cons i is ih =>
      rcases ht : take pending i with ⟨p | d, calls⟩
      · rw [nextRecord_inl ht, records, ht]
        simp only [ih p]
        obtain ⟨calls', _ | d, js⟩ := nextRecord p is
        · rfl
        · simp [List.append_assoc]
      · rw [nextRecord_inr ht, records, ht]
        cases d <;> rfl

/-- **All records** of whatever bytes. -/
theorem run_readAllTurn_walk {whole : Bytes} (n : Nat) {pos : Nat} {is : List Item}
    (acc : List Bytes) {rd : Reader} (h : Stands pos (whole.drop pos) rd)
    (hw : Walk pos (whole.drop pos) is) (hn : is.length < n) :
    ∃ rd', Loop.run .endless readAllTurn n (acc, rd) = .ok (acc ++ (records none is).1, rd')
      ∧ rd'.reporter = addCalls rd.reporter (records none is).2 := by
  induction n generalizing pos is acc rd with
  | zero => omega
  | succ n ih =>
      obtain ⟨⟨more, d, rd₁⟩, hread, hmore, hd, ⟨pos', hstands, hwalk⟩, hrep, -⟩ :=
        readRecord_walk h hw
      simp only at hmore hd hrep hstands
      have hlt := nextRecord_length none is
      rw [records_eq]
      rcases hnext : nextRecord none is with ⟨calls, _ | d', js⟩
      · rw [hnext] at hmore hrep
        subst hmore
        have hturn : readAllTurn (acc, rd) = .ok (.inr (acc, rd₁)) := by
          rw [readAllTurn, hread]
          rfl
        exact ⟨rd₁, by rw [Loop.run_inr _ hturn, List.append_nil], hrep⟩
      · rw [hnext] at hmore hd hrep hwalk hlt
        obtain rfl : d = d' := hd
        subst hmore
        have hturn : readAllTurn (acc, rd) = .ok (.inl (acc ++ [d], rd₁)) := by
          rw [readAllTurn, hread]
          rfl
        have hjs : js.length < is.length := hlt (by simp)
        have hwalk : Walk pos' (whole.drop pos') js := hwalk
        obtain ⟨rd', hrun, hrep'⟩ := ih (acc ++ [d]) hstands hwalk (by omega)
        refine ⟨rd', ?_, ?_⟩
        · rw [Loop.run_inl _ hturn, hrun, List.append_assoc, List.singleton_append]
        · rw [hrep', hrep, addCalls_addCalls]

theorem readAll_walk (data : Bytes) (reporter : Option (List (Nat × Status))) :
    ∃ rd, readAll (Reader.new ⟨data, []⟩ reporter true 0)
        = .ok ((records none (fileItems data)).1, rd)
      ∧ rd.reporter = addCalls reporter (records none (fileItems data)).2 := by
  have hstands : Stands 0 (data.drop 0) _ := stands_new data reporter
  have hw : Walk 0 (data.drop 0) (fileItems data) := walk_fileItems data
  rw [readAll, hstands.unread]
  exact run_readAllTurn_walk _ [] hstands hw (Nat.lt_succ_of_le hw.length_le)

end Reader

end SimpleLeveldb.Log
