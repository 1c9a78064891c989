import SimpleLeveldb.Log.Reader

set_option autoImplicit false

/-! # What the reader makes of a layout

`At o data rd` says that the reader `rd` stands at offset `o` of a block and that the bytes
`data` are left. From there one call of `read_physical_record` takes the next physical record
of a layout (`readPhysicalRecord_fragment`), or finds the end of the file in front of an
incomplete one (`readPhysicalRecord_torn`). Over that, `read_record` and the loop around it
compute `assemble`, which puts fragments together without any bytes in sight.
-/

namespace SimpleLeveldb.Log

namespace Reader

/-! ## Where the reader stands -/

/-- A reader that reads from the start of the file: `data` is what is left of the file, from offset
`o` of a block on. -/
structure At (o : Nat) (data : Bytes) (rd : Reader) : Prop where
  le : o ≤ kBlockSize
  buffer : rd.buffer = data.take (kBlockSize - o)
  rest : rd.file.rest = data.drop (kBlockSize - o)
  eof : rd.eof = decide (data.length < kBlockSize - o)
  sound : rd.file.Sound
  initialOffset : rd.initialOffset = 0
  resyncing : rd.resyncing = false

theorem at_new (data : Bytes) (reporter : Option (List (Nat × Status))) (checksum : Bool) :
    At kBlockSize data (Reader.new ⟨data, []⟩ reporter checksum 0) where
  le := le_refl _
  buffer := by simp [Reader.new]
  rest := by simp [Reader.new]
  eof := by simp [Reader.new]
  sound := rfl
  initialOffset := rfl
  resyncing := rfl

theorem At.unread {o : Nat} {data : Bytes} {rd : Reader} (h : At o data rd) :
    rd.unread = data.length := by
  rw [Reader.unread, h.buffer, h.rest, ← List.length_append, List.take_append_drop]

theorem At.buffer_length {o : Nat} {data : Bytes} {rd : Reader} (h : At o data rd) :
    rd.buffer.length = min (kBlockSize - o) data.length := by
  rw [h.buffer, List.length_take]

/-- **Refill**: a block with no room for a header is left behind. -/
theorem turn_refill {o : Nat} {data : Bytes} {rd : Reader} (h : At o data rd)
    (ho : kBlockSize - o < kHeaderSize) (hlen : kBlockSize - o ≤ data.length) (result : Bytes) :
    ∃ rd', readPhysicalRecordTurn result rd = .ok (.inl rd')
      ∧ At 0 (data.drop (kBlockSize - o)) rd' ∧ rd'.reporter = rd.reporter
      ∧ rd'.checksum = rd.checksum := by
  have hshort : rd.buffer.length < kHeaderSize := by
    rw [h.buffer_length]
    omega
  have heof : rd.eof = false := by
    rw [h.eof]
    exact decide_eq_false (by omega)
  set rest := data.drop (kBlockSize - o) with hrest
  have hread : rd.file.read kBlockSize = (.ok, rest.take kBlockSize, ⟨rest.drop kBlockSize, []⟩) := by
    rw [SequentialFile.read_of_sound h.sound, h.rest]
  have hlast : ((rest.take kBlockSize).length < kBlockSize) ↔ (rest.length < kBlockSize) := by
    rw [List.length_take]
    omega
  rw [readPhysicalRecordTurn, if_pos hshort, heof]
  simp only [Bool.not_false, if_true, hread, Status.isOk_ok, Bool.not_true, Bool.false_eq_true,
    if_false, hlast]
  by_cases hr : rest.length < kBlockSize
  · rw [if_pos hr]
    refine ⟨_, rfl, ⟨Nat.zero_le _, rfl, rfl, ?_, rfl, h.initialOffset, h.resyncing⟩, rfl, rfl⟩
    exact (decide_eq_true hr).symm
  · rw [if_neg hr]
    refine ⟨_, rfl, ⟨Nat.zero_le _, rfl, rfl, ?_, rfl, h.initialOffset, h.resyncing⟩, rfl, rfl⟩
    exact (decide_eq_false hr).symm

/-! ## Headers -/

theorem charToU32_and_ff (c : Byte) : charToU32 c &&& 0xff#32 = c.setWidth 32 := by
  have hlow : (c.signExtend 32).setWidth 8 = c := by
    ext i hi
    rw [BitVec.getElem_setWidth, BitVec.getLsbD_signExtend, if_pos hi]
    simp [show i < 32 by omega, BitVec.getLsbD_eq_getElem hi]
  rw [charToU32, Crc32c.and_ff, hlow]

theorem charToU32_byte (t : RecordType) : charToU32 t.byte = BitVec.ofNat 32 t.toNat := by
  cases t <;> rfl

/-- The two length bytes give the length back. -/
theorem headerLength (n : Nat) (h : n ≤ 0xffff) :
    ((charToU32 (BitVec.ofNat 8 n) &&& 0xff#32)
      ||| ((charToU32 (BitVec.ofNat 8 (n >>> 8)) &&& 0xff#32) <<< 8)).toNat = n := by
  simp only [charToU32_and_ff]
  have hlow : ((BitVec.ofNat 8 n).setWidth 32).toNat = n % 256 := by
    rw [BitVec.toNat_setWidth, BitVec.toNat_ofNat]
    omega
  have hhigh : ((BitVec.ofNat 8 (n >>> 8)).setWidth 32).toNat = n / 256 := by
    rw [BitVec.toNat_setWidth, BitVec.toNat_ofNat, Nat.shiftRight_eq_div_pow]
    omega
  rw [Varint.toNat_or_shift (m := n / 256) hhigh (by omega) (by omega), hlow]
  omega

/-- What the reader finds in the header of a physical record. -/
structure Parsed (t : RecordType) (length : Nat) (crc : U32) (buffer : Bytes) : Prop where
  type : charToU32 (buffer.getD 6 0#8) = BitVec.ofNat 32 t.toNat
  length : ((charToU32 (buffer.getD 4 0#8) &&& 0xff#32)
    ||| ((charToU32 (buffer.getD 5 0#8) &&& 0xff#32) <<< 8)).toNat = length
  crc : Crc32c.unmask (decodeFixed32 buffer) = crc

theorem parsed_header (t : RecordType) {n : Nat} (hn : n ≤ 0xffff) (crc : U32) (rest : Bytes) :
    Parsed t n crc (header t crc n ++ rest) where
  type := charToU32_byte t
  length := headerLength n hn
  crc := by
    rw [header, List.append_assoc, decodeFixed32_encodeFixed32, Crc32c.unmask_mask]

theorem toNat_type (t : RecordType) : (BitVec.ofNat 32 t.toNat).toNat = t.toNat := by
  cases t <;> rfl

theorem toNat_ne_zero {t : RecordType} (h : t ≠ .kZeroType) : t.toNat ≠ 0 := by
  cases t with
  | kZeroType => exact absurd rfl h
  | _ => decide

/-- **A physical record in the buffer** is taken out of it. -/
theorem turn_fragment {o : Nat} {f : Fragment} {tail : Bytes} {rd : Reader}
    (h : At o (f.encode ++ tail) rd) (htype : f.type ≠ .kZeroType)
    (hfit : o + kHeaderSize + f.payload.length ≤ kBlockSize) (result : Bytes) :
    ∃ rd', readPhysicalRecordTurn result rd
        = .ok (.inr (BitVec.ofNat 32 f.type.toNat, f.payload, rd'))
      ∧ At (o + kHeaderSize + f.payload.length) tail rd' ∧ rd'.reporter = rd.reporter := by
  have hn : f.payload.length ≤ 0xffff := by
    have : kBlockSize = 32768 := rfl
    omega
  set d := tail.take (kBlockSize - (o + kHeaderSize + f.payload.length)) with hd
  have hbuf : rd.buffer = header f.type f.crc f.payload.length ++ (f.payload ++ d) := by
    have hroom : f.encode.length ≤ kBlockSize - o := by
      rw [Fragment.encode_length]
      omega
    rw [h.buffer, List.take_append, List.take_of_length_le hroom, Fragment.encode_length,
      Fragment.encode, List.append_assoc, hd, Nat.sub_sub, ← Nat.add_assoc]
  have hrest : rd.file.rest
      = tail.drop (kBlockSize - (o + kHeaderSize + f.payload.length)) := by
    rw [h.rest, List.drop_append, List.drop_of_length_le, List.nil_append]
    · congr 1
      rw [Fragment.encode_length]
      omega
    · rw [Fragment.encode_length]
      omega
  have hp := parsed_header f.type hn f.crc (f.payload ++ d)
  rw [← hbuf] at hp
  have hlen : rd.buffer.length = kHeaderSize + (f.payload.length + d.length) := by
    rw [hbuf]
    simp
  have hcrc : Crc32c.value ((rd.buffer.drop 6).take (1 + f.payload.length)) = f.crc := by
    rw [hbuf, header, Nat.add_comm]
    simp [encodeFixed32, Fragment.crc]
  have hpayload : (rd.buffer.drop kHeaderSize).take f.payload.length = f.payload := by
    rw [hbuf, List.drop_left' (header_length _ _ _), List.take_left]
  have hdrop : rd.buffer.drop (kHeaderSize + f.payload.length) = d := by
    rw [hbuf, ← List.append_assoc]
    exact List.drop_left' (by simp)
  have hoff : ∀ x : U64, ¬ x < rd.initialOffset := by
    intro x
    rw [h.initialOffset, BitVec.lt_def]
    exact Nat.not_lt_zero _
  refine ⟨{ rd with buffer := d }, ?_, ⟨by omega, rfl, hrest, ?_, h.sound,
    h.initialOffset, h.resyncing⟩, rfl⟩
  · rw [readPhysicalRecordTurn, if_neg (by omega)]
    simp only [hp.type, hp.length, hp.crc, hcrc, hpayload, hdrop, toNat_type]
    rw [if_neg (by omega), if_neg (fun hz => toNat_ne_zero htype hz.1), if_neg (fun hc => hc.2 rfl),
      if_neg (hoff _)]
  · rw [h.eof, List.length_append, Fragment.encode_length]
    apply decide_eq_decide.mpr
    omega

/-- **The last bytes of a file**: fewer than a header, or than a header announces. -/
theorem turn_eof {rd : Reader} (heof : rd.eof = true) (result : Bytes)
    (h : rd.buffer.length < kHeaderSize
      ∨ ∃ t n crc, Parsed t n crc rd.buffer ∧ rd.buffer.length < kHeaderSize + n) :
    readPhysicalRecordTurn result rd = .ok (.inr (kEof, result, { rd with buffer := [] })) := by
  rw [readPhysicalRecordTurn, heof]
  by_cases hshort : rd.buffer.length < kHeaderSize
  · rw [if_pos hshort]
    rfl
  · obtain ⟨t, n, crc, hp, hlt⟩ := h.resolve_left hshort
    rw [if_neg hshort]
    simp only [hp.length, if_pos hlt]
    rfl

theorem turn_torn {o n : Nat} {f : Fragment} {rd : Reader} (h : At o (f.encode.take n) rd)
    (hn : n < f.encode.length) (hfit : o + kHeaderSize + f.payload.length ≤ kBlockSize)
    (result : Bytes) :
    readPhysicalRecordTurn result rd = .ok (.inr (kEof, result, { rd with buffer := [] })) := by
  have hlen : (f.encode.take n).length = n := by
    rw [List.length_take]
    omega
  have henc := f.encode_length
  have hbuf : rd.buffer = f.encode.take n := by
    rw [h.buffer, List.take_of_length_le (by omega)]
  have heof : rd.eof = true := by
    rw [h.eof, hlen]
    exact decide_eq_true (by omega)
  apply turn_eof heof
  by_cases hshort : n < kHeaderSize
  · exact .inl (by rw [hbuf, hlen]; exact hshort)
  · refine .inr ⟨f.type, f.payload.length, f.crc, ?_, by rw [hbuf, hlen]; omega⟩
    have hsplit : f.encode.take n
        = header f.type f.crc f.payload.length ++ f.payload.take (n - kHeaderSize) := by
      rw [Fragment.encode, List.take_append, List.take_of_length_le (by simp; omega), header_length]
    rw [hbuf, hsplit]
    apply parsed_header
    have : kBlockSize = 32768 := rfl
    omega

/-! ## One physical record -/

/-- A block with no room for a header: its trailer is all that is left of it. -/
theorem padding_of_lt {o : Nat} (h : kBlockSize - o < kHeaderSize) :
    padding o = kBlockSize - o ∧ start o = 0 := ⟨if_pos h, if_pos h⟩

theorem padding_of_ge {o : Nat} (h : ¬ kBlockSize - o < kHeaderSize) :
    padding o = 0 ∧ start o = o := ⟨if_neg h, if_neg h⟩

/-- **The next physical record** of a layout, after the trailer in front of it. -/
theorem readPhysicalRecord_fragment {o : Nat} {f : Fragment} {tail : Bytes} {rd : Reader}
    (h : At o (zeros (padding o) ++ f.encode ++ tail) rd) (htype : f.type ≠ .kZeroType)
    (hfit : next o f ≤ kBlockSize) (result : Bytes) :
    ∃ rd', rd.readPhysicalRecord result = .ok (BitVec.ofNat 32 f.type.toNat, f.payload, rd')
      ∧ At (next o f) tail rd' ∧ rd'.reporter = rd.reporter := by
  unfold next at hfit ⊢
  by_cases ho : kBlockSize - o < kHeaderSize
  · obtain ⟨hpad, hstart⟩ := padding_of_lt ho
    rw [hpad] at h
    rw [hstart] at hfit ⊢
    obtain ⟨rd₁, ht₁, h₁, hr₁, -⟩ := turn_refill h ho (by simp) result
    rw [List.append_assoc, List.drop_left' (zeros_length _)] at h₁
    obtain ⟨rd₂, ht₂, h₂, hr₂⟩ := turn_fragment h₁ htype hfit result
    refine ⟨rd₂, ?_, h₂, hr₂.trans hr₁⟩
    rw [readPhysicalRecord, Loop.run_inl _ ht₁, Loop.run_inr _ ht₂]
  · obtain ⟨hpad, hstart⟩ := padding_of_ge ho
    rw [hpad, zeros, List.replicate_zero, List.nil_append] at h
    rw [hstart] at hfit ⊢
    obtain ⟨rd₁, ht₁, h₁, hr₁⟩ := turn_fragment h htype hfit result
    exact ⟨rd₁, Loop.run_inr _ ht₁ _, h₁, hr₁⟩

/-- Bytes in which no physical record is complete: the one that was cut off, or that never
came, is `f`. -/
def Torn (o : Nat) (data : Bytes) : Prop :=
  ∃ f n, next o f ≤ kBlockSize ∧ n < padding o + f.encode.length
    ∧ data = (zeros (padding o) ++ f.encode).take n

/-- **A torn physical record** is the end of the file, and is not reported. -/
theorem readPhysicalRecord_torn {o : Nat} {data : Bytes} {rd : Reader} (h : At o data rd)
    (htorn : Torn o data) (result : Bytes) :
    ∃ rd', rd.readPhysicalRecord result = .ok (kEof, result, rd')
      ∧ rd'.reporter = rd.reporter ∧ rd'.resyncing = false := by
  obtain ⟨f, n, hfit, hn, rfl⟩ := htorn
  unfold next at hfit
  by_cases ho : kBlockSize - o < kHeaderSize
  · obtain ⟨hpad, hstart⟩ := padding_of_lt ho
    rw [hpad] at h hn
    rw [hstart] at hfit
    have hlen : ((zeros (kBlockSize - o) ++ f.encode).take n).length = n := by
      rw [List.length_take, List.length_append, zeros_length]
      omega
    by_cases hcut : n < kBlockSize - o
    · -- the cut is in the trailer: the end of the file is known already
      have heof : rd.eof = true := by
        rw [h.eof, hlen]
        exact decide_eq_true hcut
      have ht := turn_eof heof result (.inl (by rw [h.buffer_length, hlen]; omega))
      exact ⟨_, Loop.run_inr _ ht _, rfl, h.resyncing⟩
    · obtain ⟨rd₁, ht₁, h₁, hr₁, -⟩ := turn_refill h ho (by omega) result
      have hdrop : ((zeros (kBlockSize - o) ++ f.encode).take n).drop (kBlockSize - o)
          = f.encode.take (n - (kBlockSize - o)) := by
        rw [List.drop_take, List.drop_left' (zeros_length _)]
      rw [hdrop] at h₁
      have ht₂ := turn_torn h₁ (by omega) hfit result
      refine ⟨{ rd₁ with buffer := [] }, ?_, hr₁, h₁.resyncing⟩
      rw [readPhysicalRecord, Loop.run_inl _ ht₁, Loop.run_inr _ ht₂]
  · obtain ⟨hpad, hstart⟩ := padding_of_ge ho
    rw [hpad] at h hn
    rw [zeros, List.replicate_zero, List.nil_append] at h
    rw [hstart] at hfit
    have ht := turn_torn h (by omega) hfit result
    exact ⟨_, Loop.run_inr _ ht _, rfl, h.resyncing⟩

/-! ## Putting fragments together -/

/-- What a fragment does to the record in progress: it goes on with another one, or it
completes a record. -/
def absorb (pending : Option Bytes) (f : Fragment) : Option Bytes ⊕ Bytes :=
  match f.type, pending with
  | .kFullType, _ => .inr f.payload
  | .kFirstType, _ => .inl (some f.payload)
  | .kMiddleType, _ => .inl (pending.map fun s => s ++ f.payload)
  | .kLastType, some s => .inr (s ++ f.payload)
  | .kLastType, none => .inl none
  | .kZeroType, _ => .inl none

/-- The fragment gives no cause for a report. -/
def Expected (pending : Option Bytes) (f : Fragment) : Prop :=
  match f.type with
  | .kFullType => pending.getD [] = []
  | .kFirstType => pending.getD [] = []
  | .kMiddleType => pending ≠ none
  | .kLastType => pending ≠ none
  | .kZeroType => False

/-- The records that fragments make up. -/
def assemble : Option Bytes → List Fragment → List Bytes
  | _, [] => []
  | pending, f :: fs =>
      match absorb pending f with
      | .inl pending' => assemble pending' fs
      | .inr d => d :: assemble none fs

/-- None of the fragments gives cause for a report. -/
def Clean : Option Bytes → List Fragment → Prop
  | _, [] => True
  | pending, f :: fs =>
      Expected pending f ∧ Clean (match absorb pending f with | .inl p => p | .inr _ => none) fs

/-- The record in progress. -/
def ReadState.pending (st : ReadState) : Option Bytes :=
  if st.inFragmentedRecord then some st.scratch else none

/-- A report changes nothing but the calls of the reporter. -/
theorem At.report {o : Nat} {data : Bytes} {rd : Reader} (h : At o data rd) (n : Nat)
    (reason : Bytes) : At o data (rd.reportCorruption n reason) := by
  unfold reportCorruption reportDrop
  cases rd.reporter with
  | none => exact h
  | some calls =>
      simp only
      split_ifs
      · exact ⟨h.le, h.buffer, h.rest, h.eof, h.sound, h.initialOffset, h.resyncing⟩
      · exact h

theorem At.reportPartial {o : Nat} {data : Bytes} {st : ReadState} (h : At o data st.rd)
    (reason : Bytes) : At o data (reportPartial st reason) := by
  unfold Reader.reportPartial
  split_ifs
  · exact h.report _ _
  · exact h
  · exact h

theorem reportPartial_of_pending {st : ReadState} (h : st.pending.getD [] = []) (reason : Bytes) :
    reportPartial st reason = st.rd := by
  unfold ReadState.pending at h
  unfold Reader.reportPartial
  by_cases hin : st.inFragmentedRecord
  · rw [if_pos hin] at h ⊢
    have : st.scratch = [] := h
    simp [this]
  · rw [if_neg hin]

theorem At.lastRecordOffset {o : Nat} {data : Bytes} {rd : Reader} (h : At o data rd) (x : U64) :
    At o data { rd with lastRecordOffset := x } :=
  ⟨h.le, h.buffer, h.rest, h.eof, h.sound, h.initialOffset, h.resyncing⟩

/-- What one turn makes of a fragment, in a state that stands behind it. -/
def Absorbed (st : ReadState) (f : Fragment) (o : Nat) (tail : Bytes)
    (r : ReadState ⊕ (Bool × Bytes × Reader)) : Prop :=
  match absorb st.pending f with
  | .inl p => ∃ st', r = .inl st' ∧ At o tail st'.rd ∧ st'.pending = p
      ∧ (Expected st.pending f → st'.rd.reporter = st.rd.reporter)
  | .inr d => ∃ rd', r = .inr (true, d, rd') ∧ At o tail rd'
      ∧ (Expected st.pending f → rd'.reporter = st.rd.reporter)

/-- **The switch** does what `absorb` says. -/
theorem dispatch_spec (st : ReadState) {f : Fragment} {o : Nat} {tail : Bytes}
    (h : At o tail st.rd) (hf : st.fragment = f.payload) (htype : f.type ≠ .kZeroType) (x : U64) :
    Absorbed st f o tail (dispatch st (BitVec.ofNat 32 f.type.toNat) x) := by
  obtain ⟨rd, scratch, inFragmentedRecord, prospectiveRecordOffset, fragment⟩ := st
  obtain ⟨type, payload⟩ := f
  subst hf
  cases type with
  | kZeroType => exact absurd rfl htype
  | kFullType =>
      refine ⟨_, rfl, (h.reportPartial _).lastRecordOffset _, ?_⟩
      intro he
      rw [reportPartial_of_pending he]
  | kFirstType =>
      refine ⟨_, rfl, h.reportPartial _, rfl, ?_⟩
      intro he
      rw [reportPartial_of_pending he]
  | kMiddleType =>
      cases inFragmentedRecord with
      | false => exact ⟨_, rfl, h.report _ _, rfl, fun he => absurd rfl he⟩
      | true => exact ⟨_, rfl, h, rfl, fun _ => rfl⟩
  | kLastType =>
      cases inFragmentedRecord with
      | false => exact ⟨_, rfl, h.report _ _, rfl, fun he => absurd rfl he⟩
      | true => exact ⟨_, rfl, h.lastRecordOffset _, fun _ => rfl⟩

theorem resync_of_not {rd : Reader} (h : rd.resyncing = false) (t : U32) :
    rd.resync t = (rd, false) := by
  simp [resync, h]

/-- **One turn of the loop** takes one fragment. -/
theorem readRecordTurn_fragment {o : Nat} {f : Fragment} {tail : Bytes} {st : ReadState}
    (h : At o (zeros (padding o) ++ f.encode ++ tail) st.rd) (htype : f.type ≠ .kZeroType)
    (hfit : next o f ≤ kBlockSize) :
    ∃ r, readRecordTurn st = .ok r ∧ Absorbed st f (next o f) tail r := by
  obtain ⟨rd, hread, hat, hrep⟩ := readPhysicalRecord_fragment h htype hfit st.fragment
  set x := rd.endOfBufferOffset - BitVec.ofNat 64 rd.buffer.length - BitVec.ofNat 64 kHeaderSize
    - BitVec.ofNat 64 f.payload.length with hx
  have hturn : readRecordTurn st = .ok (dispatch { st with rd := rd, fragment := f.payload }
      (BitVec.ofNat 32 f.type.toNat) x) := by
    rw [readRecordTurn, hread]
    simp only [ok_bind, resync_of_not hat.resyncing]
    rfl
  have hspec := dispatch_spec { st with rd := rd, fragment := f.payload } hat rfl htype x
  refine ⟨_, hturn, ?_⟩
  unfold Absorbed at hspec ⊢
  rw [← hrep]
  exact hspec

theorem readRecordTurn_torn {o : Nat} {data : Bytes} {st : ReadState} (h : At o data st.rd)
    (htorn : Torn o data) :
    ∃ rd, readRecordTurn st = .ok (.inr (false, [], rd)) ∧ rd.reporter = st.rd.reporter := by
  obtain ⟨rd, hread, hrep, hres⟩ := readPhysicalRecord_torn h htorn st.fragment
  refine ⟨rd, ?_, hrep⟩
  rw [readRecordTurn, hread]
  simp only [ok_bind, resync_of_not hres]
  rfl

/-! ## Records -/

/-- What a call of `read_record` that finds the fragments `fs` in front of it returns: the
first record they make up, with the fragments `gs` behind it left to read, or `false`. -/
def Returns (pending : Option Bytes) (o : Nat) (fs : List Fragment) (tail : Bytes) (rd : Reader)
    (r : Bool × Bytes × Reader) : Prop :=
  (∃ d o' gs rd', r = (true, d, rd') ∧ assemble pending fs = d :: assemble none gs
      ∧ At o' (layout o' gs ++ tail) rd' ∧ Fits o' gs ∧ endOffset o' gs = endOffset o fs
      ∧ gs.length < fs.length
      ∧ (Clean pending fs → Clean none gs ∧ rd'.reporter = rd.reporter))
  ∨ (∃ rd', r = (false, [], rd') ∧ assemble pending fs = []
      ∧ (Clean pending fs → rd'.reporter = rd.reporter))

/-- The loop of `read_record`, by induction on the fragments in front of it. -/
theorem run_readRecordTurn {tail : Bytes} (fs : List Fragment) (o : Nat) (st : ReadState) (n : Nat)
    (h : At o (layout o fs ++ tail) st.rd) (hfits : Fits o fs) (htorn : Torn (endOffset o fs) tail)
    (hn : fs.length < n) :
    ∃ r, Loop.run .endless readRecordTurn n st = .ok r ∧ Returns st.pending o fs tail st.rd r := by
  induction fs generalizing o st n with
  | nil =>
      obtain ⟨n, rfl⟩ : ∃ k, n = k + 1 := ⟨n - 1, by simp at hn; omega⟩
      obtain ⟨rd, hturn, hrep⟩ := readRecordTurn_torn h htorn
      exact ⟨_, Loop.run_inr _ hturn n, .inr ⟨rd, rfl, rfl, fun _ => hrep⟩⟩
  | cons f fs ih =>
      obtain ⟨n, rfl⟩ : ∃ k, n = k + 1 := ⟨n - 1, by simp at hn; omega⟩
      rw [layout, List.append_assoc] at h
      obtain ⟨r, hturn, habs⟩ := readRecordTurn_fragment h hfits.1 hfits.2.1
      unfold Absorbed at habs
      cases ha : absorb st.pending f with
      | inl p =>
          simp only [ha] at habs
          obtain ⟨st', rfl, hat, hp, hrep⟩ := habs
          obtain ⟨r, hrun, hret⟩ := ih (next o f) st' n hat hfits.2.2 htorn (by simp at hn; omega)
          refine ⟨r, (Loop.run_inl _ hturn n).trans hrun, ?_⟩
          have hasm : assemble st.pending (f :: fs) = assemble st'.pending fs := by
            rw [assemble, ha, hp]
          have hclean : Clean st.pending (f :: fs)
              ↔ Expected st.pending f ∧ Clean st'.pending fs := by
            rw [Clean, ha, hp]
          unfold Returns
          rw [hasm, hclean]
          rcases hret with ⟨d, o', gs, rd', hr, h1, h2, h3, h4, h5, h6⟩ | ⟨rd', hr, h1, h6⟩
          · refine .inl ⟨d, o', gs, rd', hr, h1, h2, h3, h4, by simp; omega, fun hc => ?_⟩
            exact ⟨(h6 hc.2).1, (h6 hc.2).2.trans (hrep hc.1)⟩
          · exact .inr ⟨rd', hr, h1, fun hc => (h6 hc.2).trans (hrep hc.1)⟩
      | inr d =>
          simp only [ha] at habs
          obtain ⟨rd', rfl, hat, hrep⟩ := habs
          refine ⟨_, Loop.run_inr _ hturn n, .inl ⟨d, next o f, fs, rd', rfl, ?_, hat, hfits.2.2,
            rfl, by simp, fun hc => ?_⟩⟩
          · rw [assemble, ha]
          · rw [Clean, ha] at hc
            exact ⟨hc.2, hrep hc.1⟩

/-- A layout has more bytes than physical records. -/
theorem length_le_layout (o : Nat) (fs : List Fragment) : fs.length ≤ (layout o fs).length := by
  induction fs generalizing o with
  | nil => exact Nat.zero_le _
  | cons f fs ih =>
      have := ih (next o f)
      have : kHeaderSize = 7 := rfl
      simp only [layout, List.length_append, List.length_cons, Fragment.encode_length]
      omega

theorem readRecord_layout {tail : Bytes} {fs : List Fragment} {o : Nat} {rd : Reader}
    (h : At o (layout o fs ++ tail) rd) (hfits : Fits o fs) (htorn : Torn (endOffset o fs) tail) :
    ∃ r, rd.readRecord = .ok r ∧ Returns none o fs tail rd r := by
  have hno : ¬ rd.lastRecordOffset < rd.initialOffset := by
    rw [h.initialOffset, BitVec.lt_def]
    exact Nat.not_lt_zero _
  rw [readRecord, if_neg hno, readRecordLoop]
  apply run_readRecordTurn fs o _ _ h hfits htorn
  rw [h.unread, List.length_append]
  have := length_le_layout o fs
  omega

/-- The loop over `read_record`, by induction on the fragments left. -/
theorem run_readAllTurn {tail : Bytes} (n : Nat) (fs : List Fragment) (o : Nat) (acc : List Bytes)
    (rd : Reader) (h : At o (layout o fs ++ tail) rd) (hfits : Fits o fs)
    (htorn : Torn (endOffset o fs) tail) (hn : fs.length < n) :
    ∃ rd', Loop.run .endless readAllTurn n (acc, rd) = .ok (acc ++ assemble none fs, rd')
      ∧ (Clean none fs → rd'.reporter = rd.reporter) := by
  induction n generalizing fs o acc rd with
  | zero => omega
  | succ n ih =>
      obtain ⟨r, hread, hret⟩ := readRecord_layout h hfits htorn
      rcases hret with ⟨d, o', gs, rd', rfl, h1, h2, h3, h4, h5, h6⟩ | ⟨rd', rfl, h1, h6⟩
      · have hturn : readAllTurn (acc, rd) = .ok (.inl (acc ++ [d], rd')) := by
          rw [readAllTurn, hread]
          rfl
        obtain ⟨rd'', hrun, hrep⟩ := ih gs o' (acc ++ [d]) rd' h2 h3 (h4 ▸ htorn) (by omega)
        refine ⟨rd'', ?_, fun hc => (hrep (h6 hc).1).trans (h6 hc).2⟩
        rw [Loop.run_inl _ hturn, hrun, h1, List.append_assoc, List.singleton_append]
      · have hturn : readAllTurn (acc, rd) = .ok (.inr (acc, rd')) := by
          rw [readAllTurn, hread]
          rfl
        refine ⟨rd', ?_, h6⟩
        rw [Loop.run_inr _ hturn, h1, List.append_nil]

/-- The end of a full block is as good as the start of the next one. -/
theorem layout_kBlockSize (fs : List Fragment) : layout kBlockSize fs = layout 0 fs := by
  cases fs <;> rfl

theorem fits_kBlockSize {fs : List Fragment} (h : Fits 0 fs) : Fits kBlockSize fs := by
  cases fs with
  | nil => trivial
  | cons f fs => exact h

theorem torn_kBlockSize {fs : List Fragment} {tail : Bytes} (h : Torn (endOffset 0 fs) tail) :
    Torn (endOffset kBlockSize fs) tail := by
  cases fs with
  | nil => exact h
  | cons f fs => exact h

/-- **Reading a layout** that may end in a torn physical record: the records are those that
its complete physical records make up, and no report is made when they follow the format. -/
theorem readAll_layout {tail : Bytes} {fs : List Fragment} (hfits : Fits 0 fs)
    (htorn : Torn (endOffset 0 fs) tail) (reporter : Option (List (Nat × Status)))
    (checksum : Bool) :
    ∃ rd, readAll (Reader.new ⟨layout 0 fs ++ tail, []⟩ reporter checksum 0)
        = .ok (assemble none fs, rd)
      ∧ (Clean none fs → rd.reporter = reporter) := by
  have h := at_new (layout kBlockSize fs ++ tail) reporter checksum
  have hn := length_le_layout kBlockSize fs
  rw [← layout_kBlockSize, readAll, h.unread, List.length_append]
  exact run_readAllTurn _ fs kBlockSize [] _ h (fits_kBlockSize hfits) (torn_kBlockSize htorn)
    (by omega)

end Reader

end SimpleLeveldb.Log
