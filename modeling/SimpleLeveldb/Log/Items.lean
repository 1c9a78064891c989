import SimpleLeveldb.Log.Reading

set_option autoImplicit false

/-! # What arbitrary bytes hold

Whatever bytes a file holds, a reader with the checksum on that starts at the beginning goes
through them in the same way: `step` is the next thing that it meets at a position of the file, a
physical record or the rest of a block that it drops, and `Walk` is all that it meets.
-/

namespace SimpleLeveldb.Log

/-- What the reader meets at a position: a complete physical record with a matching checksum, or
the rest of a block, which it drops with the given reports. -/
inductive Item where
  | record (pos : Nat) (type : Byte) (payload : Bytes)
  | bad (pos : Nat) (calls : List (Nat × Status))

/-- The type byte of a physical record. -/
def Item.type? : Item → Option Byte
  | .record _ type _ => some type
  | .bad _ _ => none

/-! ## Parsing a block -/

/-- The length field of a header. -/
def lengthField (b : Bytes) : Nat := (b.getD 4 0#8).toNat + 256 * (b.getD 5 0#8).toNat

/-- The stored checksum is that of the type byte and the payload. -/
def crcMatches (b : Bytes) : Prop :=
  Crc32c.value ((b.drop 6).take (1 + lengthField b)) = Crc32c.unmask (decodeFixed32 b)

instance (b : Bytes) : Decidable (crcMatches b) := inferInstanceAs (Decidable (_ = _))

/-- The next item in the rest `b` of a block at the position `pos`, and its size. In the `last`
block a length that runs past the end means that the file is at its end. -/
def parse (pos : Nat) (b : Bytes) (last : Bool) : Option (Item × Nat) :=
  if b.length < kHeaderSize + lengthField b then
    if last then none
    else some (.bad pos [(b.length, .corruption (text "bad record length"))], b.length)
  else if b.getD 6 0#8 = 0#8 ∧ lengthField b = 0 then some (.bad pos [], b.length)
  else if crcMatches b then
    some (.record pos (b.getD 6 0#8) ((b.drop kHeaderSize).take (lengthField b)),
      kHeaderSize + lengthField b)
  else some (.bad pos [(b.length, .corruption (text "checksum mismatch"))], b.length)

/-- The next item in the rest `data` of a file, from the position `pos` on, with the position and
the bytes behind it. -/
def step (pos : Nat) (data : Bytes) : Option (Item × Nat × Bytes) :=
  let o := pos % kBlockSize
  if data.length < padding o + kHeaderSize then none
  else
    let d := data.drop (padding o)
    let room := kBlockSize - start o
    (parse (pos + padding o) (d.take room) (decide (d.length < room))).map fun r =>
      (r.1, pos + padding o + r.2, d.drop r.2)

/-- `is` is what the reader meets from the position `pos` on. -/
inductive Walk : Nat → Bytes → List Item → Prop
  | done {pos : Nat} {data : Bytes} : step pos data = none → Walk pos data []
  | item {pos pos' : Nat} {data data' : Bytes} {i : Item} {is : List Item} :
      step pos data = some (i, pos', data') → Walk pos' data' is → Walk pos data (i :: is)

/-- What the reader meets, for `fuel` items at most. -/
def items : Nat → Nat → Bytes → List Item
  | 0, _, _ => []
  | fuel + 1, pos, data =>
      match step pos data with
      | none => []
      | some (i, pos', data') => i :: items fuel pos' data'

/-- What the reader meets in a file. -/
def fileItems (data : Bytes) : List Item := items (data.length + 1) 0 data

/-! ## Physical records -/

/-- A physical record in the format, with whatever type byte. -/
def physical (type : Byte) (payload : Bytes) : Bytes :=
  encodeFixed32 (Crc32c.mask (Crc32c.value (type :: payload)))
    ++ [BitVec.ofNat 8 payload.length, BitVec.ofNat 8 (payload.length >>> 8), type] ++ payload

theorem encode_eq_physical (f : Fragment) : f.encode = physical f.type.byte f.payload := rfl

@[simp] theorem physical_length (type : Byte) (payload : Bytes) :
    (physical type payload).length = kHeaderSize + payload.length := by
  simp only [physical, List.length_append, encodeFixed32_length, List.length_cons, List.length_nil]
  rfl

/-- The length field holds any length that two bytes can. -/
theorem lengthField_physical (type : Byte) {payload : Bytes} (hlen : payload.length < 65536)
    (rest : Bytes) : lengthField (physical type payload ++ rest) = payload.length := by
  show (BitVec.ofNat 8 payload.length).toNat
    + 256 * (BitVec.ofNat 8 (payload.length >>> 8)).toNat = payload.length
  rw [BitVec.toNat_ofNat, BitVec.toNat_ofNat, Nat.shiftRight_eq_div_pow]
  omega

theorem getD_physical (type : Byte) (payload rest : Bytes) :
    (physical type payload ++ rest).getD 6 0#8 = type := rfl

theorem crcMatches_physical (type : Byte) {payload : Bytes} (hlen : payload.length < 65536)
    (rest : Bytes) : crcMatches (physical type payload ++ rest) := by
  unfold crcMatches
  rw [lengthField_physical type hlen, physical, List.append_assoc, List.append_assoc,
    decodeFixed32_encodeFixed32, Crc32c.unmask_mask, Nat.add_comm 1]
  exact congrArg Crc32c.value (by simp [encodeFixed32])

/-- **A physical record is parsed** as what it is, unless it looks like a hole in the file. -/
theorem parse_physical (pos : Nat) (type : Byte) {payload : Bytes} (hlen : payload.length < 65536)
    (hzero : ¬(type = 0#8 ∧ payload.length = 0)) (rest : Bytes) (last : Bool) :
    parse pos (physical type payload ++ rest) last
      = some (.record pos type payload, kHeaderSize + payload.length) := by
  have hpayload : ((physical type payload ++ rest).drop kHeaderSize).take payload.length
      = payload := by
    rw [physical, List.append_assoc _ payload, List.drop_left' (by simp [kHeaderSize]),
      List.take_left]
  rw [parse, lengthField_physical type hlen, getD_physical, if_neg, if_neg hzero,
    if_pos (crcMatches_physical type hlen rest), hpayload]
  rw [List.length_append, physical_length]
  omega

/-- The bytes of a header with the checksum of what follows. -/
theorem physical_of_crcMatches {b : Bytes} (hb : kHeaderSize + lengthField b ≤ b.length)
    (hcrc : crcMatches b) :
    b.take (kHeaderSize + lengthField b)
      = physical (b.getD 6 0#8) ((b.drop kHeaderSize).take (lengthField b)) := by
  obtain ⟨b0, b1, b2, b3, b4, b5, b6, rest, rfl⟩ :
      ∃ b0 b1 b2 b3 b4 b5 b6 rest, b = b0 :: b1 :: b2 :: b3 :: b4 :: b5 :: b6 :: rest := by
    have : 7 ≤ b.length := le_trans (Nat.le_add_right _ _) hb
    match b, this with
    | b0 :: b1 :: b2 :: b3 :: b4 :: b5 :: b6 :: rest, _ => exact ⟨_, _, _, _, _, _, _, _, rfl⟩
  set n := lengthField (b0 :: b1 :: b2 :: b3 :: b4 :: b5 :: b6 :: rest) with hn
  have hfield : n = b4.toNat + 256 * b5.toNat := rfl
  have hlen : (rest.take n).length = n := by
    rw [List.length_take]
    simp only [List.length_cons, kHeaderSize] at hb
    omega
  have hvalue : Crc32c.value (b6 :: rest.take n)
      = Crc32c.unmask (decodeFixed32 (b0 :: b1 :: b2 :: b3 :: b4 :: b5 :: b6 :: rest)) := by
    have htake : (b6 :: rest).take (1 + n) = b6 :: rest.take n := by
      rw [Nat.add_comm, List.take_succ_cons]
    rw [← htake]
    exact hcrc
  have h4 := b4.isLt
  have h5 := b5.isLt
  have hlow : BitVec.ofNat 8 n = b4 := by
    apply BitVec.eq_of_toNat_eq
    rw [BitVec.toNat_ofNat]
    omega
  have hhigh : BitVec.ofNat 8 (n >>> 8) = b5 := by
    apply BitVec.eq_of_toNat_eq
    rw [BitVec.toNat_ofNat, Nat.shiftRight_eq_div_pow]
    omega
  show (b0 :: b1 :: b2 :: b3 :: b4 :: b5 :: b6 :: rest).take (kHeaderSize + n)
    = physical b6 (rest.take n)
  rw [physical, hvalue, Crc32c.mask_unmask, hlen, hlow, hhigh, Nat.add_comm kHeaderSize]
  simp [kHeaderSize, encodeFixed32_decodeFixed32]

/-- **What is parsed as a physical record** is one. -/
theorem parse_eq_record {pos n p : Nat} {b payload : Bytes} {last : Bool} {type : Byte}
    (h : parse pos b last = some (.record p type payload, n)) :
    p = pos ∧ n = kHeaderSize + payload.length ∧ n ≤ b.length
      ∧ b.take n = physical type payload := by
  unfold parse at h
  split_ifs at h with hlen hlast hzero hcrc
  · cases h
  · cases h
  · cases h
    have hle := not_lt.mp hlen
    have hsize : ((b.drop kHeaderSize).take (lengthField b)).length = lengthField b := by
      rw [List.length_take, List.length_drop]
      omega
    exact ⟨rfl, by rw [hsize], hle, physical_of_crcMatches hle hcrc⟩
  · cases h

/-! ## Sizes -/

theorem parse_size {pos n : Nat} {b : Bytes} {last : Bool} {i : Item}
    (h : parse pos b last = some (i, n)) (hb : kHeaderSize ≤ b.length) :
    kHeaderSize ≤ n ∧ n ≤ b.length := by
  unfold parse at h
  split_ifs at h with hlen hlast hzero hcrc
  · cases h
    exact ⟨hb, le_rfl⟩
  · cases h
    exact ⟨hb, le_rfl⟩
  · cases h
    exact ⟨Nat.le_add_right _ _, not_lt.mp hlen⟩
  · cases h
    exact ⟨hb, le_rfl⟩

/-- Behind a trailer comes the start of a block. -/
theorem mod_start (pos : Nat) :
    (pos + padding (pos % kBlockSize)) % kBlockSize = start (pos % kBlockSize) := by
  unfold padding start
  split_ifs with ho
  · simp only [kBlockSize]
    omega
  · rfl

/-- A position behind an item of a block. -/
theorem mod_behind {pos n : Nat} (hn : start (pos % kBlockSize) + n ≤ kBlockSize) :
    start (pos % kBlockSize) + n = (pos + padding (pos % kBlockSize) + n) % kBlockSize
      ∨ start (pos % kBlockSize) + n = kBlockSize
        ∧ (pos + padding (pos % kBlockSize) + n) % kBlockSize = 0 := by
  rw [← Nat.mod_add_mod, mod_start]
  rcases hn.lt_or_eq with hlt | heq
  · exact .inl (Nat.mod_eq_of_lt hlt).symm
  · exact .inr ⟨heq, by rw [heq, Nat.mod_self]⟩

/-- The start of a physical record has no trailer in front of it. -/
theorem padding_start (o : Nat) (ho : o ≤ kBlockSize) :
    padding (start o) = 0 ∧ start (start o) = start o := by
  have hle := start_add_kHeaderSize_le ho
  have hge : ¬ kBlockSize - start o < kHeaderSize := by omega
  exact ⟨if_neg hge, if_neg hge⟩

/-- The facts about a block that `step` looks at. -/
theorem block_length {o : Nat} {d : Bytes} (ho : o ≤ kBlockSize) (hd : kHeaderSize ≤ d.length) :
    kHeaderSize ≤ (d.take (kBlockSize - start o)).length := by
  have := start_add_kHeaderSize_le ho
  rw [List.length_take]
  omega

theorem mod_le (pos : Nat) : pos % kBlockSize ≤ kBlockSize :=
  (Nat.mod_lt pos (by decide)).le

/-- **What a step does**: it passes a trailer and takes an item out of the block. -/
theorem step_eq_some {pos pos' : Nat} {data data' : Bytes} {i : Item}
    (h : step pos data = some (i, pos', data')) :
    ∃ n, kHeaderSize ≤ (data.drop (padding (pos % kBlockSize))).length
      ∧ parse (pos + padding (pos % kBlockSize))
          ((data.drop (padding (pos % kBlockSize))).take (kBlockSize - start (pos % kBlockSize)))
          (decide ((data.drop (padding (pos % kBlockSize))).length
            < kBlockSize - start (pos % kBlockSize))) = some (i, n)
      ∧ pos' = pos + padding (pos % kBlockSize) + n
      ∧ data' = (data.drop (padding (pos % kBlockSize))).drop n := by
  unfold step at h
  simp only at h
  split_ifs at h with hlen
  obtain ⟨⟨i', n⟩, hparse, heq⟩ := Option.map_eq_some_iff.mp h
  cases heq
  refine ⟨n, ?_, hparse, rfl, rfl⟩
  rw [List.length_drop]
  omega

theorem step_length {pos pos' : Nat} {data data' : Bytes} {i : Item}
    (h : step pos data = some (i, pos', data')) : data'.length < data.length := by
  obtain ⟨n, hlen, hparse, -, rfl⟩ := step_eq_some h
  have hsize := (parse_size hparse (block_length (mod_le pos) hlen)).1
  rw [List.length_drop] at hlen
  rw [List.length_drop, List.length_drop]
  have : kHeaderSize = 7 := rfl
  omega

/-- The bytes left are those of the file from the position on. -/
theorem step_drop {whole data' : Bytes} {pos pos' : Nat} {i : Item}
    (h : step pos (whole.drop pos) = some (i, pos', data')) : data' = whole.drop pos' := by
  obtain ⟨n, -, -, rfl, rfl⟩ := step_eq_some h
  rw [List.drop_drop, List.drop_drop, Nat.add_assoc]

theorem walk_items (fuel pos : Nat) (data : Bytes) (h : data.length < fuel) :
    Walk pos data (items fuel pos data) := by
  induction fuel generalizing pos data with
  | zero => omega
  | succ fuel ih =>
      rw [items]
      cases hs : step pos data with
      | none => exact .done hs
      | some r =>
          obtain ⟨i, pos', data'⟩ := r
          have hlt := step_length hs
          exact .item hs (ih pos' data' (by omega))

theorem walk_fileItems (data : Bytes) : Walk 0 data (fileItems data) :=
  walk_items _ 0 data (Nat.lt_succ_self _)

theorem Walk.unique {pos : Nat} {data : Bytes} {is js : List Item} (h : Walk pos data is)
    (h' : Walk pos data js) : is = js := by
  induction h generalizing js with
  | done hs =>
      cases h' with
      | done => rfl
      | item hs' => rw [hs] at hs'; cases hs'
  | item hs _ ih =>
      cases h' with
      | done hs' => rw [hs] at hs'; cases hs'
      | item hs' hw =>
          rw [hs] at hs'
          cases hs'
          rw [ih hw]

theorem Walk.length_le {pos : Nat} {data : Bytes} {is : List Item} (h : Walk pos data is) :
    is.length ≤ data.length := by
  induction h with
  | done => exact Nat.zero_le _
  | item hs _ ih =>
      have := step_length hs
      rw [List.length_cons]
      omega

theorem step_nil (pos : Nat) : step pos [] = none := by
  unfold step
  exact if_pos (Nat.succ_pos _)

/-- **A step over a physical record** that has the trailer of a block in front of it. -/
theorem step_physical_append (pos : Nat) {type : Byte} {payload trailer : Bytes} (rest : Bytes)
    (hzero : ¬(type = 0#8 ∧ payload.length = 0))
    (hfit : start (pos % kBlockSize) + kHeaderSize + payload.length ≤ kBlockSize)
    (htrailer : trailer.length = padding (pos % kBlockSize)) :
    step pos (trailer ++ physical type payload ++ rest)
      = some (.record (pos + padding (pos % kBlockSize)) type payload,
          pos + padding (pos % kBlockSize) + (kHeaderSize + payload.length), rest) := by
  have hpayload : payload.length < 65536 := by
    have : kBlockSize = 32768 := rfl
    omega
  have hdrop : (trailer ++ physical type payload ++ rest).drop (padding (pos % kBlockSize))
      = physical type payload ++ rest := by
    rw [List.append_assoc]
    exact List.drop_left' htrailer
  have htake : (physical type payload ++ rest).take (kBlockSize - start (pos % kBlockSize))
      = physical type payload
        ++ rest.take (kBlockSize - start (pos % kBlockSize) - (physical type payload).length) := by
    rw [List.take_append, List.take_of_length_le]
    rw [physical_length]
    omega
  unfold step
  simp only
  rw [if_neg, hdrop, htake, parse_physical _ _ hpayload hzero]
  · simp only [Option.map_some]
    rw [List.drop_left' (physical_length type payload)]
  · rw [List.length_append, List.length_append, physical_length, htrailer]
    omega

end SimpleLeveldb.Log
