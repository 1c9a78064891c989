import SimpleLeveldb.Log.Walk
import Mathlib.Data.List.GetD

set_option autoImplicit false

/-! # Short damage

A change of up to four consecutive bytes of a physical record, or of its checksum, is always found:
the register holds four bytes, and loses none of what was fed into it before.
-/

namespace SimpleLeveldb.Log

/-- A buffer that begins with a physical record, after a change of some of its bytes: at most four
consecutive ones from the type byte to the end of the payload, or those of the checksum. -/
inductive ShortChange (b : Bytes) : Bytes → Prop
  | covered {a x y c : Bytes} : b = a ++ x ++ c → x.length = y.length → x.length ≤ 4 → x ≠ y →
      6 ≤ a.length → a.length + x.length ≤ kHeaderSize + lengthField b → ShortChange b (a ++ y ++ c)
  | checksum {x y c : Bytes} : b = x ++ c → x.length = 4 → y.length = 4 → x ≠ y →
      ShortChange b (y ++ c)

namespace ShortChange

variable {b b' : Bytes}

theorem length (h : ShortChange b b') : b'.length = b.length := by
  cases h with
  | covered hb hlen _ _ _ _ => rw [hb]; simp [hlen]
  | checksum hb hx hy _ => rw [hb]; simp [hx, hy]

/-- The length field is not touched. -/
theorem lengthField (h : ShortChange b b') : Log.lengthField b' = Log.lengthField b := by
  have hget : ∀ i, 4 ≤ i → i < 6 → b'.getD i 0#8 = b.getD i 0#8 := by
    intro i h4 h6
    cases h with
    | covered hb _ _ _ ha _ =>
        rw [hb, List.append_assoc, List.append_assoc, List.getD_append _ _ _ _ (by omega),
          List.getD_append _ _ _ _ (by omega)]
    | checksum hb hx hy _ =>
        rw [hb, List.getD_append_right _ _ _ _ (by omega), List.getD_append_right _ _ _ _ (by omega),
          hx, hy]
  rw [Log.lengthField, Log.lengthField, hget 4 le_rfl (by omega), hget 5 (by omega) (by omega)]

/-- **The checksum does not match** afterwards. -/
theorem not_crcMatches (h : ShortChange b b') (hcrc : crcMatches b) : ¬ crcMatches b' := by
  intro hcrc'
  have hlength := h.lengthField
  unfold crcMatches at hcrc hcrc'
  rw [hlength] at hcrc'
  set n := Log.lengthField b with hn
  cases h with
  | @covered a x y c hb hlen hx hne ha hend =>
      -- the stored checksum is the same, and the bytes it covers are not
      have hstored : ∀ z : Bytes, decodeFixed32 (a ++ z ++ c) = decodeFixed32 a := by
        intro z
        have hget : ∀ i, i < 4 → (a ++ z ++ c).getD i 0#8 = a.getD i 0#8 := fun i hi => by
          rw [List.append_assoc, List.getD_append _ _ _ _ (by omega)]
        rw [decodeFixed32, hget 0 (by omega), hget 1 (by omega), hget 2 (by omega), hget 3 (by omega)]
        rfl
      have hcover : ∀ z : Bytes, z.length = x.length → ((a ++ z ++ c).drop 6).take (1 + n)
          = a.drop 6 ++ z ++ c.take (kHeaderSize + n - a.length - x.length) := by
        intro z hz
        have hH : kHeaderSize = 7 := rfl
        rw [List.append_assoc, List.drop_append_of_le_length ha, List.take_append, List.take_append,
          List.take_of_length_le (by rw [List.length_drop]; omega),
          List.take_of_length_le (by rw [List.length_drop]; omega), List.length_drop, hz,
          ← List.append_assoc]
        congr 2
        omega
      rw [hb, hstored, hcover x rfl] at hcrc
      rw [hstored, hcover y hlen.symm, ← hcrc] at hcrc'
      exact hne (Crc32c.extend_short _ _ _ hlen hx hcrc'.symm)
  | @checksum x y c hb hx hy hne =>
      have hcover : ∀ z : Bytes, z.length = 4 → (z ++ c).drop 6 = c.drop 2 := by
        intro z hz
        rw [List.drop_append, List.drop_of_length_le (by omega), hz]
        rfl
      have hstored : ∀ z : Bytes, z.length = 4 → decodeFixed32 (z ++ c) = decodeFixed32 z := by
        intro z hz
        have hget : ∀ i, i < 4 → (z ++ c).getD i 0#8 = z.getD i 0#8 := fun i hi =>
          List.getD_append _ _ _ _ (by omega)
        rw [decodeFixed32, hget 0 (by omega), hget 1 (by omega), hget 2 (by omega), hget 3 (by omega)]
        rfl
      rw [hb, hcover x hx, hstored x hx] at hcrc
      rw [hcover y hy, hcrc, hstored y hy] at hcrc'
      have hsame := congrArg Crc32c.mask hcrc'
      rw [Crc32c.mask_unmask, Crc32c.mask_unmask] at hsame
      exact hne (Crc32c.decodeFixed32_injective hx hy hsame)

end ShortChange

namespace Reader

/-- **Short damage is caught**: at a physical record whose checksum matched before the change,
`read_physical_record` returns `kBadRecord`, leaves `*result` as it was and drops the block. -/
theorem readPhysicalRecord_damaged {rd : Reader} (hchecksum : rd.checksum = true)
    (hinside : kHeaderSize + lengthField rd.buffer ≤ rd.buffer.length)
    (hcrc : crcMatches rd.buffer) {b' : Bytes} (hchange : ShortChange rd.buffer b') (result : Bytes) :
    ∃ rd', readPhysicalRecord result { rd with buffer := b' } = .ok (kBadRecord, result, rd')
      ∧ rd'.buffer = [] := by
  have hnot := hchange.not_crcMatches hcrc
  have hmismatch : Crc32c.value ((b'.drop 6).take (1 + lengthField b'))
      ≠ Crc32c.unmask (decodeFixed32 b') := hnot
  have hheader : ¬ b'.length < kHeaderSize := by
    rw [hchange.length]
    omega
  have hfits : ¬ b'.length < kHeaderSize + lengthField b' := by
    rw [hchange.length, hchange.lengthField]
    omega
  have hreport : ∀ (rd : Reader) (n : Nat) (reason : Bytes),
      (rd.reportCorruption n reason).buffer = rd.buffer := by
    intro rd n reason
    unfold reportCorruption reportDrop
    cases rd.reporter with
    | none => rfl
    | some calls =>
        simp only
        split_ifs <;> rfl
  have hturn : ∃ rd', readPhysicalRecordTurn result { rd with buffer := b' }
      = .ok (.inr (kBadRecord, result, rd')) ∧ rd'.buffer = [] := by
    simp only [readPhysicalRecordTurn, if_neg hheader, lengthField_eq, if_neg hfits, hchecksum, true_and]
    by_cases hzero : (charToU32 (b'.getD 6 0#8)).toNat = RecordType.kZeroType.toNat ∧ lengthField b' = 0
    · exact ⟨_, by rw [if_pos hzero], rfl⟩
    · exact ⟨_, by rw [if_neg hzero, if_pos hmismatch], hreport _ _ _⟩
  obtain ⟨rd', hrun, hbuffer⟩ := hturn
  exact ⟨rd', Loop.run_inr _ hrun 2, hbuffer⟩

/-- A reader with a physical record of two bytes in its buffer, and a damaged second byte. -/
theorem readPhysicalRecord_damaged_second : ∃ rd',
    readPhysicalRecord [] { Reader.new ⟨[], []⟩ none true 0 with
      buffer := (physical 1#8 (text "ab")).take 7 ++ text "aa" ++ text "rest" }
      = .ok (kBadRecord, [], rd') ∧ rd'.buffer = [] := by
  have hlength := lengthField_physical 1#8 (show (text "ab").length < 65536 by decide) (text "rest")
  have hcrc := crcMatches_physical 1#8 (show (text "ab").length < 65536 by decide) (text "rest")
  have hsplit : physical 1#8 (text "ab") ++ text "rest"
      = (physical 1#8 (text "ab")).take 7 ++ text "ab" ++ text "rest" :=
    congrArg (· ++ text "rest") (List.take_append_drop 7 (physical 1#8 (text "ab"))).symm
  have htake : ((physical 1#8 (text "ab")).take 7).length = 7 := by
    rw [List.length_take, physical_length]
    rfl
  have hchange : ShortChange (physical 1#8 (text "ab") ++ text "rest")
      ((physical 1#8 (text "ab")).take 7 ++ text "aa" ++ text "rest") := by
    refine .covered hsplit rfl (by decide) (by decide) ?_ ?_
    · rw [htake]
      decide
    · rw [htake, hlength]
      rfl
  have hinside : kHeaderSize + lengthField (physical 1#8 (text "ab") ++ text "rest")
      ≤ (physical 1#8 (text "ab") ++ text "rest").length := by
    rw [hlength, List.length_append, physical_length]
    exact Nat.le_add_right _ _
  exact @readPhysicalRecord_damaged { Reader.new ⟨[], []⟩ none true 0 with
    buffer := physical 1#8 (text "ab") ++ text "rest" } rfl hinside hcrc _ hchange []

end Reader

end SimpleLeveldb.Log
