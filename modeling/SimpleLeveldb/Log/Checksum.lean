import SimpleLeveldb.Log.RoundTrip

set_option autoImplicit false

/-! # The checksums that the writer emits

The writer continues a checksum that `init_type_crc` has computed for the type; the reader
computes the checksum of the type and the payload in one pass. The two agree for every type whose
entry `init_type_crc` writes, and it leaves out the last one.
-/

namespace SimpleLeveldb.Log

open Reader (Parsed)

/-- The bytes of a physical record that pass the test of `read_physical_record`: the header carries
the type, the length of the payload and the checksum of both. -/
structure Verifies (type : RecordType) (payload record : Bytes) : Prop where
  parsed : Parsed type payload.length (Crc32c.value (type.byte :: payload)) record
  payload : record.drop kHeaderSize = payload

/-- `emit_physical_record` appends bytes that pass the test. -/
def Writer.EmitsVerified (w : Writer) (type : RecordType) (ptr : Bytes) (env : Env) : Prop :=
  ∃ record w' env', w.emitPhysicalRecord type ptr env = .ok (.ok, w', env')
    ∧ Env.Appended w.dest record env env' ∧ Verifies type ptr record

/-- The test compares the checksum in the header. -/
theorem verifies_header_iff (t : RecordType) {ptr : Bytes} (hlen : ptr.length ≤ 0xffff) (crc : U32) :
    Verifies t ptr (header t crc ptr.length ++ ptr) ↔ crc = Crc32c.value (t.byte :: ptr) := by
  have hparsed := Reader.parsed_header t hlen crc ptr
  constructor
  · intro h
    rw [← hparsed.crc, h.parsed.crc]
  · rintro rfl
    refine ⟨hparsed, ?_⟩
    rw [← header_length t (Crc32c.value (t.byte :: ptr)) ptr.length, List.drop_left]

/-- The entry of `type_crc_` is right for every type but the last one. -/
theorem initTypeCrc_getD_iff (uninit : U32) (t : RecordType) :
    (initTypeCrc uninit).getD t.toNat 0#32 = Crc32c.value [t.byte]
      ↔ t ≠ .kLastType ∨ uninit = Crc32c.value [RecordType.kLastType.byte] := by
  by_cases ht : t = .kLastType
  · subst ht
    simp only [ne_eq, not_true_eq_false, false_or]
    rfl
  · exact iff_of_true (Writer.initTypeCrc_getD uninit ht) (.inl ht)

/-- Two appends to the same file that leave the same environment have appended the same bytes. -/
theorem appended_unique {fname a b : Bytes} {env env' : Env} {f : File}
    (hfile : env.files.lookup fname = some f) (ha : Env.Appended fname a env env')
    (hb : Env.Appended fname b env env') : a = b := by
  have h := ha.file.symm.trans hb.file
  rw [hfile, Option.map_some, Option.map_some] at h
  exact List.append_cancel_left (congrArg File.data (Option.some.inj h))

/-- The bytes pass the test exactly when the entry of `type_crc_` is the checksum of the type. -/
theorem emitsVerified_iff_entry (dest : Bytes) {o : Nat} (uninit : U32) (type : RecordType)
    {ptr : Bytes} (hfit : o + kHeaderSize + ptr.length ≤ kBlockSize) {env : Env} (henv : env.AllOk)
    {f : File} (hfile : env.files.lookup dest = some f) :
    Writer.EmitsVerified ⟨dest, o, initTypeCrc uninit⟩ type ptr env
      ↔ (initTypeCrc uninit).getD type.toNat 0#32 = Crc32c.value [type.byte] := by
  have hlen : ptr.length ≤ 0xffff := by
    have : kBlockSize = 32768 := rfl
    omega
  obtain ⟨env', hemit, happended⟩ := Writer.emitPhysicalRecord_appended
    ⟨dest, o, initTypeCrc uninit⟩ type ptr henv hfit
  set entry := (initTypeCrc uninit).getD type.toNat 0#32 with hentry
  -- the reader's checksum continues the one of the type as well
  have hvalue : Crc32c.value (type.byte :: ptr)
      = Crc32c.extend (Crc32c.value [type.byte]) ptr := by
    rw [Crc32c.value, Crc32c.value, Crc32c.extend_extend]
    rfl
  have hcrc : Crc32c.extend entry ptr = Crc32c.value (type.byte :: ptr)
      ↔ entry = Crc32c.value [type.byte] := by
    rw [hvalue]
    exact ⟨Crc32c.extend_injective ptr, congrArg fun crc => Crc32c.extend crc ptr⟩
  rw [← hcrc, ← verifies_header_iff type hlen]
  constructor
  · rintro ⟨record, w', env'', hemit', happended', hverifies⟩
    rw [hemit] at hemit'
    cases hemit'
    rwa [appended_unique hfile happended happended']
  · exact fun hverifies => ⟨_, _, env', hemit, happended, hverifies⟩

/-- **Emitted checksums verify** for all types but the last one. That one verifies only if the
entry of `type_crc_` that nothing has written happens to be right. -/
theorem emitsVerified_iff (dest : Bytes) {o : Nat} (uninit : U32) (type : RecordType) {ptr : Bytes}
    (hfit : o + kHeaderSize + ptr.length ≤ kBlockSize) {env : Env} (henv : env.AllOk) {f : File}
    (hfile : env.files.lookup dest = some f) :
    Writer.EmitsVerified ⟨dest, o, initTypeCrc uninit⟩ type ptr env
      ↔ type ≠ .kLastType ∨ uninit = Crc32c.value [RecordType.kLastType.byte] :=
  (emitsVerified_iff_entry dest uninit type hfit henv hfile).trans (initTypeCrc_getD_iff uninit type)

theorem emitsVerified_iff_first :
    Writer.EmitsVerified ⟨text "log", 0, initTypeCrc 0⟩ .kFirstType (text "a")
        (emptyFileEnv (text "log"))
      ↔ RecordType.kFirstType ≠ .kLastType ∨ (0 : U32) = Crc32c.value [RecordType.kLastType.byte] :=
  emitsVerified_iff (text "log") 0 .kFirstType (by decide) (by simp [Env.AllOk, emptyFileEnv])
    (AList.lookup_insert _)

/-- With zeros in the entry that nothing has written, no last physical record verifies. -/
theorem not_emitsVerified_last :
    ¬ Writer.EmitsVerified ⟨text "log", 0, initTypeCrc 0⟩ .kLastType []
        (emptyFileEnv (text "log")) := by
  rw [emitsVerified_iff_entry (text "log") 0 .kLastType (by decide)
    (by simp [Env.AllOk, emptyFileEnv]) (AList.lookup_insert _)]
  decide +kernel

end SimpleLeveldb.Log
