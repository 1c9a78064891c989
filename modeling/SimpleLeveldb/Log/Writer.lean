import SimpleLeveldb.Log.Format
import SimpleLeveldb.Env

set_option autoImplicit false

/-! # The log writer (`log_write.h`, `log_write.cc`)

`Writer.addRecord` cuts a record into physical records and appends them to the destination
file. The cutting is modelled as the source has it, the repeated test of `begin` included: no
physical record is ever given the type `kLastType`.
-/

namespace SimpleLeveldb.Log

/-- `log::writer`; `dest` is the name of the file behind `dest_`. -/
structure Writer where
  dest : Bytes
  blockOffset : Nat
  typeCrc : List U32
  deriving DecidableEq

/-- `init_type_crc` writes the entries below `kMaxRecordType`; the last one keeps the value
`uninit` that it happens to have. -/
def initTypeCrc (uninit : U32) : List U32 :=
  (List.range kMaxRecordType).map (fun i => Crc32c.value [BitVec.ofNat 8 i]) ++ [uninit]

namespace Writer

/-- `writer( dest )` -/
def new (dest : Bytes) (uninit : U32) : Writer where
  dest := dest
  blockOffset := 0
  typeCrc := initTypeCrc uninit

/-- `writer( dest, dest_length )` -/
def newAt (dest : Bytes) (destLength : Nat) (uninit : U32) : Writer where
  dest := dest
  blockOffset := destLength % kBlockSize
  typeCrc := initTypeCrc uninit

def emitPhysicalRecord (w : Writer) (type : RecordType) (ptr : Bytes) (env : Env) :
    Except Fault (Status × Writer × Env) := do
  require (ptr.length ≤ 0xffff)
  require (w.blockOffset + kHeaderSize + ptr.length ≤ kBlockSize)
  let crc := Crc32c.extend (w.typeCrc.getD type.toNat 0#32) ptr
  let r := env.append w.dest (header type crc ptr.length)
  let r := Env.andThen r (Env.append w.dest ptr)
  let r := Env.andThen r (Env.flush w.dest)
  return (r.1, { w with blockOffset := w.blockOffset + (kHeaderSize + ptr.length) }, r.2)

/-- The variables of the loop of `add_record`: `left` is the length of `ptr`. -/
structure AddState where
  atBegin : Bool
  ptr : Bytes
  w : Writer
  env : Env

/-- The start of a new block, when no header fits into the current one. The status of the
append of the trailer is ignored. -/
def switchBlock (w : Writer) (env : Env) : Writer × Env :=
  let leftOver := kBlockSize - w.blockOffset
  if leftOver < kHeaderSize then
    ({ w with blockOffset := 0 },
      if 0 < leftOver then (env.append w.dest ((zeros 6).take leftOver)).2 else env)
  else (w, env)

/-- The type of a physical record, by its place in the record. -/
def fragmentType (atBegin atEnd : Bool) : RecordType :=
  if atBegin && atEnd then .kFullType
  else if atBegin then .kFirstType
  else if atBegin then .kLastType
  else .kMiddleType

/-- One turn of the loop of `add_record`. -/
def addRecordTurn (st : AddState) : Except Fault (AddState ⊕ (Status × Writer × Env)) := do
  require (st.w.blockOffset ≤ kBlockSize)
  let (w, env) := switchBlock st.w st.env
  require (w.blockOffset + kHeaderSize ≤ kBlockSize)
  let avail := kBlockSize - w.blockOffset - kHeaderSize
  let left := st.ptr.length
  let fragmentLength := if left < avail then left else avail
  let type := fragmentType st.atBegin (left = fragmentLength)
  let (s, w, env) ← w.emitPhysicalRecord type (st.ptr.take fragmentLength) env
  let ptr := st.ptr.drop fragmentLength
  if s.isOk && 0 < ptr.length then return .inl ⟨false, ptr, w, env⟩
  return .inr (s, w, env)

/-- `add_record`. Only the first turn can leave `left` as it was. -/
def addRecord (w : Writer) (sle : Bytes) (env : Env) : Except Fault (Status × Writer × Env) :=
  Loop.run .endless addRecordTurn (sle.length + 2) ⟨true, sle, w, env⟩

/-! ## What one turn appends -/

/-- The entries of `type_crc_` that `init_type_crc` writes. -/
theorem initTypeCrc_getD (uninit : U32) {t : RecordType} (ht : t ≠ .kLastType) :
    (initTypeCrc uninit).getD t.toNat 0#32 = Crc32c.value [t.byte] := by
  cases t with
  | kLastType => exact absurd rfl ht
  | _ => rfl

/-- The checksum is computed in two parts, the type byte first. -/
theorem extend_typeCrc (uninit : U32) {t : RecordType} (ht : t ≠ .kLastType) (ptr : Bytes) :
    Crc32c.extend ((initTypeCrc uninit).getD t.toNat 0#32) ptr = Fragment.crc ⟨t, ptr⟩ := by
  rw [initTypeCrc_getD uninit ht, Fragment.crc, Crc32c.value, Crc32c.extend_extend]
  rfl

theorem andThen_of_ok {r : Status × Env} (h : r.1 = .ok) (next : Env → Status × Env) :
    Env.andThen r next = next r.2 := by
  simp [Env.andThen, h]

/-- The header and the payload are appended, with the checksum that continues the entry of
`type_crc_`. -/
theorem emitPhysicalRecord_appended (w : Writer) (t : RecordType) (ptr : Bytes) {env : Env}
    (henv : env.AllOk) (hfit : w.blockOffset + kHeaderSize + ptr.length ≤ kBlockSize) :
    ∃ env', w.emitPhysicalRecord t ptr env
        = .ok (.ok, { w with blockOffset := w.blockOffset + kHeaderSize + ptr.length }, env')
      ∧ Env.Appended w.dest
        (header t (Crc32c.extend (w.typeCrc.getD t.toNat 0#32) ptr) ptr.length ++ ptr) env env' := by
  have hlen : ptr.length ≤ 0xffff := by
    have : kBlockSize = 32768 := rfl
    omega
  rw [emitPhysicalRecord, require_of hlen, require_of hfit]
  simp only [ok_bind]
  set d := header t (Crc32c.extend (w.typeCrc.getD t.toNat 0#32) ptr) ptr.length with hd
  obtain ⟨h1, g1⟩ := Env.append_of_allOk henv w.dest d
  obtain ⟨h2, g2⟩ := Env.append_of_allOk g1.allOk w.dest ptr
  obtain ⟨h3, g3⟩ := Env.flush_of_allOk g2.allOk w.dest
  rw [andThen_of_ok h1, andThen_of_ok h2, h3]
  refine ⟨_, by rw [← Nat.add_assoc]; rfl, ?_⟩
  have := (g1.trans g2).trans g3
  rwa [List.append_nil] at this

theorem emitPhysicalRecord_spec (w : Writer) (uninit : U32) (hw : w.typeCrc = initTypeCrc uninit)
    {t : RecordType} (ht : t ≠ .kLastType) (ptr : Bytes) {env : Env} (henv : env.AllOk)
    (hfit : w.blockOffset + kHeaderSize + ptr.length ≤ kBlockSize) :
    ∃ env', w.emitPhysicalRecord t ptr env
        = .ok (.ok, { w with blockOffset := w.blockOffset + kHeaderSize + ptr.length }, env')
      ∧ Env.Appended w.dest (Fragment.encode ⟨t, ptr⟩) env env' := by
  obtain ⟨env', hemit, happended⟩ := emitPhysicalRecord_appended w t ptr henv hfit
  refine ⟨env', hemit, ?_⟩
  rwa [hw, extend_typeCrc uninit ht ptr] at happended

theorem switchBlock_spec (w : Writer) {env : Env} (henv : env.AllOk) :
    ∃ env', w.switchBlock env = ({ w with blockOffset := start w.blockOffset }, env')
      ∧ Env.Appended w.dest (zeros (padding w.blockOffset)) env env' := by
  unfold switchBlock start padding
  by_cases h : kBlockSize - w.blockOffset < kHeaderSize
  · simp only [if_pos h]
    by_cases h0 : 0 < kBlockSize - w.blockOffset
    · rw [if_pos h0]
      have htake : (zeros 6).take (kBlockSize - w.blockOffset)
          = zeros (kBlockSize - w.blockOffset) := by
        have : kHeaderSize = 7 := rfl
        rw [zeros, List.take_replicate, Nat.min_eq_left (by omega), zeros]
      rw [htake]
      exact ⟨_, rfl, (Env.append_of_allOk henv _ _).2⟩
    · have hz : kBlockSize - w.blockOffset = 0 := by omega
      rw [if_neg h0, hz]
      exact ⟨_, rfl, Env.Appended.refl henv _⟩
  · simp only [if_neg h]
    exact ⟨_, rfl, Env.Appended.refl henv _⟩

/-- How much payload fits into a block from offset `o`. -/
def avail (o : Nat) : Nat := kBlockSize - start o - kHeaderSize

/-- The physical record of one turn. -/
def turnFragment (o : Nat) (atBegin : Bool) (ptr : Bytes) : Fragment :=
  ⟨fragmentType atBegin (ptr.length ≤ avail o), ptr.take (avail o)⟩

theorem fragmentType_ne_kLastType (b e : Bool) : fragmentType b e ≠ .kLastType := by
  cases b <;> cases e <;> decide

theorem fragmentType_ne_kZeroType (b e : Bool) : fragmentType b e ≠ .kZeroType := by
  cases b <;> cases e <;> decide

theorem next_turnFragment (o : Nat) (b : Bool) (ptr : Bytes) :
    next o (turnFragment o b ptr) = start o + kHeaderSize + min (avail o) ptr.length := by
  simp [next, turnFragment, List.length_take]

theorem next_turnFragment_le {o : Nat} (ho : o ≤ kBlockSize) (b : Bool) (ptr : Bytes) :
    next o (turnFragment o b ptr) ≤ kBlockSize := by
  have := start_add_kHeaderSize_le ho
  rw [next_turnFragment, avail]
  omega

/-- **One turn**: the trailer, if one is due, and one physical record. -/
theorem addRecordTurn_spec (st : AddState) {uninit : U32}
    (hw : st.w.typeCrc = initTypeCrc uninit) (ho : st.w.blockOffset ≤ kBlockSize)
    (henv : st.env.AllOk) :
    ∃ env', addRecordTurn st = .ok (
        let w := { st.w with
          blockOffset := next st.w.blockOffset (turnFragment st.w.blockOffset st.atBegin st.ptr) }
        if st.ptr.length ≤ avail st.w.blockOffset then .inr (.ok, w, env')
        else .inl ⟨false, st.ptr.drop (avail st.w.blockOffset), w, env'⟩)
      ∧ Env.Appended st.w.dest
          (layout st.w.blockOffset [turnFragment st.w.blockOffset st.atBegin st.ptr])
          st.env env' := by
  obtain ⟨env₁, hs, g₁⟩ := switchBlock_spec st.w henv
  set o := st.w.blockOffset with hodef
  have hstart := start_add_kHeaderSize_le ho
  have havail : avail o = kBlockSize - start o - kHeaderSize := rfl
  have hmin : (if st.ptr.length < avail o then st.ptr.length else avail o)
      = min (avail o) st.ptr.length := by
    split_ifs <;> omega
  have hend : (st.ptr.length = min (avail o) st.ptr.length) = (st.ptr.length ≤ avail o) := by
    apply propext; omega
  have htake : st.ptr.take (min (avail o) st.ptr.length) = st.ptr.take (avail o) := by
    simp
  have hlen : (st.ptr.take (avail o)).length = min (avail o) st.ptr.length := by simp
  obtain ⟨env₂, he, g₂⟩ := emitPhysicalRecord_spec
    { st.w with blockOffset := start o } uninit hw
    (fragmentType_ne_kLastType st.atBegin (st.ptr.length ≤ avail o))
    (st.ptr.take (avail o)) g₁.allOk (by
      show start o + kHeaderSize + (st.ptr.take (avail o)).length ≤ kBlockSize
      rw [hlen]
      omega)
  refine ⟨env₂, ?_, ?_⟩
  · rw [addRecordTurn, require_of ho]
    simp only [ok_bind, hs, require_of hstart, ← havail, hmin, hend, htake, he]
    by_cases h : st.ptr.length ≤ avail o
    · have hdrop : (st.ptr.drop (min (avail o) st.ptr.length)).length = 0 := by
        rw [List.length_drop]; omega
      rw [hdrop, if_pos h, next_turnFragment, hlen]
      rfl
    · have hdrop : 0 < (st.ptr.drop (min (avail o) st.ptr.length)).length := by
        rw [List.length_drop]; omega
      have hmin' : min (avail o) st.ptr.length = avail o := by omega
      rw [if_neg h, next_turnFragment, hlen]
      simp only [Status.isOk_ok, hdrop, decide_true, Bool.and_self, if_true]
      rw [hmin']
      rfl
  · have := g₁.trans g₂
    simpa [layout, turnFragment] using this

/-! ## What a record becomes -/

/-- The physical records that a record is cut into from offset `o` of a block: one, when it
fits into the block; otherwise a first one that fills the block, and only middle ones. -/
def Cut (o : Nat) (sle : Bytes) (fs : List Fragment) : Prop :=
  (sle.length ≤ avail o ∧ fs = [⟨.kFullType, sle⟩])
  ∨ (avail o < sle.length ∧ ∃ ps : List Bytes, ps ≠ [] ∧ ps.flatten = sle.drop (avail o)
      ∧ fs = ⟨.kFirstType, sle.take (avail o)⟩ :: ps.map (Fragment.mk .kMiddleType))

/-- `w` has written the physical records `fs` to its file. -/
structure Wrote (w : Writer) (fs : List Fragment) (env : Env) (w' : Writer) (env' : Env) :
    Prop where
  appended : Env.Appended w.dest (layout w.blockOffset fs) env env'
  fits : Fits w.blockOffset fs
  writer : w' = { w with blockOffset := endOffset w.blockOffset fs }

/-- A turn that leaves payload over has filled its block. -/
theorem next_of_avail_lt {o : Nat} (ho : o ≤ kBlockSize) {b : Bool} {ptr : Bytes}
    (h : avail o < ptr.length) : next o (turnFragment o b ptr) = kBlockSize := by
  have := start_add_kHeaderSize_le ho
  rw [next_turnFragment, avail]
  unfold avail at h
  omega

theorem wrote_turn {w : Writer} {b : Bool} {ptr : Bytes} {env env' : Env}
    (ho : w.blockOffset ≤ kBlockSize)
    (h : Env.Appended w.dest (layout w.blockOffset [turnFragment w.blockOffset b ptr]) env env') :
    Wrote w [turnFragment w.blockOffset b ptr] env
      { w with blockOffset := next w.blockOffset (turnFragment w.blockOffset b ptr) } env' where
  appended := h
  fits := ⟨fragmentType_ne_kZeroType _ _, next_turnFragment_le ho b ptr, trivial⟩
  writer := rfl

theorem Wrote.trans {w₁ w₂ w₃ : Writer} {env₁ env₂ env₃ : Env} {fs gs : List Fragment}
    (h₁ : Wrote w₁ fs env₁ w₂ env₂) (h₂ : Wrote w₂ gs env₂ w₃ env₃) :
    Wrote w₁ (fs ++ gs) env₁ w₃ env₃ := by
  have hw := h₁.writer
  subst hw
  refine ⟨?_, ?_, ?_⟩
  · rw [layout_append]
    exact h₁.appended.trans h₂.appended
  · rw [fits_append]
    exact ⟨h₁.fits, h₂.fits⟩
  · rw [endOffset_append]
    exact h₂.writer

/-- After the first turn: every block is filled with a middle fragment, and the last physical
record is a middle one too. -/
theorem run_middle {uninit : U32} (n : Nat) (ptr : Bytes) (w : Writer) (env : Env)
    (hw : w.typeCrc = initTypeCrc uninit) (ho : w.blockOffset = kBlockSize) (henv : env.AllOk)
    (hptr : ptr ≠ []) (hn : ptr.length < n) :
    ∃ ps w' env', ps ≠ [] ∧ ps.flatten = ptr
      ∧ Loop.run .endless addRecordTurn n ⟨false, ptr, w, env⟩ = .ok (.ok, w', env')
      ∧ Wrote w (ps.map (Fragment.mk .kMiddleType)) env w' env' := by
  induction n generalizing ptr w env with
  | zero => omega
  | succ n ih =>
      obtain ⟨env₁, hturn, g⟩ := addRecordTurn_spec ⟨false, ptr, w, env⟩ hw
        (le_of_eq ho) henv
      have hwrote := wrote_turn (le_of_eq ho) g
      have hmid : turnFragment w.blockOffset false ptr
          = ⟨.kMiddleType, ptr.take (avail w.blockOffset)⟩ := by
        simp [turnFragment, fragmentType]
      simp only at hturn
      by_cases h : ptr.length ≤ avail w.blockOffset
      · rw [if_pos h] at hturn
        refine ⟨[ptr], _, env₁, by simp, by simp, Loop.run_inr _ hturn n, ?_⟩
        rw [hmid, List.take_of_length_le h] at hwrote
        rw [hmid, List.take_of_length_le h]
        exact hwrote
      · rw [if_neg h] at hturn
        have hfull := next_of_avail_lt (le_of_eq ho) (b := false) (by omega : avail _ < ptr.length)
        have hpos : 0 < avail w.blockOffset := by rw [ho]; decide
        obtain ⟨ps, w', env', hps, hflat, hrun, hrest⟩ := ih (ptr.drop (avail w.blockOffset))
          { w with blockOffset := next w.blockOffset (turnFragment w.blockOffset false ptr) } env₁
          hw hfull g.allOk (by rw [← List.length_pos_iff_ne_nil, List.length_drop]; omega)
          (by rw [List.length_drop]; omega)
        refine ⟨ptr.take (avail w.blockOffset) :: ps, w', env', by simp, ?_, ?_, ?_⟩
        · rw [List.flatten_cons, hflat, List.take_append_drop]
        · rw [Loop.run_inl _ hturn]
          exact hrun
        · have := hwrote.trans hrest
          rwa [hmid, List.singleton_append, ← List.map_cons] at this

/-- **Writing a record**, on a file whose appends succeed: it is cut into physical records
that are laid out from the writer's offset on. -/
theorem addRecord_spec {uninit : U32} {w : Writer} {env : Env}
    (hw : w.typeCrc = initTypeCrc uninit) (ho : w.blockOffset ≤ kBlockSize) (henv : env.AllOk)
    (sle : Bytes) :
    ∃ fs w' env', w.addRecord sle env = .ok (.ok, w', env') ∧ Cut w.blockOffset sle fs
      ∧ Wrote w fs env w' env' := by
  obtain ⟨env₁, hturn, g⟩ := addRecordTurn_spec ⟨true, sle, w, env⟩ hw ho henv
  have hwrote := wrote_turn ho g
  simp only at hturn
  by_cases h : sle.length ≤ avail w.blockOffset
  · rw [if_pos h] at hturn
    have hone : turnFragment w.blockOffset true sle = ⟨.kFullType, sle⟩ := by
      simp [turnFragment, fragmentType, h]
    rw [hone] at hwrote
    refine ⟨[⟨.kFullType, sle⟩], _, env₁, Loop.run_inr _ hturn _, .inl ⟨h, rfl⟩, ?_⟩
    rw [hone]
    exact hwrote
  · rw [if_neg h] at hturn
    have hfirst : turnFragment w.blockOffset true sle
        = ⟨.kFirstType, sle.take (avail w.blockOffset)⟩ := by
      simp [turnFragment, fragmentType, h]
    have hfull := next_of_avail_lt ho (b := true) (by omega : avail _ < sle.length)
    obtain ⟨ps, w', env', hps, hflat, hrun, hrest⟩ := run_middle (sle.length + 1)
      (sle.drop (avail w.blockOffset))
      { w with blockOffset := next w.blockOffset (turnFragment w.blockOffset true sle) } env₁
      hw hfull g.allOk (by rw [← List.length_pos_iff_ne_nil, List.length_drop]; omega)
      (by rw [List.length_drop]; omega)
    refine ⟨_, w', env', ?_, .inr ⟨by omega, ps, hps, hflat, rfl⟩, ?_⟩
    · rw [addRecord, Loop.run_inl _ hturn]
      exact hrun
    · have := hwrote.trans hrest
      rwa [hfirst, List.singleton_append] at this

end Writer

end SimpleLeveldb.Log
