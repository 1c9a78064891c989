import SimpleLeveldb.Version.VersionEdit

set_option autoImplicit false

/-! # Decoding with shared variables

`decode_from` keeps one `level`, `number`, `f` and `str` for all fields. Here its loop has them all in
its state; it does what `decodeFrom` does, so nothing of one field gets into another. Records can
therefore be decoded one after the other, and their fields put together (`merge`).
-/

namespace SimpleLeveldb.VersionEdit

/-! ## The loop with its variables -/

/-- The edit and the variables of `decode_from`. -/
structure DecodeVars where
  edit : VersionEdit
  input : Bytes
  tag : U32
  level : Nat
  number : U64
  f : FileMetaData
  str : Bytes

/-- What the variables that nothing initialises happen to hold. -/
structure Uninit where
  tag : U32 := 0
  level : Nat := 0
  number : U64 := 0
  fileNumber : U64 := 0

/-- The variables when the loop starts. -/
def DecodeVars.start (uninit : Uninit) (src : Bytes) : DecodeVars where
  edit := {}
  input := src
  tag := uninit.tag
  level := uninit.level
  number := uninit.number
  f := { number := uninit.fileNumber, smallest := [], largest := [] }
  str := []

namespace DecodeVars

/-- `get_varint64( &input, &x )`, for a variable `x` -/
def readVarint64 (set : DecodeVars → U64 → DecodeVars) (v : DecodeVars) : Bool × DecodeVars :=
  match getVarint64 v.input with
  | some (x, input) => (true, set { v with input := input } x)
  | none => (false, v)

/-- `get_length_prefixed_slice`: the string, if there is one. -/
def takeSlice (v : DecodeVars) : Option Bytes × DecodeVars :=
  match getVarint32 v.input with
  | some (len, input) =>
      if len.toNat ≤ input.length then
        (some (input.take len.toNat), { v with input := input.drop len.toNat })
      else (none, { v with input := input })
  | none => (none, v)

/-- `get_length_prefixed_slice( &input, &str )` -/
def readSlice (v : DecodeVars) : Bool × DecodeVars :=
  match v.takeSlice with
  | (some str, v) => (true, { v with str := str })
  | (none, v) => (false, v)

/-- `get_level( &input, &level )` -/
def readLevel (v : DecodeVars) : Bool × DecodeVars :=
  match getVarint32 v.input with
  | some (x, input) =>
      if x.toNat < kNumLevels then (true, { v with input := input, level := x.toNat })
      else (false, { v with input := input })
  | none => (false, v)

/-- `get_internal_key( &input, &x )`: an empty key is assigned as well. -/
def readInternalKey (set : DecodeVars → InternalKey → DecodeVars) (v : DecodeVars) :
    Bool × DecodeVars :=
  match v.takeSlice with
  | (some str, v) =>
      let (nonEmpty, key) := InternalKey.decodeFrom str
      (nonEmpty, set v key)
  | (none, v) => (false, v)

def setFileNumber (v : DecodeVars) (x : U64) : DecodeVars := { v with f := { v.f with number := x } }

def setFileSize (v : DecodeVars) (x : U64) : DecodeVars := { v with f := { v.f with fileSize := x } }

def setSmallest (v : DecodeVars) (key : InternalKey) : DecodeVars :=
  { v with f := { v.f with smallest := key } }

def setLargest (v : DecodeVars) (key : InternalKey) : DecodeVars :=
  { v with f := { v.f with largest := key } }

/-- `r && next` -/
def andAlso (r : Bool × DecodeVars) (next : DecodeVars → Bool × DecodeVars) : Bool × DecodeVars :=
  if r.1 then next r.2 else r

@[simp] theorem andAlso_true (v : DecodeVars) (next : DecodeVars → Bool × DecodeVars) :
    andAlso (true, v) next = next v := rfl

@[simp] theorem andAlso_false (v : DecodeVars) (next : DecodeVars → Bool × DecodeVars) :
    andAlso (false, v) next = (false, v) := rfl

/-- One case of the switch: the message, if the reads have failed. -/
def fieldCase (r : Bool × DecodeVars) (store : DecodeVars → DecodeVars) (msg : String) :
    Option Bytes × DecodeVars :=
  if r.1 then (none, store r.2) else (some (text msg), r.2)

/-- `switch ( tag )` -/
def switch (v : DecodeVars) : Option Bytes × DecodeVars :=
  if v.tag = kComparator then
    fieldCase v.readSlice
      (fun v => { v with edit := { v.edit with comparator := v.str, hasComparator := true } })
      "comparator name"
  else if v.tag = kLogNumber then
    fieldCase (v.readVarint64 fun v x => { v with edit := { v.edit with logNumber := x } })
      (fun v => { v with edit := { v.edit with hasLogNumber := true } }) "log number"
  else if v.tag = kPrevLogNumber then
    fieldCase (v.readVarint64 fun v x => { v with edit := { v.edit with prevLogNumber := x } })
      (fun v => { v with edit := { v.edit with hasPrevLogNumber := true } }) "previous log number"
  else if v.tag = kNextFileNumber then
    fieldCase (v.readVarint64 fun v x => { v with edit := { v.edit with nextFileNumber := x } })
      (fun v => { v with edit := { v.edit with hasNextFileNumber := true } }) "next file number"
  else if v.tag = kLastSequence then
    fieldCase (v.readVarint64 fun v x => { v with edit := { v.edit with lastSequence := x } })
      (fun v => { v with edit := { v.edit with hasLastSequence := true } }) "last sequence number"
  else if v.tag = kCompactPointer then
    fieldCase (andAlso v.readLevel (readVarint64 fun v x => { v with number := x }))
      (fun v => { v with
        edit := { v.edit with deletedFiles := insert (v.level, v.number) v.edit.deletedFiles } })
      "deleted file"
  else if v.tag = kNewFile then
    fieldCase (andAlso (andAlso (andAlso (andAlso v.readLevel (readVarint64 setFileNumber))
        (readVarint64 setFileSize)) (readInternalKey setSmallest)) (readInternalKey setLargest))
      (fun v => { v with edit := { v.edit with newFiles := v.edit.newFiles ++ [(v.level, v.f)] } })
      "new-file entry"
  else (some (text "unknown tag"), v)

/-- One turn of the loop, and what follows the loop. -/
def turn (v : DecodeVars) : Except Fault (DecodeVars ⊕ (Status × VersionEdit)) :=
  match getVarint32 v.input with
  | some (tag, input) =>
      match switch { v with tag := tag, input := input } with
      | (none, v) => .ok (.inl v)
      | (some msg, v) => .ok (.inr (.corruption (text "version_edit") msg, v.edit))
  | none =>
      if v.input.isEmpty then .ok (.inr (.ok, v.edit))
      else .ok (.inr (.corruption (text "version_edit") (text "invalid tag"), v.edit))

end DecodeVars

/-- `decode_from`, with all its variables. -/
def decodeFromVars (uninit : Uninit) (src : Bytes) : Except Fault (Status × VersionEdit) :=
  Loop.run .endless DecodeVars.turn (src.length + 1) (.start uninit src)

/-! ## Nothing is left over -/

namespace DecodeVars

/-- The fields of `f` that no read changes are as its constructor sets them. -/
def Fresh (v : DecodeVars) : Prop := v.f.refs = 0 ∧ v.f.allowedSeeks = 2 ^ 30

/-- A case of the switch does to the edit and the input what a field does. -/
def Agrees (v : DecodeVars) : Except Bytes (VersionEdit × Bytes) → Option Bytes × DecodeVars → Prop
  | .ok (e, input), s => s.1 = none ∧ s.2.edit = e ∧ s.2.input = input ∧ s.2.Fresh
  | .error msg, s => s.1 = some msg ∧ s.2.edit = v.edit

theorem takeSlice_some {v : DecodeVars} {str rest : Bytes}
    (h : getLengthPrefixedSlice v.input = some (str, rest)) :
    v.takeSlice = (some str, { v with input := rest }) := by
  unfold getLengthPrefixedSlice at h
  unfold takeSlice
  cases hlen : getVarint32 v.input with
  | none =>
      rw [hlen] at h
      cases h
  | some r =>
      rw [hlen] at h
      simp only at h ⊢
      split_ifs at h with hle
      cases h
      rw [if_pos hle]

theorem takeSlice_none {v : DecodeVars} (h : getLengthPrefixedSlice v.input = none) :
    ∃ rest, v.takeSlice = (none, { v with input := rest }) := by
  unfold getLengthPrefixedSlice at h
  unfold takeSlice
  cases hlen : getVarint32 v.input with
  | none => exact ⟨v.input, rfl⟩
  | some r =>
      rw [hlen] at h
      simp only at h ⊢
      split_ifs at h with hle
      exact ⟨r.2, if_neg hle⟩

theorem readLevel_some {v : DecodeVars} {level : Nat} {rest : Bytes}
    (h : getLevel v.input = some (level, rest)) :
    v.readLevel = (true, { v with input := rest, level := level }) := by
  unfold getLevel at h
  unfold readLevel
  cases hx : getVarint32 v.input with
  | none =>
      rw [hx] at h
      cases h
  | some r =>
      rw [hx] at h
      simp only at h ⊢
      split_ifs at h with hlt
      cases h
      rw [if_pos hlt]

theorem readLevel_none {v : DecodeVars} (h : getLevel v.input = none) :
    ∃ rest, v.readLevel = (false, { v with input := rest }) := by
  unfold getLevel at h
  unfold readLevel
  cases hx : getVarint32 v.input with
  | none => exact ⟨v.input, rfl⟩
  | some r =>
      rw [hx] at h
      simp only at h ⊢
      split_ifs at h with hlt
      exact ⟨r.2, if_neg hlt⟩

/-- A read of a key that fails changes nothing but the variable and the input. -/
theorem readInternalKey_none (set : DecodeVars → InternalKey → DecodeVars) {v : DecodeVars}
    (h : getInternalKey v.input = none) (hset : ∀ v key, (set v key).edit = v.edit) :
    ∃ v', v.readInternalKey set = (false, v') ∧ v'.edit = v.edit := by
  unfold getInternalKey at h
  unfold readInternalKey
  cases hstr : getLengthPrefixedSlice v.input with
  | none =>
      obtain ⟨rest, htake⟩ := takeSlice_none hstr
      rw [htake]
      exact ⟨_, rfl, rfl⟩
  | some r =>
      rw [takeSlice_some hstr]
      rw [hstr] at h
      simp only at h ⊢
      split_ifs at h with hne
      rw [Bool.eq_false_iff.mpr hne]
      exact ⟨_, rfl, hset _ _⟩

theorem readInternalKey_some {set : DecodeVars → InternalKey → DecodeVars} {v : DecodeVars}
    {key rest : Bytes} (h : getInternalKey v.input = some (key, rest)) :
    v.readInternalKey set = (true, set { v with input := rest } key) := by
  unfold getInternalKey at h
  unfold readInternalKey
  cases hstr : getLengthPrefixedSlice v.input with
  | none =>
      rw [hstr] at h
      cases h
  | some r =>
      rw [takeSlice_some hstr]
      rw [hstr] at h
      simp only at h ⊢
      split_ifs at h with hne
      cases h
      rw [hne]

theorem readVarint64_some {set : DecodeVars → U64 → DecodeVars} {v : DecodeVars} {x : U64} {rest : Bytes}
    (h : getVarint64 v.input = some (x, rest)) :
    v.readVarint64 set = (true, set { v with input := rest } x) := by
  rw [readVarint64, h]

theorem readVarint64_none {set : DecodeVars → U64 → DecodeVars} {v : DecodeVars}
    (h : getVarint64 v.input = none) : v.readVarint64 set = (false, v) := by
  rw [readVarint64, h]

/-- The case of a number. -/
theorem agrees_varint64 {v : DecodeVars} (hv : v.Fresh) {set : DecodeVars → U64 → DecodeVars}
    {store : DecodeVars → DecodeVars} {put : U64 → VersionEdit} {msg : String}
    (hput : ∀ x rest, (store (set { v with input := rest } x)).edit = put x)
    (hinput : ∀ x rest, (store (set { v with input := rest } x)).input = rest)
    (hf : ∀ x rest, (store (set { v with input := rest } x)).f = v.f) :
    v.Agrees (field (getVarint64 v.input) put msg) (fieldCase (v.readVarint64 set) store msg) := by
  cases hget : getVarint64 v.input with
  | none =>
      rw [readVarint64_none hget]
      exact ⟨rfl, rfl⟩
  | some r =>
      rw [readVarint64_some hget]
      refine ⟨rfl, hput _ _, hinput _ _, ?_⟩
      unfold Fresh
      rw [show ((fieldCase (true, set { v with input := r.2 } r.1) store msg).2).f = v.f from hf _ _]
      exact hv

/-- The case of a new file, which reads into `f` part by part. -/
theorem agrees_newFile {v : DecodeVars} (hv : v.Fresh) :
    v.Agrees (field (getNewFile v.input)
        (fun p => { v.edit with newFiles := v.edit.newFiles ++ [p] }) "new-file entry")
      (fieldCase (andAlso (andAlso (andAlso (andAlso v.readLevel (readVarint64 setFileNumber))
        (readVarint64 setFileSize)) (readInternalKey setSmallest)) (readInternalKey setLargest))
        (fun v => { v with edit := { v.edit with newFiles := v.edit.newFiles ++ [(v.level, v.f)] } })
        "new-file entry") := by
  unfold getNewFile
  cases hlevel : getLevel v.input with
  | none =>
      obtain ⟨rest, hread⟩ := readLevel_none hlevel
      rw [hread]
      exact ⟨rfl, rfl⟩
  | some r₁ =>
  rw [readLevel_some hlevel]
  set v₁ : DecodeVars := { v with input := r₁.2, level := r₁.1 } with hv₁
  simp only [andAlso_true, Option.bind_eq_bind, Option.bind_some]
  cases hnumber : getVarint64 r₁.2 with
  | none =>
      rw [readVarint64_none (show getVarint64 v₁.input = none from hnumber)]
      exact ⟨rfl, rfl⟩
  | some r₂ =>
  rw [readVarint64_some (show getVarint64 v₁.input = some r₂ from hnumber)]
  set v₂ := setFileNumber { v₁ with input := r₂.2 } r₂.1 with hv₂
  simp only [andAlso_true, Option.bind_some]
  cases hsize : getVarint64 r₂.2 with
  | none =>
      rw [readVarint64_none (show getVarint64 v₂.input = none from hsize)]
      exact ⟨rfl, rfl⟩
  | some r₃ =>
  rw [readVarint64_some (show getVarint64 v₂.input = some r₃ from hsize)]
  set v₃ := setFileSize { v₂ with input := r₃.2 } r₃.1 with hv₃
  simp only [andAlso_true, Option.bind_some]
  cases hsmallest : getInternalKey r₃.2 with
  | none =>
      obtain ⟨v', hread, hedit⟩ := readInternalKey_none setSmallest
        (show getInternalKey v₃.input = none from hsmallest) fun _ _ => rfl
      rw [hread]
      exact ⟨rfl, hedit⟩
  | some r₄ =>
  rw [readInternalKey_some (show getInternalKey v₃.input = some r₄ from hsmallest)]
  set v₄ := setSmallest { v₃ with input := r₄.2 } r₄.1 with hv₄
  simp only [andAlso_true, Option.bind_some]
  cases hlargest : getInternalKey r₄.2 with
  | none =>
      obtain ⟨v', hread, hedit⟩ := readInternalKey_none setLargest
        (show getInternalKey v₄.input = none from hlargest) fun _ _ => rfl
      rw [hread]
      exact ⟨rfl, hedit⟩
  | some r₅ =>
  rw [readInternalKey_some (show getInternalKey v₄.input = some r₅ from hlargest)]
  -- every part of `f` has been read anew
  have hf : (setLargest { v₄ with input := r₅.2 } r₅.1).f
      = { number := r₂.1, fileSize := r₃.1, smallest := r₄.1, largest := r₅.1 } := by
    obtain ⟨hrefs, hseeks⟩ := hv
    show FileMetaData.mk v.f.refs v.f.allowedSeeks r₂.1 r₃.1 r₄.1 r₅.1 = _
    rw [hrefs, hseeks]
  exact ⟨rfl, congrArg (fun f => { v.edit with newFiles := v.edit.newFiles ++ [(r₁.1, f)] }) hf, rfl, hv⟩

/-- Two switches with the same cases agree where the cases agree. -/
theorem agrees_ite {v : DecodeVars} {c : Prop} [Decidable c]
    {x x' : Except Bytes (VersionEdit × Bytes)} {y y' : Option Bytes × DecodeVars}
    (h : v.Agrees x y) (h' : v.Agrees x' y') :
    v.Agrees (if c then x else x') (if c then y else y') := by
  by_cases hc : c
  · rw [if_pos hc, if_pos hc]
    exact h
  · rw [if_neg hc, if_neg hc]
    exact h'

/-- **The switch** does what `decodeField` says, and no variable matters that an earlier field has
left. -/
theorem agrees_switch {v : DecodeVars} (hv : v.Fresh) :
    v.Agrees (decodeField v.edit v.tag v.input) v.switch := by
  unfold decodeField switch
  refine agrees_ite ?_ (agrees_ite ?_ (agrees_ite ?_ (agrees_ite ?_ (agrees_ite ?_
    (agrees_ite ?_ (agrees_ite ?_ ?_))))))
  · -- comparator name
    unfold readSlice
    cases hstr : getLengthPrefixedSlice v.input with
    | none =>
        obtain ⟨rest, htake⟩ := takeSlice_none hstr
        rw [htake]
        exact ⟨rfl, rfl⟩
    | some r =>
        rw [takeSlice_some hstr]
        exact ⟨rfl, rfl, rfl, hv⟩
  · exact agrees_varint64 hv (fun _ _ => rfl) (fun _ _ => rfl) fun _ _ => rfl
  · exact agrees_varint64 hv (fun _ _ => rfl) (fun _ _ => rfl) fun _ _ => rfl
  · exact agrees_varint64 hv (fun _ _ => rfl) (fun _ _ => rfl) fun _ _ => rfl
  · exact agrees_varint64 hv (fun _ _ => rfl) (fun _ _ => rfl) fun _ _ => rfl
  · -- deleted file
    unfold getDeletedFile
    cases hlevel : getLevel v.input with
    | none =>
        obtain ⟨rest, hread⟩ := readLevel_none hlevel
        rw [hread]
        exact ⟨rfl, rfl⟩
    | some r =>
        rw [readLevel_some hlevel]
        simp only [andAlso_true, readVarint64, Option.bind_eq_bind, Option.bind_some]
        cases hnumber : getVarint64 r.2 with
        | none => exact ⟨rfl, rfl⟩
        | some r' => exact ⟨rfl, rfl, rfl, hv⟩
  · exact agrees_newFile hv
  · exact ⟨rfl, rfl⟩

/-- A turn of the loop, with its variables and without them. -/
theorem turn_eq {v : DecodeVars} (hv : v.Fresh) :
    (∃ v', v'.Fresh ∧ v.turn = .ok (.inl v')
        ∧ decodeTurn (v.edit, v.input) = .ok (.inl (v'.edit, v'.input)))
      ∨ ∃ r, v.turn = .ok (.inr r) ∧ decodeTurn (v.edit, v.input) = .ok (.inr r) := by
  unfold turn decodeTurn
  cases hget : getVarint32 v.input with
  | none =>
      simp only
      split_ifs <;> exact .inr ⟨_, rfl, rfl⟩
  | some r =>
      simp only
      set v₀ : DecodeVars := { v with tag := r.1, input := r.2 } with hv₀
      have hagrees : v₀.Agrees (decodeField v.edit r.1 r.2) v₀.switch := agrees_switch hv
      rcases hswitch : v₀.switch with ⟨msg, v'⟩
      rw [hswitch] at hagrees
      cases hdecode : decodeField v.edit r.1 r.2 with
      | ok st =>
          rw [hdecode] at hagrees
          obtain ⟨rfl, hedit, hinput, hfresh⟩ := hagrees
          refine .inl ⟨v', hfresh, rfl, ?_⟩
          rw [show st = (v'.edit, v'.input) from Prod.ext hedit.symm hinput.symm]
      | error e =>
          rw [hdecode] at hagrees
          obtain ⟨rfl, hedit⟩ := hagrees
          refine .inr ⟨_, rfl, ?_⟩
          simp only at hedit ⊢
          rw [hedit]

end DecodeVars

/-- **No state leaks** from one field into another, or from before the call into the edit. -/
theorem decodeFromVars_eq (uninit : Uninit) (src : Bytes) :
    decodeFromVars uninit src = decodeFrom src := by
  have hrun : ∀ (n : Nat) (v : DecodeVars), v.Fresh →
      Loop.run .endless DecodeVars.turn n v = Loop.run .endless decodeTurn n (v.edit, v.input) := by
    intro n
    induction n with
    | zero => exact fun v _ => rfl
    | succ n ih =>
        intro v hv
        rcases DecodeVars.turn_eq hv with ⟨v', hv', hturn, hturn'⟩ | ⟨r, hturn, hturn'⟩
        · rw [Loop.run_inl _ hturn, Loop.run_inl _ hturn', ih v' hv']
        · rw [Loop.run_inr _ hturn, Loop.run_inr _ hturn']
  exact hrun _ _ ⟨rfl, rfl⟩

/-! ## Bytes behind a field -/

theorem getInternalKey_append {input rest : Bytes} {key : InternalKey}
    (h : getInternalKey input = some (key, rest)) (more : Bytes) :
    getInternalKey (input ++ more) = some (key, rest ++ more) := by
  unfold getInternalKey at h ⊢
  cases hstr : getLengthPrefixedSlice input with
  | none =>
      rw [hstr] at h
      cases h
  | some r =>
      rw [hstr] at h
      rw [getLengthPrefixedSlice_append hstr]
      simp only at h ⊢
      split_ifs at h ⊢
      cases h
      rfl

theorem getLevel_append {input rest : Bytes} {level : Nat}
    (h : getLevel input = some (level, rest)) (more : Bytes) :
    getLevel (input ++ more) = some (level, rest ++ more) := by
  unfold getLevel at h ⊢
  cases hx : getVarint32 input with
  | none =>
      rw [hx] at h
      cases h
  | some r =>
      rw [hx] at h
      rw [getVarint32_append hx]
      simp only at h ⊢
      split_ifs at h ⊢
      cases h
      rfl

theorem getDeletedFile_append {input rest : Bytes} {p : Nat × U64}
    (h : getDeletedFile input = some (p, rest)) (more : Bytes) :
    getDeletedFile (input ++ more) = some (p, rest ++ more) := by
  obtain ⟨⟨level, input₁⟩, hlevel, h⟩ := Option.bind_eq_some_iff.mp h
  obtain ⟨⟨number, input₂⟩, hnumber, h⟩ := Option.bind_eq_some_iff.mp h
  cases h
  unfold getDeletedFile
  simp only [getLevel_append hlevel, Option.bind_eq_bind, Option.bind_some, getVarint64_append hnumber]
  rfl

theorem getNewFile_append {input rest : Bytes} {p : Nat × FileMetaData}
    (h : getNewFile input = some (p, rest)) (more : Bytes) :
    getNewFile (input ++ more) = some (p, rest ++ more) := by
  obtain ⟨⟨level, input₁⟩, hlevel, h⟩ := Option.bind_eq_some_iff.mp h
  obtain ⟨⟨number, input₂⟩, hnumber, h⟩ := Option.bind_eq_some_iff.mp h
  obtain ⟨⟨size, input₃⟩, hsize, h⟩ := Option.bind_eq_some_iff.mp h
  obtain ⟨⟨smallest, input₄⟩, hsmallest, h⟩ := Option.bind_eq_some_iff.mp h
  obtain ⟨⟨largest, input₅⟩, hlargest, h⟩ := Option.bind_eq_some_iff.mp h
  cases h
  unfold getNewFile
  simp only [getLevel_append hlevel, Option.bind_eq_bind, Option.bind_some,
    getVarint64_append hnumber, getVarint64_append hsize, getInternalKey_append hsmallest,
    getInternalKey_append hlargest]
  rfl

theorem field_append {α : Type} {input more : Bytes} {get : Bytes → Option (α × Bytes)}
    {store : α → VersionEdit} {msg : String} {e : VersionEdit} {rest : Bytes}
    (happend : ∀ a rest, get input = some (a, rest) → get (input ++ more) = some (a, rest ++ more))
    (h : field (get input) store msg = .ok (e, rest)) :
    field (get (input ++ more)) store msg = .ok (e, rest ++ more) := by
  cases hget : get input with
  | none =>
      rw [hget] at h
      cases h
  | some r =>
      rw [hget] at h
      rw [happend _ _ hget]
      cases h
      rfl

theorem decodeField_append {e e' : VersionEdit} {tag : U32} {input rest : Bytes}
    (h : decodeField e tag input = .ok (e', rest)) (more : Bytes) :
    decodeField e tag (input ++ more) = .ok (e', rest ++ more) := by
  rcases decodeField_known h with rfl | rfl | rfl | rfl | rfl | rfl | rfl
  · rw [decodeField_comparator] at h ⊢
    exact field_append (fun _ _ hget => getLengthPrefixedSlice_append hget more) h
  · rw [decodeField_logNumber] at h ⊢
    exact field_append (fun _ _ hget => getVarint64_append hget more) h
  · rw [decodeField_prevLogNumber] at h ⊢
    exact field_append (fun _ _ hget => getVarint64_append hget more) h
  · rw [decodeField_nextFileNumber] at h ⊢
    exact field_append (fun _ _ hget => getVarint64_append hget more) h
  · rw [decodeField_lastSequence] at h ⊢
    exact field_append (fun _ _ hget => getVarint64_append hget more) h
  · rw [decodeField_compactPointer] at h ⊢
    exact field_append (fun _ _ hget => getDeletedFile_append hget more) h
  · rw [decodeField_newFile] at h ⊢
    exact field_append (fun _ _ hget => getNewFile_append hget more) h

/-- A turn that goes round again: a tag, and a field behind it. -/
theorem decodeTurn_inl_iff {st st' : VersionEdit × Bytes} :
    decodeTurn st = .ok (.inl st') ↔
      ∃ tag input, getVarint32 st.2 = some (tag, input) ∧ decodeField st.1 tag input = .ok st' := by
  unfold decodeTurn
  cases hget : getVarint32 st.2 with
  | none =>
      simp only
      split_ifs <;> simp
  | some r =>
      simp only
      cases hfield : decodeField st.1 r.1 r.2 with
      | ok st₁ =>
          constructor
          · intro h
            cases h
            exact ⟨r.1, r.2, rfl, hfield⟩
          · rintro ⟨tag, input, hr, hfield'⟩
            cases hr
            rw [hfield] at hfield'
            cases hfield'
            rfl
      | error msg =>
          constructor
          · intro h
            cases h
          · rintro ⟨tag, input, hr, hfield'⟩
            cases hr
            rw [hfield] at hfield'
            cases hfield'

theorem corruption_ne_ok (msg msg2 : Bytes) : Status.corruption msg msg2 ≠ .ok := by
  intro h
  have hok := congrArg Status.isOk h
  cases hok

/-- A turn that ends the loop with OK: nothing is left. -/
theorem decodeTurn_ok_iff {st : VersionEdit × Bytes} {e : VersionEdit} :
    decodeTurn st = .ok (.inr (.ok, e)) ↔ st = (e, []) := by
  obtain ⟨e', input⟩ := st
  unfold decodeTurn
  cases hget : getVarint32 input with
  | none =>
      cases input with
      | nil => simp
      | cons b input => simp [corruption_ne_ok]
  | some r =>
      have hne : input ≠ [] := by
        rintro rfl
        cases hget
      simp only
      cases hfield : decodeField e' r.1 r.2 with
      | ok st₁ => simp [hne]
      | error msg => simp [hne, corruption_ne_ok]

theorem decodeTurn_append {e e' : VersionEdit} {input rest : Bytes}
    (h : decodeTurn (e, input) = .ok (.inl (e', rest))) (more : Bytes) :
    decodeTurn (e, input ++ more) = .ok (.inl (e', rest ++ more)) := by
  obtain ⟨tag, input', hget, hfield⟩ := decodeTurn_inl_iff.mp h
  exact decodeTurn_inl_iff.mpr ⟨tag, input' ++ more, getVarint32_append hget more,
    decodeField_append hfield more⟩

/-- The loop on two records comes to the second one with the edit of the first. -/
theorem run_append {n m : Nat} {e e' : VersionEdit} {a b : Bytes} {r : Status × VersionEdit}
    (ha : Loop.run .endless decodeTurn (n + 1) (e, a) = .ok (.ok, e'))
    (hb : Loop.run .endless decodeTurn m (e', b) = .ok r) :
    Loop.run .endless decodeTurn (n + m) (e, a ++ b) = .ok r := by
  induction n generalizing e a with
  | zero =>
      rw [Loop.run] at ha
      cases hturn : decodeTurn (e, a) with
      | error err =>
          rw [hturn] at ha
          cases ha
      | ok out =>
          rw [hturn] at ha
          cases out with
          | inl st => cases ha
          | inr c =>
              cases ha
              cases decodeTurn_ok_iff.mp hturn
              rw [Nat.zero_add, List.nil_append]
              exact hb
  | succ n ih =>
      cases hturn : decodeTurn (e, a) with
      | error err =>
          rw [Loop.run_error _ hturn] at ha
          cases ha
      | ok out =>
          cases out with
          | inl st =>
              obtain ⟨e₁, a₁⟩ := st
              rw [Loop.run_inl _ hturn] at ha
              rw [Nat.add_right_comm, Loop.run_inl _ (decodeTurn_append hturn b)]
              exact ih ha
          | inr c =>
              rw [Loop.run_inr _ hturn] at ha
              cases ha
              cases decodeTurn_ok_iff.mp hturn
              rw [List.nil_append]
              exact Loop.run_mono _ hb (Nat.le_add_left _ _)

/-! ## Two edits in one -/

/-- What both edits say, the second after the first. -/
def merge (a b : VersionEdit) : VersionEdit where
  comparator := if b.hasComparator then b.comparator else a.comparator
  logNumber := if b.hasLogNumber then b.logNumber else a.logNumber
  prevLogNumber := if b.hasPrevLogNumber then b.prevLogNumber else a.prevLogNumber
  nextFileNumber := if b.hasNextFileNumber then b.nextFileNumber else a.nextFileNumber
  lastSequence := if b.hasLastSequence then b.lastSequence else a.lastSequence
  hasComparator := a.hasComparator || b.hasComparator
  hasLogNumber := a.hasLogNumber || b.hasLogNumber
  hasPrevLogNumber := a.hasPrevLogNumber || b.hasPrevLogNumber
  hasNextFileNumber := a.hasNextFileNumber || b.hasNextFileNumber
  hasLastSequence := a.hasLastSequence || b.hasLastSequence
  compactPointers := a.compactPointers ++ b.compactPointers
  deletedFiles := a.deletedFiles ∪ b.deletedFiles
  newFiles := a.newFiles ++ b.newFiles

@[simp] theorem merge_empty (a : VersionEdit) : a.merge {} = a := by
  simp [merge]

theorem merge_setComparatorName (a b : VersionEdit) (name : Bytes) :
    (a.merge b).setComparatorName name = a.merge (b.setComparatorName name) := by
  simp only [merge, setComparatorName, Bool.or_true, if_true]
  rfl

theorem merge_setLogNumber (a b : VersionEdit) (num : U64) :
    (a.merge b).setLogNumber num = a.merge (b.setLogNumber num) := by
  simp only [merge, setLogNumber, Bool.or_true, if_true]
  rfl

theorem merge_setPrevLogNumber (a b : VersionEdit) (num : U64) :
    (a.merge b).setPrevLogNumber num = a.merge (b.setPrevLogNumber num) := by
  simp only [merge, setPrevLogNumber, Bool.or_true, if_true]
  rfl

theorem merge_setNextFile (a b : VersionEdit) (num : U64) :
    (a.merge b).setNextFile num = a.merge (b.setNextFile num) := by
  simp only [merge, setNextFile, Bool.or_true, if_true]
  rfl

theorem merge_setLastSequence (a b : VersionEdit) (seq : U64) :
    (a.merge b).setLastSequence seq = a.merge (b.setLastSequence seq) := by
  simp only [merge, setLastSequence, Bool.or_true, if_true]
  rfl

theorem merge_insert_deletedFiles (a b : VersionEdit) (p : Nat × U64) :
    { a.merge b with deletedFiles := insert p (a.merge b).deletedFiles }
      = a.merge { b with deletedFiles := insert p b.deletedFiles } := by
  simp [merge]

theorem merge_append_newFiles (a b : VersionEdit) (p : Nat × FileMetaData) :
    { a.merge b with newFiles := (a.merge b).newFiles ++ [p] }
      = a.merge { b with newFiles := b.newFiles ++ [p] } := by
  simp [merge]

theorem field_merge {α : Type} (a : VersionEdit) {read : Option (α × Bytes)}
    {store store' : α → VersionEdit} (hstore : ∀ x, store' x = a.merge (store x)) {msg : String}
    {e : VersionEdit} {rest : Bytes} (h : field read store msg = .ok (e, rest)) :
    field read store' msg = .ok (a.merge e, rest) := by
  cases read with
  | none => cases h
  | some r =>
      cases h
      exact congrArg (fun e => Except.ok (e, r.2)) (hstore r.1)

theorem decodeField_merge (a : VersionEdit) {e e' : VersionEdit} {tag : U32} {input rest : Bytes}
    (h : decodeField e tag input = .ok (e', rest)) :
    decodeField (a.merge e) tag input = .ok (a.merge e', rest) := by
  rcases decodeField_known h with rfl | rfl | rfl | rfl | rfl | rfl | rfl
  · rw [decodeField_comparator] at h ⊢
    exact field_merge a (merge_setComparatorName a e) h
  · rw [decodeField_logNumber] at h ⊢
    exact field_merge a (merge_setLogNumber a e) h
  · rw [decodeField_prevLogNumber] at h ⊢
    exact field_merge a (merge_setPrevLogNumber a e) h
  · rw [decodeField_nextFileNumber] at h ⊢
    exact field_merge a (merge_setNextFile a e) h
  · rw [decodeField_lastSequence] at h ⊢
    exact field_merge a (merge_setLastSequence a e) h
  · rw [decodeField_compactPointer] at h ⊢
    exact field_merge a (merge_insert_deletedFiles a e) h
  · rw [decodeField_newFile] at h ⊢
    exact field_merge a (merge_append_newFiles a e) h

/-- The loop from an edit with something in it adds to it what it reads. -/
theorem run_merge (a : VersionEdit) {n : Nat} {e e' : VersionEdit} {input : Bytes}
    (h : Loop.run .endless decodeTurn n (e, input) = .ok (.ok, e')) :
    Loop.run .endless decodeTurn n (a.merge e, input) = .ok (.ok, a.merge e') := by
  refine (Loop.run_simulates Fault.endless (fun st : VersionEdit × Bytes => (a.merge st.1, st.2))
    (fun r : Status × VersionEdit => (r.1, a.merge r.2)) (fun _ => True) (fun r => r.1 = .ok) ?_ ?_
    n (e, input) (.ok, e') h rfl).2
  · intro st st' hturn _
    obtain ⟨tag, input', hget, hfield⟩ := decodeTurn_inl_iff.mp hturn
    exact ⟨trivial, decodeTurn_inl_iff.mpr ⟨tag, input', hget, decodeField_merge a hfield⟩⟩
  · rintro st ⟨s, e₁⟩ hturn rfl
    rw [decodeTurn_ok_iff.mp hturn]
    exact ⟨trivial, decodeTurn_ok_iff.mpr rfl⟩

theorem decodeFrom_append {a b : Bytes} {ea eb : VersionEdit} (ha : decodeFrom a = .ok (.ok, ea))
    (hb : decodeFrom b = .ok (.ok, eb)) : decodeFrom (a ++ b) = .ok (.ok, ea.merge eb) := by
  have hrun := run_merge ea hb
  rw [merge_empty] at hrun
  unfold decodeFrom
  rw [List.length_append, Nat.add_assoc]
  exact run_append ha hrun

/-- **Decoding is compositional**: the edit of two records one after the other is that of the first
with that of the second on top, whatever the variables hold at the start of a call. -/
theorem decodeFromVars_append {ua ub : Uninit} {a b : Bytes} {ea eb : VersionEdit}
    (ha : decodeFromVars ua a = .ok (.ok, ea)) (hb : decodeFromVars ub b = .ok (.ok, eb))
    (uninit : Uninit) : decodeFromVars uninit (a ++ b) = .ok (.ok, ea.merge eb) := by
  rw [decodeFromVars_eq] at ha hb ⊢
  exact decodeFrom_append ha hb

/-- A log number and a deleted file, and then another log number. -/
theorem decodeFromVars_append_logNumber :
    decodeFromVars {} ([2, 7, 5, 1, 3] ++ [2, 8])
      = .ok (.ok, { logNumber := 8, hasLogNumber := true, deletedFiles := {(1, 3)} }) := by
  have ha : decodeFromVars {} [2, 7, 5, 1, 3]
      = .ok (.ok, { logNumber := 7, hasLogNumber := true, deletedFiles := {(1, 3)} }) := by
    decide +kernel
  have hb : decodeFromVars {} [2, 8] = .ok (.ok, { logNumber := 8, hasLogNumber := true }) := by
    decide +kernel
  exact decodeFromVars_append ha hb {}

end SimpleLeveldb.VersionEdit
