import SimpleLeveldb.Log.Walk

set_option autoImplicit false

/-! # What the reader returns is in the file

Whatever bytes a file holds, `read_record` returns only records that the file holds: the payload
of a full physical record, or those of a first one, middle ones and a last one that follow each
other with nothing but block trailers between them.
-/

namespace SimpleLeveldb.Log

/-! ## The records of a file -/

/-- A physical record at a position of the file: it lies inside one block, and the checksum in its
header is that of its type and payload. -/
structure Physical (data : Bytes) (pos : Nat) (type : RecordType) (payload : Bytes) : Prop where
  bytes : (Fragment.mk type payload).encode <+: data.drop pos
  inBlock : pos % kBlockSize + kHeaderSize + payload.length ≤ kBlockSize

/-- From the end `e` of a physical record to the start `q` of another one there is nothing, or the
trailer of a block. -/
def Adjoins (e q : Nat) : Prop := q = e ∨ e < q ∧ q < e + kHeaderSize ∧ q % kBlockSize = 0

/-- A first physical record and middle ones, with the position behind them and their payloads. -/
inductive Started (data : Bytes) : Nat → Bytes → Prop
  | first {p : Nat} {x : Bytes} : Physical data p .kFirstType x →
      Started data (p + kHeaderSize + x.length) x
  | middle {e q : Nat} {s x : Bytes} : Started data e s → Adjoins e q →
      Physical data q .kMiddleType x → Started data (q + kHeaderSize + x.length) (s ++ x)

/-- The records of a file. -/
inductive IsRecord (data : Bytes) : Bytes → Prop
  | full {p : Nat} {x : Bytes} : Physical data p .kFullType x → IsRecord data x
  | fragmented {e q : Nat} {s x : Bytes} : Started data e s → Adjoins e q →
      Physical data q .kLastType x → IsRecord data (s ++ x)

/-! ## One step -/

/-- **A step that takes a physical record**: it is in the file, behind a trailer. -/
theorem step_record {data data' : Bytes} {pos pos' p : Nat} {type : Byte} {payload : Bytes}
    (h : step pos (data.drop pos) = some (.record p type payload, pos', data')) :
    Adjoins pos p ∧ pos' = p + kHeaderSize + payload.length
      ∧ physical type payload <+: data.drop p
      ∧ p % kBlockSize + kHeaderSize + payload.length ≤ kBlockSize := by
  obtain ⟨n, -, hparse, rfl, -⟩ := step_eq_some h
  obtain ⟨rfl, rfl, hle, htake⟩ := parse_eq_record hparse
  refine ⟨?_, (Nat.add_assoc _ _ _).symm, ?_, ?_⟩
  · have hstart := mod_start pos
    unfold padding start at *
    split_ifs at hstart ⊢ with ho
    · have : pos % kBlockSize < kBlockSize := Nat.mod_lt pos (by decide)
      exact .inr ⟨by omega, by omega, hstart⟩
    · exact .inl rfl
  · rw [← htake, ← List.drop_drop]
    exact (List.take_prefix _ _).trans (List.take_prefix _ _)
  · rw [mod_start]
    have := start_add_kHeaderSize_le (mod_le pos)
    rw [List.length_take] at hle
    omega

theorem step_physical {data data' : Bytes} {pos pos' p : Nat} {type : RecordType} {payload : Bytes}
    (h : step pos (data.drop pos) = some (.record p type.byte payload, pos', data')) :
    Adjoins pos p ∧ pos' = p + kHeaderSize + payload.length ∧ Physical data p type payload := by
  obtain ⟨hadj, hpos, hbytes, hblock⟩ := step_record h
  exact ⟨hadj, hpos, hbytes, hblock⟩

namespace Reader

/-- The record in progress is in the file, up to the position. -/
def InProgress (data : Bytes) (pos : Nat) (pending : Option Bytes) : Prop :=
  ∀ s, pending = some s → Started data pos s

theorem inProgress_none (data : Bytes) (pos : Nat) : InProgress data pos none := by
  intro s hs
  cases hs

/-- What `take` leaves is in the file: the record in progress, or the record returned. -/
def Held (data : Bytes) (pos : Nat) : Option Bytes ⊕ Option Bytes → Prop
  | .inl pending => InProgress data pos pending
  | .inr r => ∀ d, r = some d → IsRecord data d

/-- **One item**: it keeps the record in progress in the file, or completes a record of the
file. -/
theorem take_held {data data' : Bytes} {pos pos' : Nat} {i : Item} {pending : Option Bytes}
    (h : step pos (data.drop pos) = some (i, pos', data')) (hin : InProgress data pos pending) :
    Held data pos' (take pending i).1 := by
  cases i with
  | bad p cs => exact inProgress_none data pos'
  | record p type payload =>
      have hphysical : ∀ t : RecordType, type = t.byte → Adjoins pos p
          ∧ pos' = p + kHeaderSize + payload.length ∧ Physical data p t payload := by
        rintro t rfl
        exact step_physical h
      unfold take
      simp only
      split_ifs with h1 h2 h3 h4 h5 h6
      · obtain ⟨-, -, hfull⟩ := hphysical .kFullType h1
        rintro d hd
        cases hd
        exact .full hfull
      · obtain ⟨-, rfl, hfirst⟩ := hphysical .kFirstType h2
        rintro s hs
        cases hs
        exact .first hfirst
      · obtain ⟨hadj, rfl, hmiddle⟩ := hphysical .kMiddleType h3
        cases pending with
        | none => exact inProgress_none data _
        | some s =>
            rintro s' hs'
            cases hs'
            exact .middle (hin s rfl) hadj hmiddle
      · obtain ⟨hadj, rfl, hlast⟩ := hphysical .kLastType h4
        cases pending with
        | none => exact inProgress_none data _
        | some s =>
            rintro d hd
            cases hd
            exact .fragmented (hin s rfl) hadj hlast
      · rintro d hd
        cases hd
      · exact inProgress_none data pos'
      · exact inProgress_none data pos'

/-! ## Every call -/

/-- The record that a call returns, by induction on the items in front of it. -/
theorem isRecord_nextRecord {data rest : Bytes} {pos : Nat} {is : List Item}
    (hw : Walk pos rest is) (hrest : rest = data.drop pos) (pending : Option Bytes)
    (hin : InProgress data pos pending) {d : Bytes}
    (h : (nextRecord pending is).2.1 = some d) : IsRecord data d := by
  induction hw generalizing pending with
  | done => cases h
  | @item pos pos' rest rest' i is hs hw ih =>
      subst hrest
      have hheld := take_held hs hin
      rcases ht : take pending i with ⟨p | r, calls⟩
      · rw [ht] at hheld
        rw [nextRecord_inl ht] at h
        exact ih (step_drop hs) p hheld h
      · rw [ht] at hheld
        rw [nextRecord_inr ht] at h
        exact hheld d h

/-- The readers that calls of `read_record` lead to, whatever the calls return. -/
inductive Called (rd₀ : Reader) : Reader → Prop
  | start : Called rd₀ rd₀
  | call {rd rd' : Reader} {more : Bool} {d : Bytes} : Called rd₀ rd →
      rd.readRecord = .ok (more, d, rd') → Called rd₀ rd'

/-- After any calls the reader stands somewhere in the file. -/
theorem Called.stands {data : Bytes} {reporter : Option (List (Nat × Status))} {rd : Reader}
    (h : Called (Reader.new ⟨data, []⟩ reporter true 0) rd) :
    ∃ pos is, Stands pos (data.drop pos) rd ∧ Walk pos (data.drop pos) is := by
  induction h with
  | start => exact ⟨0, _, stands_new data reporter, walk_fileItems data⟩
  | call _ hread ih =>
      obtain ⟨pos, is, hstands, hw⟩ := ih
      obtain ⟨r, hread', hfollows⟩ := readRecord_walk hstands hw
      rw [hread] at hread'
      cases hread'
      obtain ⟨pos', hstands', hw'⟩ := hfollows.stands
      exact ⟨pos', _, hstands', hw'⟩

/-- **The reader is sound** on arbitrary files: every call of `read_record` returns, and a record
that it returns is one of the file. -/
theorem readRecord_sound (data : Bytes) (reporter : Option (List (Nat × Status))) (rd : Reader)
    (h : Called (Reader.new ⟨data, []⟩ reporter true 0) rd) :
    ∃ more d rd', rd.readRecord = .ok (more, d, rd') ∧ (more = true → IsRecord data d) := by
  obtain ⟨pos, is, hstands, hw⟩ := h.stands
  obtain ⟨⟨more, d, rd'⟩, hread, hfollows⟩ := readRecord_walk hstands hw
  refine ⟨more, d, rd', hread, fun hmore => ?_⟩
  have hsome : (nextRecord none is).2.1.isSome = true := hfollows.more.symm.trans hmore
  obtain ⟨d', hd'⟩ := Option.isSome_iff_exists.mp hsome
  have hd : d = d' := by
    have hrecord : d = (nextRecord none is).2.1.getD [] := hfollows.record
    rw [hrecord, hd', Option.getD_some]
  rw [hd]
  exact isRecord_nextRecord hw rfl none (inProgress_none data pos) hd'

/-- The first call on a file with one full record. -/
theorem readRecord_sound_first : ∃ more d rd',
    (Reader.new ⟨physical 1#8 (text "ab"), []⟩ (some []) true 0).readRecord = .ok (more, d, rd')
      ∧ (more = true → IsRecord (physical 1#8 (text "ab")) d) :=
  readRecord_sound (physical 1#8 (text "ab")) (some []) _ .start

end Reader

end SimpleLeveldb.Log
