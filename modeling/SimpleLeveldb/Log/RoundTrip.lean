import SimpleLeveldb.Log.Reading
import SimpleLeveldb.Log.Writer

set_option autoImplicit false

/-! # The log round trip

What `add_record` writes for a list of records and `read_record` gives back. A record that
fits into the block the writer stands in comes back; a longer one is written as a first
fragment and middle ones, and since no last fragment follows, it never does.
-/

namespace SimpleLeveldb.Log

/-- Write records one after the other, as long as the status is ok. -/
def Writer.addRecords (w : Writer) : List Bytes → Env → Except Fault (Status × Writer × Env)
  | [], env => .ok (.ok, w, env)
  | r :: rs, env => do
      let (s, w, env) ← w.addRecord r env
      if s.isOk then w.addRecords rs env else return (s, w, env)

/-- The records `rs`, written to the file `fname`, come back: all in order, then `false`, and
no call of the reporter. -/
def RoundTrips (uninit : U32) (fname : Bytes) (env : Env) (rs : List Bytes) : Prop :=
  ∃ w env' file env'' rd, (Writer.new fname uninit).addRecords rs env = .ok (.ok, w, env')
    ∧ env'.newSequentialFile fname = (.ok, file, env'')
    ∧ Reader.readAll (Reader.new file (some []) true 0) = .ok (rs, rd)
    ∧ rd.reporter = some []

/-! ## What is written -/

/-- The physical records of a list of records, cut one after the other. -/
inductive CutAll : Nat → List Bytes → List Fragment → Prop
  | nil (o : Nat) : CutAll o [] []
  | cons {o : Nat} {r : Bytes} {rs : List Bytes} {fs gs : List Fragment} :
      Writer.Cut o r fs → CutAll (endOffset o fs) rs gs → CutAll o (r :: rs) (fs ++ gs)

theorem Writer.addRecords_spec (uninit : U32) (rs : List Bytes) (w : Writer) (env : Env)
    (hw : w.typeCrc = initTypeCrc uninit) (ho : w.blockOffset ≤ kBlockSize) (henv : env.AllOk) :
    ∃ fs w' env', w.addRecords rs env = .ok (.ok, w', env') ∧ CutAll w.blockOffset rs fs
      ∧ Wrote w fs env w' env' := by
  induction rs generalizing w env with
  | nil => exact ⟨[], w, env, rfl, .nil _, ⟨Env.Appended.refl henv _, trivial, rfl⟩⟩
  | cons r rs ih =>
      obtain ⟨fs, w₁, env₁, hadd, hcut, hwrote⟩ := w.addRecord_spec hw ho henv r
      have hw₁ := hwrote.writer
      obtain ⟨gs, w₂, env₂, hadds, hcuts, hwrote₂⟩ := ih w₁ env₁ (by rw [hw₁]; exact hw)
        (by rw [hw₁]; exact endOffset_le ho hwrote.fits) hwrote.appended.allOk
      refine ⟨fs ++ gs, w₂, env₂, ?_, ?_, hwrote.trans hwrote₂⟩
      · rw [addRecords, hadd]
        exact hadds
      · rw [hw₁] at hcuts
        exact .cons hcut hcuts

/-! ## What comes back -/

/-- Every record fits into the block that it starts in, behind a header. -/
def AllFit : Nat → List Bytes → Prop
  | _, [] => True
  | o, r :: rs =>
      start o + kHeaderSize + r.length ≤ kBlockSize ∧ AllFit (start o + kHeaderSize + r.length) rs

instance decidableAllFit : ∀ (o : Nat) (rs : List Bytes), Decidable (AllFit o rs)
  | _, [] => inferInstanceAs (Decidable True)
  | o, r :: rs =>
      have := decidableAllFit (start o + kHeaderSize + r.length) rs
      inferInstanceAs (Decidable (_ ∧ _))

open Reader (assemble Clean)

theorem assemble_middle (s : Bytes) (ps : List Bytes) (gs : List Fragment) :
    assemble (some s) (ps.map (Fragment.mk .kMiddleType) ++ gs)
      = assemble (some (s ++ ps.flatten)) gs := by
  induction ps generalizing s with
  | nil => simp
  | cons p ps ih =>
      rw [List.map_cons, List.cons_append, List.flatten_cons, ← List.append_assoc, ← ih]
      rfl

/-- A record that does not fit is lost: it stays in progress. -/
theorem assemble_cut {o : Nat} {r : Bytes} {fs : List Fragment} (h : Writer.Cut o r fs)
    (pending : Option Bytes) (gs : List Fragment) :
    (r.length ≤ Writer.avail o ∧ fs = [⟨.kFullType, r⟩]
        ∧ assemble pending (fs ++ gs) = r :: assemble none gs)
      ∨ (Writer.avail o < r.length ∧ ∃ s, assemble pending (fs ++ gs) = assemble (some s) gs) := by
  rcases h with ⟨hlen, rfl⟩ | ⟨hlen, ps, _, _, rfl⟩
  · exact .inl ⟨hlen, rfl, rfl⟩
  · exact .inr ⟨hlen, _, assemble_middle _ ps gs⟩

theorem fits_iff_avail {o : Nat} (ho : o ≤ kBlockSize) (r : Bytes) :
    start o + kHeaderSize + r.length ≤ kBlockSize ↔ r.length ≤ Writer.avail o := by
  have := start_add_kHeaderSize_le ho
  unfold Writer.avail
  omega

/-- When every record fits, each becomes one physical record. -/
theorem cutAll_of_allFit {rs : List Bytes} {o : Nat} {fs : List Fragment} (h : CutAll o rs fs)
    (ho : o ≤ kBlockSize) (hfit : AllFit o rs) : assemble none fs = rs ∧ Clean none fs := by
  induction h with
  | nil o => exact ⟨rfl, trivial⟩
  | @cons o r rs fs gs hcut _ ih =>
      have hr := (fits_iff_avail ho r).mp hfit.1
      rcases assemble_cut hcut none gs with ⟨_, rfl, hasm⟩ | ⟨hlt, _⟩
      · obtain ⟨h₁, h₂⟩ := ih hfit.1 hfit.2
        exact ⟨by rw [hasm, h₁], rfl, h₂⟩
      · omega

/-- No more records come back than were written, and as many only if every one fits. -/
theorem length_assemble_le {rs : List Bytes} {o : Nat} {fs : List Fragment} (h : CutAll o rs fs)
    (ho : o ≤ kBlockSize) (hfits : Fits o fs) (pending : Option Bytes) :
    (assemble pending fs).length ≤ rs.length
      ∧ ((assemble pending fs).length = rs.length → AllFit o rs) := by
  induction h generalizing pending with
  | nil o => exact ⟨Nat.zero_le _, fun _ => trivial⟩
  | @cons o r rs fs gs hcut _ ih =>
      obtain ⟨hf₁, hf₂⟩ := (fits_append o fs gs).mp hfits
      have ho' := endOffset_le ho hf₁
      rcases assemble_cut hcut pending gs with ⟨hlen, rfl, hasm⟩ | ⟨_, s, hasm⟩
      · obtain ⟨h₁, h₂⟩ := ih ho' hf₂ none
        rw [hasm]
        refine ⟨by simpa using h₁, fun he => ⟨(fits_iff_avail ho r).mpr hlen, h₂ (by simpa using he)⟩⟩
      · obtain ⟨h₁, _⟩ := ih ho' hf₂ (some s)
        rw [hasm, List.length_cons]
        exact ⟨by omega, fun he => by omega⟩

/-! ## The round trip -/

/-- Nothing is torn behind what was written. -/
theorem torn_nil {o : Nat} (ho : o ≤ kBlockSize) : Reader.Torn o [] :=
  ⟨⟨.kFullType, []⟩, 0, by simpa [next] using start_add_kHeaderSize_le ho,
    by simp [kHeaderSize], by simp⟩

/-- **What writing and reading gives**: the records that the written fragments make up. -/
theorem readAll_addRecords {fname : Bytes} {env : Env} (henv : env.AllOk)
    (hfile : env.files.lookup fname = some { data := [] }) (uninit : U32) (rs : List Bytes) :
    ∃ fs w env' file env'' rd, CutAll 0 rs fs ∧ Fits 0 fs
      ∧ (Writer.new fname uninit).addRecords rs env = .ok (.ok, w, env')
      ∧ env'.newSequentialFile fname = (.ok, file, env'')
      ∧ Reader.readAll (Reader.new file (some []) true 0) = .ok (assemble none fs, rd)
      ∧ (Clean none fs → rd.reporter = some []) := by
  obtain ⟨fs, w, env', hadd, hcut, hwrote⟩ := Writer.addRecords_spec uninit rs
    (Writer.new fname uninit) env rfl (Nat.zero_le _) henv
  have hfits : Fits 0 fs := hwrote.fits
  have hlook := hwrote.appended.file
  rw [show (Writer.new fname uninit).dest = fname from rfl, hfile, Option.map_some] at hlook
  have hopen := Env.newSequentialFile_of_allOk hwrote.appended.allOk hlook
  have htorn := torn_nil (endOffset_le (Nat.zero_le _) hfits)
  obtain ⟨rd, hread, hrep⟩ := Reader.readAll_layout hfits htorn (some []) true
  refine ⟨fs, w, env', _, _, rd, hcut, hfits, hadd, hopen, ?_, hrep⟩
  rwa [List.append_nil] at hread

theorem roundTrips_of_allFit {fname : Bytes} {env : Env} (henv : env.AllOk)
    (hfile : env.files.lookup fname = some { data := [] }) (uninit : U32) {rs : List Bytes}
    (h : AllFit 0 rs) : RoundTrips uninit fname env rs := by
  obtain ⟨fs, w, env', file, env'', rd, hcut, _, hadd, hopen, hread, hrep⟩ :=
    readAll_addRecords henv hfile uninit rs
  obtain ⟨hasm, hclean⟩ := cutAll_of_allFit hcut (Nat.zero_le _) h
  exact ⟨w, env', file, env'', rd, hadd, hopen, hasm ▸ hread, hrep hclean⟩

theorem allFit_of_roundTrips {fname : Bytes} {env : Env} (henv : env.AllOk)
    (hfile : env.files.lookup fname = some { data := [] }) (uninit : U32) {rs : List Bytes}
    (h : RoundTrips uninit fname env rs) : AllFit 0 rs := by
  obtain ⟨fs, w, env', file, env'', rd, hcut, hfits, hadd, hopen, hread, _⟩ :=
    readAll_addRecords henv hfile uninit rs
  obtain ⟨w₁, env₁, file₁, env₂, rd₁, hadd₁, hopen₁, hread₁, _⟩ := h
  rw [hadd] at hadd₁
  obtain ⟨-, rfl, rfl⟩ : (.ok : Status) = .ok ∧ w = w₁ ∧ env' = env₁ := by simpa using hadd₁
  rw [hopen] at hopen₁
  obtain ⟨rfl, -⟩ : file = file₁ ∧ env'' = env₂ := by simpa using hopen₁
  rw [hread] at hread₁
  obtain ⟨hrs, -⟩ : assemble none fs = rs ∧ rd = rd₁ := by simpa using hread₁
  exact (length_assemble_le hcut (Nat.zero_le _) hfits none).2 (congrArg List.length hrs)

/-- **The log round trip** holds for the records that all fit into their blocks, and for no
others: the first record that does not fit is never read back. -/
theorem roundTrips_iff {fname : Bytes} {env : Env} (henv : env.AllOk)
    (hfile : env.files.lookup fname = some { data := [] }) (uninit : U32) (rs : List Bytes) :
    RoundTrips uninit fname env rs ↔ AllFit 0 rs :=
  ⟨allFit_of_roundTrips henv hfile uninit, roundTrips_of_allFit henv hfile uninit⟩

/-- An environment with one empty file. -/
def emptyFileEnv (fname : Bytes) : Env where
  files := AList.insert fname { data := [] } ∅

theorem roundTrips_two : RoundTrips 0 (text "log") (emptyFileEnv (text "log"))
    [text "first", []] :=
  (roundTrips_iff (by simp [Env.AllOk, emptyFileEnv]) (AList.lookup_insert _) 0 _).mpr
    (by decide)

/-- A record of 40000 bytes, alone in the file, does not come back. -/
theorem not_roundTrips_long :
    ¬ RoundTrips 0 (text "log") (emptyFileEnv (text "log")) [zeros 40000] := by
  intro h
  have hfit := allFit_of_roundTrips (by simp [Env.AllOk, emptyFileEnv])
    (AList.lookup_insert _) 0 h
  have : start 0 + kHeaderSize + (zeros 40000).length ≤ kBlockSize := hfit.1
  rw [zeros_length] at this
  exact absurd this (by decide)

end SimpleLeveldb.Log
