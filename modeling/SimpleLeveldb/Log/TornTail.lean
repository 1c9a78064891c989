import SimpleLeveldb.Log.RoundTrip
import Mathlib.Order.Bounds.Basic

set_option autoImplicit false

/-! # A log cut off at any byte

`LogImage` is a file that follows the log format, whoever wrote it. However it is cut, the
reader gives back the records whose fragments are all there, and reports nothing.
-/

namespace SimpleLeveldb.Log

open Reader (assemble Clean Torn)

/-! ## Files that follow the format -/

/-- The fragments of one record: a full one, or a first one, middle ones and a last one. -/
inductive Pieces : Bytes → List Fragment → Prop
  | full (d : Bytes) : Pieces d [⟨.kFullType, d⟩]
  | split (a : Bytes) (ms : List Bytes) (z : Bytes) :
      Pieces (a ++ ms.flatten ++ z)
        (⟨.kFirstType, a⟩ :: (ms.map (Fragment.mk .kMiddleType) ++ [⟨.kLastType, z⟩]))

/-- A log file: the fragments of its records, laid out from the start of a block, and the part
of the last trailer that has been written. -/
structure LogImage where
  records : List Bytes
  pieces : List (List Fragment)
  trailer : Nat
  formed : List.Forall₂ Pieces records pieces
  fits : Fits 0 pieces.flatten
  trailer_le : trailer ≤ padding (endOffset 0 pieces.flatten)

def LogImage.bytes (log : LogImage) : Bytes := layout 0 log.pieces.flatten ++ zeros log.trailer

/-- The number of bytes up to the end of the first `m` records. -/
def LogImage.recordsEnd (log : LogImage) (m : Nat) : Nat :=
  (layout 0 (log.pieces.take m).flatten).length

/-! ## Cutting a layout -/

theorem length_layout_mono {o : Nat} {fs gs : List Fragment} (h : fs <+: gs) :
    (layout o fs).length ≤ (layout o gs).length := by
  obtain ⟨hs, rfl⟩ := h
  rw [layout_append, List.length_append]
  exact Nat.le_add_right _ _

/-- A layout cut after `n` bytes is the layout of the physical records that are complete, and
the torn beginning of the next one. -/
theorem cut_layout (fs : List Fragment) {o : Nat} (n : Nat) {k : Nat} (ho : o ≤ kBlockSize)
    (hfits : Fits o fs) (hk : k ≤ padding (endOffset o fs)) :
    ∃ gs hs tail, fs = gs ++ hs ∧ (layout o fs ++ zeros k).take n = layout o gs ++ tail
      ∧ Torn (endOffset o gs) tail ∧ (layout o gs).length ≤ n
      ∧ ∀ f hs', hs = f :: hs' → n < (layout o (gs ++ [f])).length := by
  induction fs generalizing o n with
  | nil =>
      refine ⟨[], [], (zeros k).take n, rfl, rfl, ⟨⟨.kFullType, []⟩, min n k, ?_, ?_, ?_⟩,
        Nat.zero_le _, by simp⟩
      · exact start_add_kHeaderSize_le ho
      · have : kHeaderSize = 7 := rfl
        simp only [endOffset_nil, Fragment.encode_length] at hk ⊢
        omega
      · rw [endOffset_nil] at hk ⊢
        have hmin : min n k ≤ padding o := by omega
        simp [zeros, List.take_append, List.take_replicate, hmin]
  | cons f fs ih =>
      obtain ⟨_, hfit, hfits'⟩ := hfits
      have hone : (layout o [f]).length = padding o + f.encode.length := by
        simp [layout]
      by_cases hn : n < padding o + f.encode.length
      · refine ⟨[], f :: fs, _, rfl, rfl, ⟨f, n, hfit, hn, ?_⟩, Nat.zero_le _, ?_⟩
        · rw [layout, List.append_assoc, List.take_append_of_le_length (by simp at hn ⊢; omega)]
          rfl
        · rintro f' hs' he
          obtain ⟨rfl, rfl⟩ := List.cons.inj he
          rw [List.nil_append, hone]
          exact hn
      · obtain ⟨gs, hs, tail, rfl, htake, htorn, hle, hlt⟩ :=
          ih (n - (padding o + f.encode.length)) hfit hfits' hk
        have hcons : ∀ xs, (layout o (f :: xs)).length
            = padding o + f.encode.length + (layout (next o f) xs).length := by
          intro xs
          rw [layout, List.length_append, List.length_append, zeros_length]
        refine ⟨f :: gs, hs, tail, rfl, ?_, htorn, by rw [hcons]; omega, ?_⟩
        · have hlen : (zeros (padding o) ++ f.encode).length = padding o + f.encode.length := by
            rw [List.length_append, zeros_length]
          rw [layout, List.append_assoc, List.take_append, List.take_of_length_le (by omega), hlen,
            htake, layout, List.append_assoc (zeros (padding o) ++ f.encode)]
        · intro f' hs' he
          have := hlt f' hs' he
          rw [List.cons_append, hcons]
          omega

/-! ## Cutting the fragments of records -/

theorem assemble_pieces {d : Bytes} {fs : List Fragment} (h : Pieces d fs) (gs : List Fragment) :
    assemble none (fs ++ gs) = d :: assemble none gs := by
  cases h with
  | full d => rfl
  | split a ms z =>
      rw [List.cons_append, List.append_assoc]
      show assemble (some a) _ = _
      rw [assemble_middle]
      rfl

theorem clean_middle (s : Bytes) (ps : List Bytes) (gs : List Fragment) :
    Clean (some s) (ps.map (Fragment.mk .kMiddleType) ++ gs) ↔ Clean (some (s ++ ps.flatten)) gs := by
  induction ps generalizing s with
  | nil => simp
  | cons p ps ih =>
      rw [List.map_cons, List.cons_append, List.flatten_cons, ← List.append_assoc, ← ih]
      exact and_iff_right (by simp [Reader.Expected])

theorem clean_pieces {d : Bytes} {fs : List Fragment} (h : Pieces d fs) (gs : List Fragment) :
    Clean none (fs ++ gs) ↔ Clean none gs := by
  cases h with
  | full d => exact and_iff_right rfl
  | split a ms z =>
      rw [List.cons_append, List.append_assoc]
      show _ ∧ Clean (some a) _ ↔ _
      rw [clean_middle]
      exact (and_iff_right rfl).trans (and_iff_right (by simp [Reader.Expected]))

/-- All fragments make up all records. -/
theorem assemble_flatten {ds : List Bytes} {fss : List (List Fragment)}
    (h : List.Forall₂ Pieces ds fss) : assemble none fss.flatten = ds := by
  induction h with
  | nil => rfl
  | cons hd _ ih => rw [List.flatten_cons, assemble_pieces hd, ih]

/-- The first fragments of a record, without its last one, make up no record. -/
theorem assemble_torn {d : Bytes} {gs : List Fragment} {f : Fragment} {hs : List Fragment}
    (h : Pieces d (gs ++ f :: hs)) : assemble none gs = [] ∧ Clean none gs := by
  generalize hfs : gs ++ f :: hs = fs at h
  cases h with
  | full d =>
      have hgs : gs = [] := by
        cases gs with
        | nil => rfl
        | cons g gs => simp at hfs
      subst hgs
      exact ⟨rfl, trivial⟩
  | split a ms z =>
      cases gs with
      | nil => exact ⟨rfl, trivial⟩
      | cons g gs =>
          obtain ⟨rfl, -⟩ := List.cons.inj hfs
          have hrest : gs ++ f :: hs
              = ms.map (Fragment.mk .kMiddleType) ++ [⟨.kLastType, z⟩] := (List.cons.inj hfs).2
          have hpre : gs <+: ms.map (Fragment.mk .kMiddleType) := by
            apply List.prefix_of_prefix_length_le (List.prefix_append gs (f :: hs))
            · rw [hrest]
              exact List.prefix_append _ _
            · have := congrArg List.length hrest
              simp at this
              simp
              omega
          obtain ⟨ps, hps⟩ : ∃ ps : List Bytes, gs = ps.map (Fragment.mk .kMiddleType) := by
            rw [List.prefix_iff_eq_take] at hpre
            exact ⟨ms.take gs.length, by rw [hpre, List.map_take]; simp⟩
          subst hps
          refine ⟨?_, rfl, ?_⟩
          · have := assemble_middle a ps []
            rw [List.append_nil] at this
            exact this
          · have := (clean_middle a ps []).mpr trivial
            rwa [List.append_nil] at this

/-- The fragments up to a cut make up the records that end before it. -/
theorem assemble_prefix {ds : List Bytes} {fss : List (List Fragment)}
    (h : List.Forall₂ Pieces ds fss) {gs hs : List Fragment} (hcut : fss.flatten = gs ++ hs) :
    ∃ m, m ≤ ds.length ∧ assemble none gs = ds.take m ∧ Clean none gs
      ∧ (fss.take m).flatten <+: gs
      ∧ (m < ds.length → ∃ f hs', hs = f :: hs' ∧ gs ++ [f] <+: (fss.take (m + 1)).flatten) := by
  induction h generalizing gs with
  | nil =>
      obtain ⟨rfl, rfl⟩ : gs = [] ∧ hs = [] := by simpa using hcut.symm
      exact ⟨0, le_refl _, rfl, trivial, List.prefix_refl _, fun h => absurd h (by simp)⟩
  | @cons d fs ds fss hd _ ih =>
      have hsplit : (∃ gs', gs = fs ++ gs' ∧ fss.flatten = gs' ++ hs)
          ∨ ∃ f c, fs = gs ++ f :: c ∧ hs = f :: c ++ fss.flatten := by
        rcases List.append_eq_append_iff.mp hcut with ⟨gs', h₁, h₂⟩ | ⟨c, h₁, h₂⟩
        · exact .inl ⟨gs', h₁, h₂⟩
        · cases c with
          | nil => exact .inl ⟨[], by simpa using h₁.symm, h₂.symm⟩
          | cons f c => exact .inr ⟨f, c, h₁, h₂⟩
      rcases hsplit with ⟨gs', rfl, hrest⟩ | ⟨f, c, rfl, rfl⟩
      · -- the first record is complete
        obtain ⟨m, hm, hasm, hclean, hpre, hlast⟩ := ih hrest
        refine ⟨m + 1, by simpa using hm, ?_, (clean_pieces hd gs').mpr hclean, ?_, ?_⟩
        · rw [assemble_pieces hd, hasm, List.take_succ_cons]
        · rw [List.take_succ_cons, List.flatten_cons]
          exact (List.prefix_append_right_inj fs).mpr hpre
        · intro hlt
          obtain ⟨f, hs', rfl, hp⟩ := hlast (by simpa using hlt)
          refine ⟨f, hs', rfl, ?_⟩
          rw [List.take_succ_cons, List.flatten_cons, List.append_assoc]
          exact (List.prefix_append_right_inj fs).mpr hp
      · -- the cut is in the first record
        obtain ⟨hasm, hclean⟩ := assemble_torn hd
        refine ⟨0, Nat.zero_le _, hasm, hclean, List.nil_prefix, fun _ => ⟨f, _, rfl, ?_⟩⟩
        simp

/-! ## Reading a log that was cut off -/

/-- **The reader tolerates a torn tail**: from a log cut after `n` bytes it returns exactly the
longest prefix of records that end by then, and reports nothing. -/
theorem readAll_cut (log : LogImage) (n : Nat) :
    ∃ m rd, IsGreatest {m | m ≤ log.records.length ∧ log.recordsEnd m ≤ n} m
      ∧ Reader.readAll (Reader.new ⟨log.bytes.take n, []⟩ (some []) true 0)
        = .ok (log.records.take m, rd)
      ∧ rd.reporter = some [] := by
  obtain ⟨gs, hs, tail, hcut, htake, htorn, hle, hlt⟩ :=
    cut_layout log.pieces.flatten n (Nat.zero_le _) log.fits log.trailer_le
  obtain ⟨m, hm, hasm, hclean, hpre, hlast⟩ := assemble_prefix log.formed hcut
  have hfits : Fits 0 gs := ((fits_append 0 gs hs).mp (hcut ▸ log.fits)).1
  obtain ⟨rd, hread, hrep⟩ := Reader.readAll_layout hfits htorn (some []) true
  refine ⟨m, rd, ⟨⟨hm, (length_layout_mono hpre).trans hle⟩, ?_⟩, ?_, hrep hclean⟩
  · rintro j ⟨hj, hjn⟩
    by_contra hmj
    obtain ⟨f, hs', rfl, hp⟩ := hlast (by omega)
    have htakes : (log.pieces.take (m + 1)).flatten <+: (log.pieces.take j).flatten :=
      (List.take_prefix_take_left (by omega)).flatten
    have hlen := length_layout_mono (o := 0) (hp.trans htakes)
    have := hlt f hs' rfl
    unfold LogImage.recordsEnd at hjn
    omega
  · rw [LogImage.bytes, htake, hread, hasm]

end SimpleLeveldb.Log
