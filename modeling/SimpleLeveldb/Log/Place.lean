import SimpleLeveldb.Log.Walk
import SimpleLeveldb.Log.TornTail

set_option autoImplicit false

/-! # Where the physical records of a log are

`place` gives the positions at which the physical records of a layout start. A walk through a log
in the format meets these, and nothing else; a walk through whatever bytes can be taken up at the
start of any block (`Walk.resume`).
-/

namespace SimpleLeveldb.Log

/-! ## Positions -/

/-- The position behind a physical record that is written from the position `pos` on. -/
def behind (pos : Nat) (f : Fragment) : Nat :=
  pos + padding (pos % kBlockSize) + (kHeaderSize + f.payload.length)

/-- The position behind physical records. -/
def advance (pos : Nat) (fs : List Fragment) : Nat := fs.foldl behind pos

/-- The physical records with the positions at which they start. -/
def place : Nat → List Fragment → List (Nat × Fragment)
  | _, [] => []
  | pos, f :: fs => (pos + padding (pos % kBlockSize), f) :: place (behind pos f) fs

/-- The same for the physical records of each record. -/
def placeAll : Nat → List (List Fragment) → List (List (Nat × Fragment))
  | _, [] => []
  | pos, fs :: fss => place pos fs :: placeAll (advance pos fs) fss

/-- What a walk meets at a physical record. -/
def toItem (x : Nat × Fragment) : Item := .record x.1 x.2.type.byte x.2.payload

@[simp] theorem advance_nil (pos : Nat) : advance pos [] = pos := rfl

@[simp] theorem advance_cons (pos : Nat) (f : Fragment) (fs : List Fragment) :
    advance pos (f :: fs) = advance (behind pos f) fs := rfl

theorem place_append (pos : Nat) (fs gs : List Fragment) :
    place pos (fs ++ gs) = place pos fs ++ place (advance pos fs) gs := by
  induction fs generalizing pos with
  | nil => rfl
  | cons f fs ih => rw [List.cons_append, place, ih, place, List.cons_append, advance_cons]

theorem flatten_placeAll (pos : Nat) (fss : List (List Fragment)) :
    (placeAll pos fss).flatten = place pos fss.flatten := by
  induction fss generalizing pos with
  | nil => rfl
  | cons fs fss ih => rw [placeAll, List.flatten_cons, ih, List.flatten_cons, place_append]

theorem length_placeAll (pos : Nat) (fss : List (List Fragment)) :
    (placeAll pos fss).length = fss.length := by
  induction fss generalizing pos with
  | nil => rfl
  | cons fs fss ih => exact congrArg (· + 1) (ih (advance pos fs))

@[simp] theorem map_snd_place (pos : Nat) (fs : List Fragment) :
    (place pos fs).map Prod.snd = fs := by
  induction fs generalizing pos with
  | nil => rfl
  | cons f fs ih => rw [place, List.map_cons, ih]

theorem map_payload_place (pos : Nat) (fs : List Fragment) :
    (place pos fs).map (fun x => x.2.payload) = fs.map Fragment.payload := by
  rw [← map_snd_place pos fs, List.map_map, map_snd_place]
  rfl

/-- Physical records start at or behind the position from which they are written, and end before
the position behind them all. -/
theorem mem_place {pos : Nat} {fs : List Fragment} {x : Nat × Fragment} (hx : x ∈ place pos fs) :
    pos ≤ x.1 ∧ x.1 + kHeaderSize ≤ advance pos fs := by
  induction fs generalizing pos with
  | nil => cases hx
  | cons f fs ih =>
      have hle : ∀ (fs : List Fragment) (pos : Nat), pos ≤ advance pos fs := by
        intro fs
        induction fs with
        | nil => exact fun _ => le_rfl
        | cons f fs ih => exact fun pos => le_trans (by unfold behind; omega) (ih (behind pos f))
      rw [advance_cons]
      rcases List.mem_cons.mp hx with rfl | hx
      · refine ⟨Nat.le_add_right _ _, le_trans ?_ (hle fs (behind pos f))⟩
        unfold behind
        omega
      · obtain ⟨h₁, h₂⟩ := ih hx
        refine ⟨le_trans ?_ h₁, h₂⟩
        unfold behind
        omega

/-! ## Positions and offsets in blocks -/

/-- `o` is the offset of a position in its block; the end of a block counts as well. -/
def Offset (o pos : Nat) : Prop := o = pos % kBlockSize ∨ o = kBlockSize ∧ pos % kBlockSize = 0

theorem Offset.eq {o pos : Nat} (h : Offset o pos) :
    padding o = padding (pos % kBlockSize) ∧ start o = start (pos % kBlockSize) := by
  rcases h with rfl | ⟨rfl, hpos⟩
  · exact ⟨rfl, rfl⟩
  · rw [hpos]
    exact ⟨rfl, rfl⟩

theorem offset_behind {o pos : Nat} {f : Fragment} (h : Offset o pos)
    (hfit : next o f ≤ kBlockSize) : Offset (next o f) (behind pos f) := by
  unfold next at *
  unfold behind
  rw [h.eq.2, Nat.add_assoc] at hfit ⊢
  exact mod_behind hfit

theorem length_layout {o pos : Nat} {fs : List Fragment} (h : Offset o pos) (hfits : Fits o fs) :
    pos + (layout o fs).length = advance pos fs := by
  induction fs generalizing o pos with
  | nil => rfl
  | cons f fs ih =>
      have hnext := ih (offset_behind h hfits.2.1) hfits.2.2
      rw [advance_cons, ← hnext, layout, List.length_append, List.length_append, zeros_length,
        Fragment.encode_length, h.eq.1, behind]
      omega

theorem offset_advance {o pos : Nat} {fs : List Fragment} (h : Offset o pos) (hfits : Fits o fs) :
    Offset (endOffset o fs) (advance pos fs) := by
  induction fs generalizing o pos with
  | nil => exact h
  | cons f fs ih => exact ih (offset_behind h hfits.2.1) hfits.2.2

/-! ## Walking through a layout -/

theorem byte_ne_zero {t : RecordType} (h : t ≠ .kZeroType) : t.byte ≠ 0#8 := by
  cases t with
  | kZeroType => exact absurd rfl h
  | _ => decide

/-- **A walk through a layout** meets its physical records. -/
theorem walk_layout {o pos : Nat} {fs : List Fragment} {rest : Bytes} {js : List Item}
    (h : Offset o pos) (hfits : Fits o fs) (hw : Walk (advance pos fs) rest js) :
    Walk pos (layout o fs ++ rest) ((place pos fs).map toItem ++ js) := by
  induction fs generalizing o pos with
  | nil => exact hw
  | cons f fs ih =>
      obtain ⟨htype, hfit, hfits'⟩ := hfits
      have htrailer : (zeros (padding o)).length = padding (pos % kBlockSize) := by
        rw [zeros_length, h.eq.1]
      have hroom : start (pos % kBlockSize) + kHeaderSize + f.payload.length ≤ kBlockSize := by
        rw [← h.eq.2]
        exact hfit
      have hstep := step_physical_append pos (layout (next o f) fs ++ rest)
        (fun hz : f.type.byte = 0#8 ∧ f.payload.length = 0 => byte_ne_zero htype hz.1) hroom htrailer
      rw [layout, List.append_assoc (zeros (padding o) ++ f.encode), encode_eq_physical]
      exact .item hstep (ih (offset_behind h hfit) hfits' hw)

/-- The trailer of a block is the end of a walk. -/
theorem step_zeros {pos n : Nat} (h : n ≤ padding (pos % kBlockSize)) : step pos (zeros n) = none := by
  unfold step
  simp only
  rw [if_pos]
  rw [zeros_length]
  have : kHeaderSize = 7 := rfl
  omega

theorem LogImage.walk (log : LogImage) :
    Walk 0 log.bytes ((place 0 log.pieces.flatten).map toItem) := by
  have hoffset : Offset 0 0 := .inl rfl
  have hend := offset_advance hoffset log.fits
  have hw : Walk (advance 0 log.pieces.flatten) (zeros log.trailer) [] := by
    refine .done (step_zeros ?_)
    rw [← hend.eq.1]
    exact log.trailer_le
  have := walk_layout hoffset log.fits hw
  rwa [List.append_nil] at this

/-! ## Taking up a walk at the start of a block -/

/-- A step skips the trailer of a block first. -/
theorem step_skip (whole : Bytes) (pos : Nat) :
    step (pos + padding (pos % kBlockSize)) (whole.drop (pos + padding (pos % kBlockSize)))
      = step pos (whole.drop pos) := by
  obtain ⟨hpad, hstart⟩ := padding_start (pos % kBlockSize) (mod_le pos)
  unfold step
  simp only [mod_start, hpad, hstart, List.drop_zero, Nat.zero_add, Nat.add_zero]
  rw [← List.drop_drop]
  have hlen : ((whole.drop pos).drop (padding (pos % kBlockSize))).length < kHeaderSize
      ↔ (whole.drop pos).length < padding (pos % kBlockSize) + kHeaderSize := by
    have : kHeaderSize = 7 := rfl
    rw [List.length_drop]
    omega
  by_cases hshort : (whole.drop pos).length < padding (pos % kBlockSize) + kHeaderSize
  · rw [if_pos hshort, if_pos (hlen.mpr hshort)]
  · rw [if_neg hshort, if_neg (fun h => hshort (hlen.mp h))]

/-- The position of an item. -/
def Item.pos : Item → Nat
  | .record pos _ _ => pos
  | .bad pos _ => pos

/-- What is parsed is where it was looked for. -/
theorem parse_pos {pos n : Nat} {b : Bytes} {last : Bool} {i : Item}
    (h : parse pos b last = some (i, n)) : i.pos = pos := by
  unfold parse at h
  split_ifs at h with hlen hlast hzero hcrc
  · cases h
    rfl
  · cases h
    rfl
  · cases h
    rfl
  · cases h
    rfl

/-- Nothing straddles a block: an item ends before the next block does. -/
theorem step_block {pos pos' : Nat} {data data' : Bytes} {i : Item}
    (h : step pos data = some (i, pos', data')) :
    i.pos = pos + padding (pos % kBlockSize)
      ∧ ∀ e, e % kBlockSize = 0 → i.pos < e → pos' ≤ e := by
  obtain ⟨n, hlen, hparse, rfl, -⟩ := step_eq_some h
  have hpos := parse_pos hparse
  refine ⟨hpos, ?_⟩
  intro e he hlt
  rw [hpos] at hlt
  have hsize := (parse_size hparse (block_length (mod_le pos) hlen)).2
  rw [List.length_take] at hsize
  have hmod := mod_start pos
  have hroom : n ≤ kBlockSize - start (pos % kBlockSize) := by omega
  rw [← hmod] at hroom
  set q := pos + padding (pos % kBlockSize) with hq
  simp only [kBlockSize] at he hroom
  omega

/-- Where no item is found, the file ends in the block. -/
theorem length_of_step_none {whole : Bytes} {pos e : Nat} (h : step pos (whole.drop pos) = none)
    (he : e % kBlockSize = 0) (hlt : pos + padding (pos % kBlockSize) < e) : whole.length ≤ e := by
  have hmod := mod_start pos
  have hroom := start_add_kHeaderSize_le (mod_le pos)
  rw [← hmod] at hroom
  set q := pos + padding (pos % kBlockSize) with hq
  have hblock : q + (kBlockSize - q % kBlockSize) ≤ e := by
    simp only [kBlockSize] at he ⊢
    omega
  by_contra hlong
  unfold step at h
  simp only at h
  rw [if_neg, Option.map_eq_none_iff] at h
  · have hlast : ¬ ((whole.drop pos).drop (padding (pos % kBlockSize))).length
        < kBlockSize - start (pos % kBlockSize) := by
      rw [List.length_drop, List.length_drop, ← hmod]
      omega
    rw [decide_eq_false hlast] at h
    unfold parse at h
    split_ifs at h with hlen hfalse
    exact hfalse.elim
  · rw [List.length_drop]
    omega

/-- The position of an item is not behind the start of a block that is still in front of the
reader, or is this start. -/
theorem block_cases {pos e : Nat} (he : e % kBlockSize = 0) (hle : pos ≤ e) :
    pos + padding (pos % kBlockSize) < e ∨ pos + padding (pos % kBlockSize) = e := by
  by_cases ho : kBlockSize - pos % kBlockSize < kHeaderSize
  · rw [(Reader.padding_of_lt ho).1]
    simp only [kBlockSize, kHeaderSize] at *
    omega
  · rw [(Reader.padding_of_ge ho).1]
    omega

/-- A walk goes forward. -/
theorem Walk.pos_le {pos : Nat} {data : Bytes} {is : List Item} (hw : Walk pos data is) :
    ∀ i ∈ is, pos ≤ i.pos := by
  induction hw with
  | done => simp
  | @item pos pos' data data' i is hs _ ih =>
      obtain ⟨hpos, -⟩ := step_block hs
      obtain ⟨n, -, -, rfl, -⟩ := step_eq_some hs
      refine List.forall_mem_cons.mpr ⟨by omega, fun j hj => ?_⟩
      have := ih j hj
      omega

/-- **Resynchronisation**: a walk through whatever bytes can be taken up at the start of a block,
and meets there what it would have met. -/
theorem Walk.resume {whole rest : Bytes} {pos : Nat} {is : List Item} (hw : Walk pos rest is)
    (hrest : rest = whole.drop pos) {e : Nat} (he : e % kBlockSize = 0) (hle : pos ≤ e) :
    ∃ pre post, is = pre ++ post ∧ Walk e (whole.drop e) post
      ∧ (∀ i ∈ pre, i.pos < e) ∧ ∀ i ∈ post, e ≤ i.pos := by
  induction hw with
  | @done pos rest hs =>
      subst hrest
      refine ⟨[], [], rfl, .done ?_, by simp, by simp⟩
      rcases block_cases he hle with hlt | rfl
      · rw [List.drop_eq_nil_of_le (length_of_step_none hs he hlt)]
        exact step_nil e
      · rw [step_skip]
        exact hs
  | @item pos pos' rest rest' i is hs hw ih =>
      subst hrest
      obtain ⟨hpos, hblock⟩ := step_block hs
      obtain rfl := step_drop hs
      rcases block_cases he hle with hlt | rfl
      · rw [← hpos] at hlt
        obtain ⟨pre, post, rfl, hpost, hpre, hle'⟩ := ih rfl (hblock e he hlt)
        exact ⟨i :: pre, post, rfl, hpost, List.forall_mem_cons.mpr ⟨hlt, hpre⟩, hle'⟩
      · have hs' : step (pos + padding (pos % kBlockSize))
            (whole.drop (pos + padding (pos % kBlockSize))) = some (i, pos', whole.drop pos') := by
          rw [step_skip]
          exact hs
        exact ⟨[], i :: is, rfl, .item hs' hw, by simp, (Walk.item hs' hw).pos_le⟩

end SimpleLeveldb.Log
