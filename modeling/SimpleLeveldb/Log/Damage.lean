import SimpleLeveldb.Log.Place

set_option autoImplicit false

/-! # Corruption stays inside its block

When the bytes of a block are replaced from the start of a physical record on, and the reader's
test fails there, it loses the records with a physical record in the part of the block that was
replaced, and no others.
-/

namespace SimpleLeveldb.Log

open Reader (assemble absorb)

/-! ## The records that are spared -/

/-- The type of a physical record that goes on with a record. -/
def Continues (f : Fragment) : Prop := f.type = .kMiddleType ∨ f.type = .kLastType

theorem Pieces.continues {d : Bytes} {f : Fragment} {fs : List Fragment} (h : Pieces d (f :: fs)) :
    ∀ g ∈ fs, Continues g := by
  cases h with
  | full d => simp
  | split a ms z =>
      intro g hg
      rcases List.mem_append.mp hg with hg | hg
      · obtain ⟨m, -, rfl⟩ := List.mem_map.mp hg
        exact .inl rfl
      · rw [List.mem_singleton.mp hg]
        exact .inr rfl

/-- Orphans are skipped. -/
theorem assemble_continues {fs : List Fragment} (h : ∀ f ∈ fs, Continues f) (gs : List Fragment) :
    assemble none (fs ++ gs) = assemble none gs := by
  induction fs with
  | nil => rfl
  | cons f fs ih =>
      have habsorb : absorb none f = .inl none := by
        unfold absorb
        rcases h f List.mem_cons_self with ht | ht
        · rw [ht]
          rfl
        · rw [ht]
      rw [List.cons_append, assemble, habsorb]
      exact ih fun g hg => h g (List.mem_cons_of_mem f hg)

/-- The end of a record, without its first physical record, makes up no record. -/
theorem assemble_tail {d : Bytes} {fs ks : List Fragment} (h : Pieces d (fs ++ ks)) (hfs : fs ≠ [])
    (gs : List Fragment) : assemble none (ks ++ gs) = assemble none gs := by
  obtain ⟨f, fs', rfl⟩ := List.exists_cons_of_ne_nil hfs
  exact assemble_continues (fun g hg => h.continues g (List.mem_append_right fs' hg)) gs

theorem Pieces.ne_nil {d : Bytes} {fs : List Fragment} (h : Pieces d fs) : fs ≠ [] := by
  cases h with
  | full d => exact List.cons_ne_nil _ _
  | split a ms z => exact List.cons_ne_nil _ _

section Spared

variable (hit : Nat × Fragment → Prop) [DecidablePred hit]

/-- The records none of whose physical records is hit. -/
def spared (rs : List (Bytes × List (Nat × Fragment))) : List Bytes :=
  (rs.filter fun r => decide (∀ x ∈ r.2, ¬ hit x)).map Prod.fst

variable {hit}

theorem spared_cons_of_not {r : Bytes × List (Nat × Fragment)} (h : ∀ x ∈ r.2, ¬ hit x)
    (rs : List (Bytes × List (Nat × Fragment))) : spared hit (r :: rs) = r.1 :: spared hit rs := by
  unfold spared
  rw [List.filter_cons, if_pos (decide_eq_true h), List.map_cons]

theorem spared_cons_of_mem {r : Bytes × List (Nat × Fragment)} {x : Nat × Fragment} (hx : x ∈ r.2)
    (h : hit x) (rs : List (Bytes × List (Nat × Fragment))) :
    spared hit (r :: rs) = spared hit rs := by
  unfold spared
  rw [List.filter_cons_of_neg]
  exact fun hall => of_decide_eq_true hall x hx h

/-- From a record on that is hit: the records behind the damage are all there. -/
theorem assemble_behind {rs : List (Bytes × List (Nat × Fragment))}
    (hrs : ∀ r ∈ rs, Pieces r.1 (r.2.map Prod.snd)) {ms ks : List (Nat × Fragment)}
    (hsplit : rs.flatMap Prod.snd = ms ++ ks) (hms : ∀ x ∈ ms, hit x) (hks : ∀ x ∈ ks, ¬ hit x) :
    assemble none (ks.map Prod.snd) = spared hit rs := by
  induction rs generalizing ms ks with
  | nil =>
      obtain ⟨rfl, rfl⟩ : ms = [] ∧ ks = [] := by simpa using hsplit.symm
      rfl
  | cons r rs ih =>
      have hr := hrs r List.mem_cons_self
      have hrs' : ∀ r ∈ rs, Pieces r.1 (r.2.map Prod.snd) :=
        fun r' hr' => hrs r' (List.mem_cons_of_mem r hr')
      rw [List.flatMap_cons] at hsplit
      rcases List.append_eq_append_iff.mp hsplit with ⟨a, rfl, hrest⟩ | ⟨c, hc, rfl⟩
      · -- the record is hit altogether
        obtain ⟨x, hx⟩ : ∃ x, x ∈ r.2 :=
          List.exists_mem_of_ne_nil _ fun hnil => hr.ne_nil (by rw [hnil]; rfl)
        rw [spared_cons_of_mem hx (hms x (List.mem_append_left a hx))]
        exact ih hrs' hrest (fun y hy => hms y (List.mem_append_right _ hy)) hks
      · have hrest := ih hrs' (List.nil_append (rs.flatMap Prod.snd)).symm (by simp)
          fun y hy => hks y (List.mem_append_right c hy)
        rw [List.map_append]
        cases ms with
        | nil =>
            -- the record is behind the damage
            rw [List.nil_append] at hc
            rw [spared_cons_of_not (fun x hx => hks x (List.mem_append_left _ (hc ▸ hx))), ← hc,
              assemble_pieces hr, hrest]
        | cons m ms =>
            -- the end of the record is behind the damage
            have hm : m ∈ r.2 := by
              rw [hc]
              exact List.mem_append_left c List.mem_cons_self
            rw [hc, List.map_append] at hr
            rw [spared_cons_of_mem hm (hms m List.mem_cons_self),
              assemble_tail hr (by simp), hrest]

/-- **Records around damage**: the physical records in front of it and those behind it make up the
records that are spared. -/
theorem assemble_around {rs : List (Bytes × List (Nat × Fragment))}
    (hrs : ∀ r ∈ rs, Pieces r.1 (r.2.map Prod.snd)) {gs ms ks : List (Nat × Fragment)}
    (hsplit : rs.flatMap Prod.snd = gs ++ (ms ++ ks)) (hgs : ∀ x ∈ gs, ¬ hit x) (hne : ms ≠ [])
    (hms : ∀ x ∈ ms, hit x) (hks : ∀ x ∈ ks, ¬ hit x) :
    assemble none (gs.map Prod.snd) ++ assemble none (ks.map Prod.snd) = spared hit rs := by
  induction rs generalizing gs with
  | nil =>
      rw [List.flatMap_nil] at hsplit
      have hnil := (List.append_eq_nil_iff.mp (List.append_eq_nil_iff.mp hsplit.symm).2).1
      exact absurd hnil hne
  | cons r rs ih =>
      have hr := hrs r List.mem_cons_self
      have hrs' : ∀ r ∈ rs, Pieces r.1 (r.2.map Prod.snd) :=
        fun r' hr' => hrs r' (List.mem_cons_of_mem r hr')
      -- a record in front of the damage
      have hfront : ∀ a, gs = r.2 ++ a → rs.flatMap Prod.snd = a ++ (ms ++ ks) →
          assemble none (gs.map Prod.snd) ++ assemble none (ks.map Prod.snd)
            = spared hit (r :: rs) := by
        rintro a rfl hrest
        rw [spared_cons_of_not fun x hx => hgs x (List.mem_append_left a hx), List.map_append,
          assemble_pieces hr, List.cons_append,
          ih hrs' hrest fun x hx => hgs x (List.mem_append_right _ hx)]
      rw [List.flatMap_cons] at hsplit
      rcases List.append_eq_append_iff.mp hsplit with ⟨a, hgs', hrest⟩ | ⟨c, hc, hrest⟩
      · exact hfront a hgs' hrest
      · cases c with
        | nil => exact hfront [] (by simpa using hc.symm) (by simpa using hrest.symm)
        | cons x c =>
            -- the record in which the damage begins
            have hx : hit x := by
              obtain ⟨m, ms', rfl⟩ := List.exists_cons_of_ne_nil hne
              obtain ⟨rfl, -⟩ := List.cons.inj hrest
              exact hms _ List.mem_cons_self
            have hmem : x ∈ r.2 := by
              rw [hc]
              exact List.mem_append_right gs List.mem_cons_self
            have hfirst : assemble none (gs.map Prod.snd) = [] := by
              rw [hc, List.map_append, List.map_cons] at hr
              exact (assemble_torn hr).1
            rw [hfirst, List.nil_append, spared_cons_of_mem hmem hx]
            rcases List.append_eq_append_iff.mp hrest with ⟨a, hms', hks'⟩ | ⟨c', hc', hrest'⟩
            · -- the end of the record is behind the damage
              have hbehind := assemble_behind hrs' (List.nil_append (rs.flatMap Prod.snd)).symm
                (by simp) fun y hy => hks y (hks' ▸ List.mem_append_right a hy)
              rw [hc, hms', ← List.append_assoc, List.map_append] at hr
              rw [hks', List.map_append, assemble_tail hr (by simp [hne]), hbehind]
            · exact assemble_behind hrs' hrest'
                (fun y hy => hms y (hc' ▸ List.mem_append_right _ hy)) hks

end Spared

/-! ## Damaged files -/

/-- A position of the block of `p`, at or behind `p`. -/
def Hit (p : Nat) (x : Nat × Fragment) : Prop := p ≤ x.1 ∧ x.1 / kBlockSize = p / kBlockSize

instance (p : Nat) : DecidablePred (Hit p) := fun _ => inferInstanceAs (Decidable (_ ∧ _))

/-- The records with the physical records they are made of. -/
def LogImage.placed (log : LogImage) : List (Bytes × List (Nat × Fragment)) :=
  log.records.zip (placeAll 0 log.pieces)

/-- The end of the block of `p`, or of the file. -/
def LogImage.blockEnd (log : LogImage) (p : Nat) : Nat :=
  min ((p / kBlockSize + 1) * kBlockSize) log.bytes.length

/-- The file with `x` for its bytes from `p` to the end of the block. -/
def LogImage.damaged (log : LogImage) (p : Nat) (x : Bytes) : Bytes :=
  log.bytes.take p ++ x ++ log.bytes.drop (log.blockEnd p)

/-- **The reader's test**: the length in the header runs past the block, or the checksum is not
that of the type and the payload. -/
def TestFails (x : Bytes) : Prop := x.length < kHeaderSize + lengthField x ∨ ¬ crcMatches x

/-- A position of the file where a physical record starts. -/
theorem mem_place_split {pos p : Nat} {fs : List Fragment} {f : Fragment}
    (h : (p, f) ∈ place pos fs) :
    ∃ gs hs, fs = gs ++ f :: hs ∧ p = advance pos gs + padding (advance pos gs % kBlockSize) := by
  induction fs generalizing pos with
  | nil => cases h
  | cons g fs ih =>
      rcases List.mem_cons.mp h with heq | h
      · cases heq
        exact ⟨[], fs, rfl, rfl⟩
      · obtain ⟨gs, hs, rfl, hp⟩ := ih h
        exact ⟨g :: gs, hs, rfl, hp⟩

theorem LogImage.placed_pieces (log : LogImage) :
    ∀ r ∈ log.placed, Pieces r.1 (r.2.map Prod.snd) := by
  have hall : ∀ (ds : List Bytes) (fss : List (List Fragment)) (pos : Nat),
      List.Forall₂ Pieces ds fss → ∀ r ∈ ds.zip (placeAll pos fss), Pieces r.1 (r.2.map Prod.snd) := by
    intro ds fss pos h
    induction h generalizing pos with
    | nil => simp [placeAll]
    | @cons d fs ds fss hd _ ih =>
        rw [placeAll, List.zip_cons_cons]
        refine List.forall_mem_cons.mpr ⟨?_, ih (advance pos fs)⟩
        rw [map_snd_place]
        exact hd
  exact hall _ _ 0 log.formed

theorem LogImage.flatMap_placed (log : LogImage) :
    log.placed.flatMap Prod.snd = place 0 log.pieces.flatten := by
  have hsnd : log.placed.map Prod.snd = placeAll 0 log.pieces := by
    refine List.map_snd_zip ?_
    rw [length_placeAll, log.formed.length_eq]
  rw [List.flatMap_def, hsnd, flatten_placeAll]

/-! ## One step over the damage -/

/-- What is parsed where the test fails: nothing, at the end of the file, or the rest of the
block is dropped, with a report unless its header is that of a hole. -/
theorem parse_of_testFails {x : Bytes} (h : TestFails x) (pos : Nat) (last : Bool) :
    (parse pos x last = none ∧ last = true)
      ∨ ∃ calls, parse pos x last = some (.bad pos calls, x.length)
        ∧ (¬(x.getD 6 0#8 = 0#8 ∧ lengthField x = 0) → calls ≠ []) := by
  unfold parse
  by_cases hlen : x.length < kHeaderSize + lengthField x
  · rw [if_pos hlen]
    cases last with
    | true => exact .inl ⟨rfl, rfl⟩
    | false => exact .inr ⟨_, rfl, fun _ => List.cons_ne_nil _ _⟩
  · rw [if_neg hlen, if_neg (h.resolve_left hlen)]
    by_cases hzero : x.getD 6 0#8 = 0#8 ∧ lengthField x = 0
    · rw [if_pos hzero]
      exact .inr ⟨_, rfl, fun hno => absurd hzero hno⟩
    · rw [if_neg hzero]
      exact .inr ⟨_, rfl, fun _ => List.cons_ne_nil _ _⟩

/-- The step at the damage, from the position `a` in front of it. -/
theorem step_damage {a : Nat} {x rest trailer : Bytes} (htrailer : trailer.length = padding (a % kBlockSize))
    (hx : kHeaderSize ≤ x.length) (hroom : x.length ≤ kBlockSize - start (a % kBlockSize))
    (hrest : x.length = kBlockSize - start (a % kBlockSize) ∨ rest = []) :
    step a (trailer ++ x ++ rest)
      = (parse (a + padding (a % kBlockSize)) x
          (decide (x.length < kBlockSize - start (a % kBlockSize)))).map fun r =>
        (r.1, a + padding (a % kBlockSize) + r.2, (x ++ rest).drop r.2) := by
  have hdrop : (trailer ++ x ++ rest).drop (padding (a % kBlockSize)) = x ++ rest := by
    rw [List.append_assoc]
    exact List.drop_left' htrailer
  have htake : (x ++ rest).take (kBlockSize - start (a % kBlockSize)) = x := by
    rcases hrest with heq | rfl
    · rw [← heq, List.take_left]
    · rw [List.append_nil, List.take_of_length_le hroom]
  have hlast : decide ((x ++ rest).length < kBlockSize - start (a % kBlockSize))
      = decide (x.length < kBlockSize - start (a % kBlockSize)) := by
    apply decide_eq_decide.mpr
    rcases hrest with heq | rfl
    · rw [List.length_append]
      omega
    · rw [List.append_nil]
  unfold step
  simp only
  rw [if_neg, hdrop, htake, hlast]
  rw [List.length_append, List.length_append]
  omega

namespace Reader

/-! ## What the reader makes of physical records and damage -/

theorem fits_types {o : Nat} {fs : List Fragment} (h : Fits o fs) :
    ∀ f ∈ fs, f.type ≠ .kZeroType := by
  induction fs generalizing o with
  | nil => simp
  | cons f fs ih => exact List.forall_mem_cons.mpr ⟨h.1, ih h.2.2⟩

/-- A physical record does what `absorb` says. -/
theorem take_toItem (pending : Option Bytes) {x : Nat × Fragment} (h : x.2.type ≠ .kZeroType) :
    (take pending (toItem x)).1
      = match absorb pending x.2 with | .inl p => .inl p | .inr d => .inr (some d) := by
  obtain ⟨p, type, payload⟩ := x
  cases type with
  | kZeroType => exact absurd rfl h
  | kFullType => rfl
  | kFirstType => rfl
  | kMiddleType => cases pending <;> rfl
  | kLastType => cases pending <;> rfl

/-- Physical records followed by damage: they make up what `assemble` says, the record in
progress is lost, and the reports for the damage are made. -/
theorem records_bad (xs : List (Nat × Fragment)) (hxs : ∀ x ∈ xs, x.2.type ≠ .kZeroType)
    (p : Nat) (calls : List (Nat × Status)) (js : List Item) (pending : Option Bytes) :
    (records pending (xs.map toItem ++ .bad p calls :: js)).1
        = assemble pending (xs.map Prod.snd) ++ (records none js).1
      ∧ (calls ≠ [] → (records pending (xs.map toItem ++ .bad p calls :: js)).2 ≠ []) := by
  induction xs generalizing pending with
  | nil => exact ⟨rfl, fun hcalls => by simp [records, take, hcalls]⟩
  | cons x xs ih =>
      have htake := take_toItem pending (hxs x List.mem_cons_self)
      have hrest := ih fun y hy => hxs y (List.mem_cons_of_mem x hy)
      rcases ht : take pending (toItem x) with ⟨r, calls'⟩
      rw [ht] at htake
      rw [List.map_cons, List.cons_append, records, ht, List.map_cons, assemble]
      cases ha : absorb pending x.2 with
      | inl q =>
          rw [ha] at htake
          obtain rfl : r = .inl q := htake
          refine ⟨(hrest q).1, fun hcalls hnil => ?_⟩
          exact (hrest q).2 hcalls (List.append_eq_nil_iff.mp hnil).2
      | inr d =>
          rw [ha] at htake
          obtain rfl : r = .inr (some d) := htake
          refine ⟨congrArg (d :: ·) (hrest none).1, fun hcalls hnil => ?_⟩
          exact (hrest none).2 hcalls (List.append_eq_nil_iff.mp hnil).2

/-- Physical records alone. -/
theorem records_toItem (xs : List (Nat × Fragment)) (hxs : ∀ x ∈ xs, x.2.type ≠ .kZeroType)
    (pending : Option Bytes) :
    (records pending (xs.map toItem)).1 = assemble pending (xs.map Prod.snd) := by
  induction xs generalizing pending with
  | nil => rfl
  | cons x xs ih =>
      have htake := take_toItem pending (hxs x List.mem_cons_self)
      have hrest := ih fun y hy => hxs y (List.mem_cons_of_mem x hy)
      rcases ht : take pending (toItem x) with ⟨r, calls'⟩
      rw [ht] at htake
      rw [List.map_cons, records, ht, List.map_cons, assemble]
      cases ha : absorb pending x.2 with
      | inl q =>
          rw [ha] at htake
          obtain rfl : r = .inl q := htake
          exact hrest q
      | inr d =>
          rw [ha] at htake
          obtain rfl : r = .inr (some d) := htake
          exact congrArg (d :: ·) (hrest none)

end Reader

/-! ## The file in front of the damage and behind it -/

/-- What is in front of a physical record. -/
theorem LogImage.front (log : LogImage) {p : Nat} {f : Fragment}
    (hp : (p, f) ∈ place 0 log.pieces.flatten) :
    ∃ gs ys, Fits 0 gs ∧ p = advance 0 gs + padding (advance 0 gs % kBlockSize)
      ∧ log.bytes.take p = layout 0 gs ++ zeros (padding (advance 0 gs % kBlockSize))
      ∧ p + kHeaderSize ≤ log.bytes.length
      ∧ place 0 log.pieces.flatten = place 0 gs ++ (p, f) :: ys ∧ ∀ y ∈ ys, p ≤ y.1 := by
  obtain ⟨gs, hs, hfs, hpos⟩ := mem_place_split hp
  have hfits : Fits 0 gs := ((fits_append 0 gs (f :: hs)).mp (hfs ▸ log.fits)).1
  have hoffset := offset_advance (Or.inl rfl : Offset 0 0) hfits
  have hlen := length_layout (Or.inl rfl : Offset 0 0) hfits
  rw [Nat.zero_add] at hlen
  have hbytes : log.bytes = layout 0 gs ++ zeros (padding (advance 0 gs % kBlockSize))
      ++ (f.encode ++ layout (next (endOffset 0 gs) f) hs ++ zeros log.trailer) := by
    rw [LogImage.bytes, hfs, layout_append, layout, hoffset.eq.1]
    simp only [List.append_assoc]
  have hplen : (layout 0 gs ++ zeros (padding (advance 0 gs % kBlockSize))).length = p := by
    rw [List.length_append, zeros_length, hlen, hpos]
  have hplace : place 0 log.pieces.flatten = place 0 gs ++ (p, f) :: place (behind (advance 0 gs) f) hs := by
    rw [hfs, place_append, place, ← hpos]
  refine ⟨gs, _, hfits, hpos, ?_, ?_, hplace, ?_⟩
  · rw [hbytes]
    exact List.take_left' hplen
  · rw [hbytes, List.length_append, hplen, List.length_append, List.length_append,
      Fragment.encode_length]
    omega
  · intro y hy
    refine le_trans ?_ (mem_place hy).1
    rw [hpos, behind]
    omega

/-- The physical records in front of the damage, those that are hit and those behind. -/
theorem LogImage.around (log : LogImage) {p : Nat} {f : Fragment} {gs : List Fragment}
    {ys : List (Nat × Fragment)} (hpos : p = advance 0 gs + padding (advance 0 gs % kBlockSize))
    (hplace : place 0 log.pieces.flatten = place 0 gs ++ (p, f) :: ys) (hys : ∀ y ∈ ys, p ≤ y.1) :
    ∃ ms ks, place 0 log.pieces.flatten = place 0 gs ++ (ms ++ ks) ∧ ms ≠ []
      ∧ (∀ x ∈ place 0 gs, ¬ Hit p x) ∧ (∀ x ∈ ms, Hit p x) ∧ (∀ x ∈ ks, ¬ Hit p x)
      ∧ Walk ((p / kBlockSize + 1) * kBlockSize)
          (log.bytes.drop ((p / kBlockSize + 1) * kBlockSize)) (ks.map toItem) := by
  set e := (p / kBlockSize + 1) * kBlockSize with he
  have hlt : p < e := by
    rw [he]
    simp only [kBlockSize]
    omega
  have hhit : ∀ x : Nat × Fragment, p ≤ x.1 → (Hit p x ↔ x.1 < e) := by
    intro x hx
    unfold Hit
    rw [he]
    simp only [kBlockSize]
    omega
  obtain ⟨pre, post, hsplit, hwalk, hpre, hpost⟩ :=
    log.walk.resume rfl (e := e) (Nat.mul_mod_left _ _) (Nat.zero_le e)
  obtain ⟨xs, ks, hxs, rfl, rfl⟩ := List.map_eq_append_iff.mp hsplit
  have hks : ∀ x ∈ ks, e ≤ x.1 := fun x hx => hpost _ (List.mem_map_of_mem hx)
  have hxs' : ∀ x ∈ xs, x.1 < e := fun x hx => hpre _ (List.mem_map_of_mem hx)
  have hsame : place 0 gs ++ (p, f) :: ys = xs ++ ks := hplace.symm.trans hxs
  rcases List.append_eq_append_iff.mp hsame with ⟨ms, hms, hrest⟩ | ⟨c, hc, hrest⟩
  · have hge : ∀ x ∈ ms ++ ks, p ≤ x.1 := by
      rw [← hrest]
      exact List.forall_mem_cons.mpr ⟨le_rfl, hys⟩
    refine ⟨ms, ks, ?_, ?_, ?_, ?_, ?_, hwalk⟩
    · rw [hplace, hrest]
    · rintro rfl
      have := hks (p, f) (by rw [← List.nil_append ks, ← hrest]; exact List.mem_cons_self)
      omega
    · rintro x hx ⟨hle, -⟩
      have := (mem_place hx).2
      have : kHeaderSize = 7 := rfl
      omega
    · intro x hx
      refine (hhit x (hge x (List.mem_append_left ks hx))).mpr (hxs' x ?_)
      rw [hms]
      exact List.mem_append_right _ hx
    · intro x hx hit
      have := (hhit x (hge x (List.mem_append_right ms hx))).mp hit
      have := hks x hx
      omega
  · -- the damaged physical record is not behind its own block
    have := hks (p, f) (by rw [hrest]; exact List.mem_append_right c List.mem_cons_self)
    omega

/-- At the end of the block, or of the file. -/
theorem LogImage.walk_blockEnd (log : LogImage) {p : Nat} {is : List Item}
    (hw : Walk ((p / kBlockSize + 1) * kBlockSize)
      (log.bytes.drop ((p / kBlockSize + 1) * kBlockSize)) is) :
    Walk (log.blockEnd p) (log.bytes.drop (log.blockEnd p)) is
      ∧ (log.bytes.length < (p / kBlockSize + 1) * kBlockSize → is = []) := by
  unfold LogImage.blockEnd
  by_cases hle : (p / kBlockSize + 1) * kBlockSize ≤ log.bytes.length
  · rw [min_eq_left hle]
    exact ⟨hw, fun hlt => absurd hle (by omega)⟩
  · rw [List.drop_eq_nil_of_le (by omega)] at hw
    obtain rfl : is = [] := hw.unique (.done (step_nil _))
    rw [min_eq_right (by omega), List.drop_length]
    exact ⟨.done (step_nil _), fun _ => rfl⟩

/-- **Corruption stays inside its block**: the reader returns the records that have no physical
record in the part of the block that was replaced, and no others; and it makes a report unless
the damage is in the last block or looks like a hole in the file. -/
theorem readAll_damaged (log : LogImage) (p : Nat) (f : Fragment)
    (hp : (p, f) ∈ place 0 log.pieces.flatten) (x : Bytes) (hx : x.length = log.blockEnd p - p)
    (htest : TestFails x) :
    ∃ rd, Reader.readAll (Reader.new ⟨log.damaged p x, []⟩ (some []) true 0)
        = .ok (spared (Hit p) log.placed, rd)
      ∧ (log.blockEnd p < log.bytes.length → ¬(x.getD 6 0#8 = 0#8 ∧ lengthField x = 0) →
          rd.reporter ≠ some []) := by
  obtain ⟨gs, ys, hfits, hpos, htake, hlen, hplace, hys⟩ := log.front hp
  obtain ⟨ms, ks, hplace', hne, hgs, hms, hks, hwalk⟩ := log.around hpos hplace hys
  obtain ⟨hwalk, hlast⟩ := log.walk_blockEnd hwalk
  have htypes : ∀ y ∈ place 0 log.pieces.flatten, y.2.type ≠ .kZeroType := by
    intro y hy
    refine Reader.fits_types log.fits y.2 ?_
    rw [← map_snd_place 0 log.pieces.flatten]
    exact List.mem_map_of_mem hy
  have htypes_gs : ∀ y ∈ place 0 gs, y.2.type ≠ .kZeroType := by
    intro y hy
    refine htypes y ?_
    rw [hplace']
    exact List.mem_append_left _ hy
  have htypes_ks : ∀ y ∈ ks, y.2.type ≠ .kZeroType := by
    intro y hy
    refine htypes y ?_
    rw [hplace']
    exact List.mem_append_right _ (List.mem_append_right ms hy)
  have hspared := assemble_around log.placed_pieces (log.flatMap_placed.trans hplace') hgs hne hms hks
  -- the damage fills the rest of the block
  set a := advance 0 gs with ha
  have hmod : p % kBlockSize = start (a % kBlockSize) := by
    rw [hpos]
    exact mod_start a
  have hfit := start_add_kHeaderSize_le (mod_le a)
  have hblock : (p / kBlockSize + 1) * kBlockSize = p + (kBlockSize - start (a % kBlockSize)) := by
    rw [← hmod]
    simp only [kBlockSize]
    omega
  have hend : log.blockEnd p = min (p + (kBlockSize - start (a % kBlockSize))) log.bytes.length := by
    rw [LogImage.blockEnd, hblock]
  rw [hblock] at hlast
  have hrest : x.length = kBlockSize - start (a % kBlockSize)
      ∨ log.bytes.drop (log.blockEnd p) = [] := by
    by_cases hle : p + (kBlockSize - start (a % kBlockSize)) ≤ log.bytes.length
    · exact .inl (by omega)
    · exact .inr (List.drop_eq_nil_of_le (by omega))
  have hstep := step_damage (zeros_length (padding (a % kBlockSize)))
    (by omega : kHeaderSize ≤ x.length) (by omega) hrest
  have hdata : log.damaged p x = layout 0 gs ++ (zeros (padding (a % kBlockSize)) ++ x
      ++ log.bytes.drop (log.blockEnd p)) := by
    rw [LogImage.damaged, htake]
    simp only [List.append_assoc]
  obtain ⟨rd, hread, hrep⟩ := Reader.readAll_walk (log.damaged p x) (some [])
  -- what the reader meets
  have hitems : ∀ js, Walk a (zeros (padding (a % kBlockSize)) ++ x
      ++ log.bytes.drop (log.blockEnd p)) js →
      fileItems (log.damaged p x) = (place 0 gs).map toItem ++ js := by
    intro js hjs
    have hw := walk_layout (Or.inl rfl : Offset 0 0) hfits hjs
    rw [← hdata] at hw
    exact (walk_fileItems _).unique hw
  rw [← hpos] at hstep
  rcases parse_of_testFails htest p (decide (x.length < kBlockSize - start (a % kBlockSize)))
    with ⟨hnone, hshort⟩ | ⟨calls, hbad, hcalls⟩
  · -- the damage is taken for a torn physical record
    rw [hnone, Option.map_none] at hstep
    have hshort := of_decide_eq_true hshort
    have hks : ks = [] := List.map_eq_nil_iff.mp (hlast (by omega))
    rw [hitems [] (.done hstep), List.append_nil, Reader.records_toItem _ htypes_gs] at hread
    rw [hks, List.map_nil] at hspared
    refine ⟨rd, ?_, fun hblockEnd => absurd hshort (by omega)⟩
    rw [hread, ← hspared]
    simp [assemble]
  · -- the rest of the block is dropped
    rw [hbad, Option.map_some] at hstep
    simp only [List.drop_left] at hstep
    have hnext : p + x.length = log.blockEnd p := by omega
    rw [hnext] at hstep
    obtain ⟨hrecords, hreports⟩ := Reader.records_bad (place 0 gs) htypes_gs p calls
      (ks.map toItem) none
    rw [hitems _ (.item hstep hwalk)] at hread hrep
    rw [hrecords, Reader.records_toItem _ htypes_ks, hspared] at hread
    refine ⟨rd, hread, fun _ hzero hnil => ?_⟩
    rw [hrep] at hnil
    exact hreports (hcalls hzero) (by simpa [Reader.addCalls] using hnil)

/-- A log of the records "ab" and "cd". -/
def twoRecords : LogImage where
  records := [text "ab", text "cd"]
  pieces := [[⟨.kFullType, text "ab"⟩], [⟨.kFullType, text "cd"⟩]]
  trailer := 0
  formed := .cons (.full _) (.cons (.full _) .nil)
  fits := ⟨by decide, by decide, by decide, by decide, trivial⟩
  trailer_le := Nat.zero_le _

/-- A full physical record with a length that runs past the block. -/
def longHeader : Bytes := [0#8, 0#8, 0#8, 0#8, 255#8, 255#8, 1#8, 0#8, 0#8]

theorem readAll_damaged_second :
    ∃ rd, Reader.readAll (Reader.new ⟨twoRecords.damaged 9 longHeader, []⟩ (some []) true 0)
        = .ok ([text "ab"], rd)
      ∧ (twoRecords.blockEnd 9 < twoRecords.bytes.length →
          ¬(longHeader.getD 6 0#8 = 0#8 ∧ lengthField longHeader = 0) → rd.reporter ≠ some []) :=
  readAll_damaged twoRecords 9 ⟨.kFullType, text "cd"⟩ (.tail _ (.head _)) longHeader rfl
    (.inl (by decide))

end SimpleLeveldb.Log
