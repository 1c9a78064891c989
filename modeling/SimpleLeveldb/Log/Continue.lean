import SimpleLeveldb.Log.RoundTrip

set_option autoImplicit false

/-! # A log that is opened again

A writer can be made for a file that has records in it already, from the length of the file
(`reuse_manifest`). What it appends depends on its offset in the block alone, and not even on
whether a block that is full is left (`kBlockSize`) or the next one is entered (0).
-/

namespace SimpleLeveldb.Log

/-! ## Places in a block -/

/-- Two offsets from which physical records are written in the same way. -/
def SamePlace (o o' : Nat) : Prop := start o = start o' ∧ padding o = padding o'

theorem samePlace_mod {o : Nat} (ho : o ≤ kBlockSize) : SamePlace o (o % kBlockSize) := by
  by_cases h : o = kBlockSize
  · subst h
    exact ⟨by decide, by decide⟩
  · rw [Nat.mod_eq_of_lt (by omega)]
    exact ⟨rfl, rfl⟩

theorem SamePlace.next {o o' : Nat} (h : SamePlace o o') (f : Fragment) :
    next o f = next o' f := by
  rw [Log.next, Log.next, h.1]

theorem SamePlace.layout {o o' : Nat} (h : SamePlace o o') (fs : List Fragment) :
    layout o fs = layout o' fs := by
  cases fs with
  | nil => rfl
  | cons f fs => rw [Log.layout, Log.layout, h.2, h.next]

/-- **The offset of a writer** is the length of its file, up to whole blocks. -/
theorem endOffset_mod {o : Nat} {fs : List Fragment} (ho : o ≤ kBlockSize) (h : Fits o fs) :
    endOffset o fs % kBlockSize = (o + (layout o fs).length) % kBlockSize := by
  induction fs generalizing o with
  | nil => rfl
  | cons f fs ih =>
      have hone : next o f % kBlockSize
          = (o + (padding o + (kHeaderSize + f.payload.length))) % kBlockSize := by
        unfold next start padding
        split_ifs with hleft
        · -- the rest of the block is filled up
          rw [show o + (kBlockSize - o + (kHeaderSize + f.payload.length))
            = 0 + kHeaderSize + f.payload.length + kBlockSize by omega, Nat.add_mod_right]
        · congr 1
          omega
      rw [endOffset_cons, ih h.2.1 h.2.2, Nat.add_mod, hone, ← Nat.add_mod, layout,
        List.length_append, List.length_append, zeros_length, Fragment.encode_length]
      congr 1
      omega

/-! ## What a writer appends, by its offset -/

namespace Writer

/-- The physical records that at most `n` turns of `add_record` make of the bytes `ptr`. -/
def fragments : Nat → Nat → Bool → Bytes → List Fragment
  | 0, _, _, _ => []
  | n + 1, o, b, ptr =>
      let f := turnFragment o b ptr
      f :: if ptr.length ≤ avail o then [] else fragments n (next o f) false (ptr.drop (avail o))

theorem fragments_samePlace {o o' : Nat} (h : SamePlace o o') (n : Nat) (b : Bool) (ptr : Bytes) :
    fragments n o b ptr = fragments n o' b ptr := by
  cases n with
  | zero => rfl
  | succ n =>
      have havail : avail o = avail o' := by rw [avail, avail, h.1]
      have hturn : turnFragment o b ptr = turnFragment o' b ptr := by
        rw [turnFragment, turnFragment, havail]
      rw [fragments, fragments, hturn, havail, h.next]

/-- A turn makes the rest shorter, but for one that only finds room for a header. -/
theorem run_fragments {uninit : U32} (n : Nat) (b : Bool) (ptr : Bytes) (w : Writer) (env : Env)
    (hw : w.typeCrc = initTypeCrc uninit) (ho : w.blockOffset ≤ kBlockSize) (henv : env.AllOk)
    (hn : ptr.length + (if avail w.blockOffset = 0 then 1 else 0) < n) :
    ∃ w' env', Loop.run .endless addRecordTurn n ⟨b, ptr, w, env⟩ = .ok (.ok, w', env')
      ∧ Wrote w (fragments n w.blockOffset b ptr) env w' env' := by
  induction n generalizing b ptr w env with
  | zero => omega
  | succ n ih =>
      obtain ⟨env₁, hturn, g⟩ := addRecordTurn_spec ⟨b, ptr, w, env⟩ hw ho henv
      have hwrote := wrote_turn ho g
      simp only at hturn
      rw [fragments]
      by_cases h : ptr.length ≤ avail w.blockOffset
      · rw [if_pos h] at hturn
        simp only [if_pos h]
        exact ⟨_, env₁, Loop.run_inr _ hturn n, hwrote⟩
      · rw [if_neg h] at hturn
        have hfull := next_of_avail_lt ho (b := b) (by omega : avail _ < ptr.length)
        have hpos : avail kBlockSize ≠ 0 := by decide
        obtain ⟨w', env', hrun, hrest⟩ := ih false (ptr.drop (avail w.blockOffset))
          { w with blockOffset := next w.blockOffset (turnFragment w.blockOffset b ptr) } env₁ hw
          (le_of_eq hfull) g.allOk (by
            show (ptr.drop (avail w.blockOffset)).length
              + (if avail (next w.blockOffset (turnFragment w.blockOffset b ptr)) = 0 then 1 else 0)
                < n
            rw [hfull, if_neg hpos, List.length_drop]
            split_ifs at hn <;> omega)
        refine ⟨w', env', ?_, ?_⟩
        · rw [Loop.run_inl _ hturn]
          exact hrun
        · simp only [if_neg h]
          exact hwrote.trans hrest

/-- The physical records of a list of records. -/
def allFragments : Nat → List Bytes → List Fragment
  | _, [] => []
  | o, r :: rs =>
      let fs := fragments (r.length + 2) o true r
      fs ++ allFragments (endOffset o fs) rs

theorem addRecords_fragments (uninit : U32) (rs : List Bytes) (w : Writer) (env : Env)
    (hw : w.typeCrc = initTypeCrc uninit) (ho : w.blockOffset ≤ kBlockSize) (henv : env.AllOk) :
    ∃ w' env', w.addRecords rs env = .ok (.ok, w', env')
      ∧ Wrote w (allFragments w.blockOffset rs) env w' env' := by
  induction rs generalizing w env with
  | nil => exact ⟨w, env, rfl, ⟨Env.Appended.refl henv _, trivial, rfl⟩⟩
  | cons r rs ih =>
      obtain ⟨w₁, env₁, hadd, hwrote⟩ := run_fragments (r.length + 2) true r w env hw ho henv
        (by split_ifs <;> omega)
      have hw₁ := hwrote.writer
      obtain ⟨w₂, env₂, hadds, hwrote₂⟩ := ih w₁ env₁ (by rw [hw₁]; exact hw)
        (by rw [hw₁]; exact endOffset_le ho hwrote.fits) hwrote.appended.allOk
      refine ⟨w₂, env₂, ?_, ?_⟩
      · rw [addRecords, addRecord, hadd]
        exact hadds
      · rw [hw₁] at hwrote₂
        rw [hw₁] at hwrote
        exact hwrote.trans hwrote₂

theorem allFragments_append (o : Nat) (rs rs' : List Bytes) :
    allFragments o (rs ++ rs')
      = allFragments o rs ++ allFragments (endOffset o (allFragments o rs)) rs' := by
  induction rs generalizing o with
  | nil => rfl
  | cons r rs ih =>
      rw [List.cons_append, allFragments, allFragments, ih, endOffset_append, List.append_assoc]

theorem allFragments_samePlace {o o' : Nat} (h : SamePlace o o') (rs : List Bytes) :
    allFragments o rs = allFragments o' rs := by
  cases rs with
  | nil => rfl
  | cons r rs =>
      have hfs := fragments_samePlace h (r.length + 2) true r
      have hend : endOffset o (fragments (r.length + 2) o' true r)
          = endOffset o' (fragments (r.length + 2) o' true r) := by
        rw [fragments]
        simp only [endOffset_cons, h.next]
      rw [allFragments, allFragments, hfs, hend]

end Writer

/-! ## The same bytes -/

/-- **A reopened log continues seamlessly**: the records `rs₁` and then, by a writer that is made
for the length of the file, the records `rs₂` leave the bytes that one writer leaves for all. -/
theorem addRecords_newAt {fname : Bytes} {env : Env} (henv : env.AllOk) {f : File}
    (hfile : env.files.lookup fname = some f) (hempty : f.data = []) (uninit₁ uninit₂ uninit₃ : U32)
    (rs₁ rs₂ : List Bytes) :
    ∃ w₁ env₁ f₁ w₂ env₂ f₂ w₃ env₃ f₃,
      (Writer.new fname uninit₁).addRecords rs₁ env = .ok (.ok, w₁, env₁)
        ∧ env₁.files.lookup fname = some f₁
        ∧ (Writer.newAt fname f₁.data.length uninit₂).addRecords rs₂ env₁ = .ok (.ok, w₂, env₂)
        ∧ env₂.files.lookup fname = some f₂
        ∧ (Writer.new fname uninit₃).addRecords (rs₁ ++ rs₂) env = .ok (.ok, w₃, env₃)
        ∧ env₃.files.lookup fname = some f₃ ∧ f₂.data = f₃.data := by
  have hblock : ∀ n, n % kBlockSize ≤ kBlockSize := fun n => (Nat.mod_lt n (by decide)).le
  obtain ⟨w₁, env₁, hadd₁, hwrote₁⟩ := Writer.addRecords_fragments uninit₁ rs₁
    (Writer.new fname uninit₁) env rfl (Nat.zero_le _) henv
  have hf₁ := hwrote₁.appended.file
  rw [show (Writer.new fname uninit₁).dest = fname from rfl, hfile, Option.map_some] at hf₁
  set fs := Writer.allFragments 0 rs₁ with hfs
  have hlen : (f.data ++ layout 0 fs).length = (layout 0 fs).length := by
    rw [hempty, List.nil_append]
  obtain ⟨w₂, env₂, hadd₂, hwrote₂⟩ := Writer.addRecords_fragments uninit₂ rs₂
    (Writer.newAt fname (f.data ++ layout 0 fs).length uninit₂) env₁ rfl (hblock _)
    hwrote₁.appended.allOk
  have hf₂ := hwrote₂.appended.file
  rw [show (Writer.newAt fname (f.data ++ layout 0 fs).length uninit₂).dest = fname from rfl]
    at hf₂
  obtain ⟨w₃, env₃, hadd₃, hwrote₃⟩ := Writer.addRecords_fragments uninit₃ (rs₁ ++ rs₂)
    (Writer.new fname uninit₃) env rfl (Nat.zero_le _) henv
  have hf₃ := hwrote₃.appended.file
  rw [show (Writer.new fname uninit₃).dest = fname from rfl, hfile, Option.map_some] at hf₃
  refine ⟨w₁, env₁, _, w₂, env₂, _, w₃, env₃, _, hadd₁, hf₁, hadd₂, by rw [hf₂]; exact congrArg _ hf₁,
    hadd₃, hf₃, ?_⟩
  -- the new writer stands where the old one stopped
  have hplace : SamePlace (endOffset 0 fs) ((f.data ++ layout 0 fs).length % kBlockSize) := by
    have hmod : endOffset 0 fs % kBlockSize = (0 + (layout 0 fs).length) % kBlockSize :=
      endOffset_mod (Nat.zero_le kBlockSize) hwrote₁.fits
    rw [hlen, ← Nat.zero_add (layout 0 fs).length, ← hmod]
    exact samePlace_mod (endOffset_le (Nat.zero_le kBlockSize) hwrote₁.fits)
  show f.data ++ layout 0 fs ++ layout ((f.data ++ layout 0 fs).length % kBlockSize)
      (Writer.allFragments ((f.data ++ layout 0 fs).length % kBlockSize) rs₂)
    = f.data ++ layout 0 (Writer.allFragments 0 (rs₁ ++ rs₂))
  rw [Writer.allFragments_append, layout_append, List.append_assoc, ← hplace.layout,
    ← Writer.allFragments_samePlace hplace]

/-- A record that ends its block exactly leaves the two writers at different offsets. -/
theorem addRecords_newAt_full : ∃ w₁ env₁ f₁ w₂ env₂ f₂ w₃ env₃ f₃,
    (Writer.new (text "log") 0).addRecords [zeros 32761] (emptyFileEnv (text "log"))
        = .ok (.ok, w₁, env₁)
      ∧ env₁.files.lookup (text "log") = some f₁
      ∧ (Writer.newAt (text "log") f₁.data.length 1).addRecords [text "a"] env₁
        = .ok (.ok, w₂, env₂)
      ∧ env₂.files.lookup (text "log") = some f₂
      ∧ (Writer.new (text "log") 2).addRecords ([zeros 32761] ++ [text "a"])
        (emptyFileEnv (text "log")) = .ok (.ok, w₃, env₃)
      ∧ env₃.files.lookup (text "log") = some f₃ ∧ f₂.data = f₃.data :=
  addRecords_newAt (by simp [Env.AllOk, emptyFileEnv]) (AList.lookup_insert _) rfl 0 1 2 _ _

end SimpleLeveldb.Log
