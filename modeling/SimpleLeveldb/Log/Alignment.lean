import SimpleLeveldb.Log.Append
import SimpleLeveldb.Log.Place

set_option autoImplicit false

/-! # The writer's offset and the length of its file

The writer counts the bytes that it hands to its file, and the file keeps those whose append
succeeds. What one call adds to the file is described here for any outcomes of its operations: the
bytes of some of its physical records, less those that are `lost`.
-/

namespace SimpleLeveldb.Log

open Env (Passes Performs)

/-! ## Physical records in a file -/

/-- The bytes from the position `pos` of a file on are the physical records `xs`, each inside a
block, and trailers of zeros that fill up a block. -/
inductive Laid : Nat → Bytes → List (Nat × Fragment) → Prop
  | nil (pos : Nat) : Laid pos [] []
  | record {pos : Nat} {f : Fragment} {rest : Bytes} {xs : List (Nat × Fragment)} :
      pos % kBlockSize + (kHeaderSize + f.payload.length) ≤ kBlockSize →
      Laid (pos + (kHeaderSize + f.payload.length)) rest xs →
      Laid pos (f.encode ++ rest) ((pos, f) :: xs)
  | trailer {pos n : Nat} {rest : Bytes} {xs : List (Nat × Fragment)} :
      1 ≤ n → n ≤ 6 → (pos + n) % kBlockSize = 0 → Laid (pos + n) rest xs →
      Laid pos (zeros n ++ rest) xs

theorem Laid.append {pos : Nat} {a b : Bytes} {xs ys : List (Nat × Fragment)} (ha : Laid pos a xs)
    (hb : Laid (pos + a.length) b ys) : Laid pos (a ++ b) (xs ++ ys) := by
  induction ha with
  | nil pos => exact hb
  | record hfit _ ih =>
      rw [List.append_assoc, List.cons_append]
      refine .record hfit (ih ?_)
      rwa [List.length_append, Fragment.encode_length, ← Nat.add_assoc] at hb
  | trailer hpos hle hend _ ih =>
      rw [List.append_assoc]
      refine .trailer hpos hle hend (ih ?_)
      rwa [List.length_append, zeros_length, ← Nat.add_assoc] at hb

/-- A trailer is what is left of a block when no header fits into it. -/
theorem padding_eq_zero_or {o pos : Nat} (h : Offset o pos) :
    padding o = 0 ∨ 1 ≤ padding o ∧ padding o ≤ 6 ∧ (pos + padding o) % kBlockSize = 0 := by
  rw [h.eq.1, padding]
  unfold kBlockSize kHeaderSize
  split_ifs <;> omega

/-- Behind the trailer, a physical record that fits is inside a block. -/
theorem start_eq_mod {o pos : Nat} (h : Offset o pos) :
    start o = (pos + padding o) % kBlockSize := by
  rw [h.eq.1, h.eq.2, padding, start]
  unfold kBlockSize kHeaderSize
  split_ifs <;> omega

/-- **A layout** is laid out from the position that its offset belongs to. -/
theorem laid_layout {o pos : Nat} {fs : List Fragment} (h : Offset o pos) (hfits : Fits o fs) :
    Laid pos (layout o fs) (place pos fs) := by
  induction fs generalizing o pos with
  | nil => exact .nil pos
  | cons f fs ih =>
      obtain ⟨-, hfit, hfits⟩ := hfits
      have hrest := ih (offset_behind h hfit) hfits
      rw [next, start_eq_mod h] at hfit
      rw [layout, place, List.append_assoc, ← h.eq.1]
      rw [behind, ← h.eq.1] at hrest
      have hrecord : Laid (pos + padding o) (f.encode ++ layout (next o f) fs)
          ((pos + padding o, f) :: place (behind pos f) fs) := by
        refine .record (by omega) ?_
        rw [behind, ← h.eq.1]
        exact hrest
      rcases padding_eq_zero_or h with hzero | ⟨hpos, hle, hend⟩
      · rw [hzero] at hrecord ⊢
        exact hrecord
      · exact .trailer hpos hle hend hrecord

/-! ## Bytes that are lost -/

/-- The bytes that are missing from the file when operations fail. Each operation comes with whether
its status is looked at, and with the bytes that are missing when it fails. -/
def lost : List (Bool × Nat) → List Status → Nat
  | [], _ => 0
  | (looked, n) :: ops, script =>
      if script.headD .ok = .ok then lost ops script.tail
      else if looked then n else n + lost ops script.tail

theorem lost_append_of_passes {ops : List (Bool × Nat)} {script : List Status}
    (h : Passes (ops.map Prod.fst) script) (ops' : List (Bool × Nat)) :
    lost (ops ++ ops') script = lost ops script + lost ops' (script.drop ops.length) := by
  induction ops generalizing script with
  | nil => exact (Nat.zero_add _).symm
  | cons op ops ih =>
      obtain ⟨looked, n⟩ := op
      have hrest := ih h.2
      rw [← List.drop_one, List.drop_drop, Nat.add_comm 1] at hrest
      rw [List.cons_append, lost, lost, ← List.drop_one, hrest, List.length_cons]
      cases looked with
      | true => rw [if_pos (h.1 rfl), if_pos (h.1 rfl)]
      | false =>
          simp only [Bool.false_eq_true, if_false]
          split_ifs
          · rfl
          · exact (Nat.add_assoc _ _ _).symm

/-- Behind an operation that has failed no others are made. -/
theorem lost_append_of_not_passes {ops : List (Bool × Nat)} {script : List Status}
    (h : ¬ Passes (ops.map Prod.fst) script) (ops' : List (Bool × Nat)) :
    lost (ops ++ ops') script = lost ops script := by
  induction ops generalizing script with
  | nil => exact absurd trivial h
  | cons op ops ih =>
      obtain ⟨looked, n⟩ := op
      rw [List.cons_append, lost, lost]
      by_cases hok : script.headD .ok = .ok
      · rw [if_pos hok, if_pos hok, ih fun hrest => h ⟨fun _ => hok, hrest⟩]
      · rw [if_neg hok, if_neg hok]
        cases looked with
        | true => rfl
        | false => rw [ih fun hrest => h ⟨fun he => absurd he Bool.false_ne_true, hrest⟩]

/-- The file has gained the bytes `bytes`, but for `n` of them. -/
def Gains (dest bytes : Bytes) (n : Nat) (env env' : Env) : Prop :=
  ∃ d, env'.content dest = (env.content dest).map (· ++ d) ∧ d.length + n = bytes.length
    ∧ (n = 0 → d = bytes)

theorem Gains.refl (dest : Bytes) (env : Env) : Gains dest [] 0 env env :=
  ⟨[], by cases env.content dest <;> simp, rfl, fun _ => rfl⟩

theorem Gains.trans {dest a b : Bytes} {m n : Nat} {env₁ env₂ env₃ : Env}
    (h₁ : Gains dest a m env₁ env₂) (h₂ : Gains dest b n env₂ env₃) :
    Gains dest (a ++ b) (m + n) env₁ env₃ := by
  obtain ⟨d₁, hcontent₁, hlength₁, hall₁⟩ := h₁
  obtain ⟨d₂, hcontent₂, hlength₂, hall₂⟩ := h₂
  refine ⟨d₁ ++ d₂, ?_, ?_, fun hzero => ?_⟩
  · rw [hcontent₂, hcontent₁, Option.map_map]
    congr 1
    funext data
    exact List.append_assoc data d₁ d₂
  · rw [List.length_append, List.length_append]
    omega
  · rw [hall₁ (by omega), hall₂ (by omega)]

/-- Nothing has been appended. -/
theorem gains_none {dest : Bytes} {env env' : Env} (h : env'.content dest = env.content dest)
    (bytes : Bytes) : Gains dest bytes bytes.length env env' := by
  refine ⟨[], ?_, Nat.zero_add _, fun hzero => (List.eq_nil_of_length_eq_zero hzero).symm⟩
  rw [h]
  cases env.content dest <;> simp

theorem gains_append (dest data : Bytes) (env : Env) :
    Gains dest data (if env.script.headD .ok = .ok then 0 else data.length) env
      (env.append dest data).2 := by
  have hiff : (env.append dest data).1 = .ok ↔ env.script.headD .ok = .ok :=
    (Env.performs_append dest data env).ok_iff.trans (by simp [Env.passes_cons])
  rcases Env.append_cases dest data env with ⟨hok, hcontent⟩ | ⟨hne, hcontent⟩
  · rw [if_pos (hiff.mp hok)]
    exact ⟨data, hcontent, rfl, fun _ => rfl⟩
  · rw [if_neg (mt hiff.mpr hne)]
    exact gains_none hcontent data

namespace Writer

/-- The operations on one physical record with a payload of `length` bytes from offset `o`. With the
header the payload is missing as well. -/
def turnAppends (o length : Nat) : List (Bool × Nat) :=
  (if 0 < padding o then [(false, padding o)] else [])
    ++ [(true, kHeaderSize + length), (true, length), (true, 0)]

/-- The operations of `add_record` for `length` bytes from offset `o`, in at most `n` turns. -/
def recordAppends : Nat → Nat → Nat → List (Bool × Nat)
  | 0, _, _ => []
  | n + 1, o, length =>
      if length ≤ avail o then turnAppends o length
      else turnAppends o (avail o) ++ recordAppends n kBlockSize (length - avail o)

theorem map_fst_turnAppends (o length : Nat) :
    (turnAppends o length).map Prod.fst = turnOps o := by
  unfold turnAppends turnOps
  split_ifs <;> rfl

/-- A physical record is lost as a whole, or its payload, or nothing of it. -/
theorem emitPhysicalRecord_gains {w w' : Writer} {uninit : U32} (hw : w.typeCrc = initTypeCrc uninit)
    {type : RecordType} (ht : type ≠ .kLastType) {ptr : Bytes} {env env' : Env} {s : Status}
    (h : w.emitPhysicalRecord type ptr env = .ok (s, w', env')) :
    Gains w.dest (Fragment.encode ⟨type, ptr⟩)
      (lost [(true, kHeaderSize + ptr.length), (true, ptr.length), (true, 0)] env.script) env env' := by
  unfold emitPhysicalRecord at h
  obtain ⟨_, -, h⟩ := bind_eq_ok.mp h
  obtain ⟨_, -, h⟩ := bind_eq_ok.mp h
  cases h
  rw [hw, extend_typeCrc uninit ht]
  set head := header type (Fragment.crc ⟨type, ptr⟩) ptr.length with hhead
  have hlen : head.length = kHeaderSize := header_length _ _ _
  have hencode : Fragment.encode ⟨type, ptr⟩ = head ++ ptr := rfl
  have hfirst := Env.performs_append w.dest head env
  have hok₁ : (env.append w.dest head).1 = .ok ↔ env.script.headD .ok = .ok :=
    hfirst.ok_iff.trans (by simp [Env.passes_cons])
  by_cases hhead₁ : env.script.headD .ok = .ok
  swap
  · -- the header fails, and nothing else is tried
    have hne := mt hok₁.mp hhead₁
    have hfail : ∀ next, Env.andThen (env.append w.dest head) next = env.append w.dest head :=
      fun next => if_neg (mt (Status.isOk_iff _).mp hne)
    have hnone : (env.append w.dest head).2.content w.dest = env.content w.dest := by
      rcases Env.append_cases w.dest head env with ⟨hok, -⟩ | ⟨-, hcontent⟩
      · exact absurd hok hne
      · exact hcontent
    rw [hfail, hfail, lost, if_neg hhead₁, if_pos rfl, ← Fragment.encode_length ⟨type, ptr⟩]
    exact gains_none hnone _
  have hgain := gains_append w.dest head env
  rw [if_pos hhead₁] at hgain
  have hscript : (env.append w.dest head).2.script = env.script.tail := by
    rw [(hfirst.passed ⟨fun _ => hhead₁, trivial⟩).2, ← List.drop_one]
    rfl
  rw [andThen_of_ok (hok₁.mpr hhead₁), lost, if_pos hhead₁, ← hscript, hencode]
  set env₁ := (env.append w.dest head).2 with henv₁
  have hgain₂ := gains_append w.dest ptr env₁
  have hflush : ∀ r : Status × Env,
      (Env.andThen r (Env.flush w.dest)).2.content w.dest = r.2.content w.dest := by
    intro r
    unfold Env.andThen
    split_ifs
    · exact (Env.others_flush w.dest r.2).content List.not_mem_nil
    · rfl
  have hlost : lost [(true, ptr.length), (true, 0)] env₁.script
      = if env₁.script.headD .ok = .ok then 0 else ptr.length := by
    simp [lost]
  have htotal := hgain.trans hgain₂
  rw [Nat.zero_add, ← hlost] at htotal
  obtain ⟨d, hcontent, hrest⟩ := htotal
  exact ⟨d, (hflush _).trans hcontent, hrest⟩

theorem switchBlock_gains {w w' : Writer} {env env' : Env} (h : w.switchBlock env = (w', env')) :
    Gains w.dest (zeros (padding w.blockOffset))
      (lost (if 0 < padding w.blockOffset then [(false, padding w.blockOffset)] else []) env.script)
      env env' := by
  have hotherwise : padding w.blockOffset = 0 → env' = env → Gains w.dest
      (zeros (padding w.blockOffset))
      (lost (if 0 < padding w.blockOffset then [(false, padding w.blockOffset)] else []) env.script)
      env env' := by
    rintro hzero rfl
    rw [hzero]
    exact Gains.refl _ _
  unfold switchBlock at h
  simp only at h
  by_cases hleft : kBlockSize - w.blockOffset < kHeaderSize
  swap
  · rw [if_neg hleft] at h
    cases h
    exact hotherwise (Reader.padding_of_ge hleft).1 rfl
  have hpad := (Reader.padding_of_lt hleft).1
  rw [if_pos hleft] at h
  by_cases hpos : 0 < kBlockSize - w.blockOffset
  swap
  · rw [if_neg hpos] at h
    cases h
    exact hotherwise (hpad.trans (by omega)) rfl
  rw [if_pos hpos] at h
  cases h
  have htake : (zeros 6).take (kBlockSize - w.blockOffset) = zeros (kBlockSize - w.blockOffset) := by
    have : kHeaderSize = 7 := rfl
    rw [zeros, List.take_replicate, Nat.min_eq_left (by omega), zeros]
  have hgain := gains_append w.dest (zeros (kBlockSize - w.blockOffset)) env
  have hlost : lost [(false, kBlockSize - w.blockOffset)] env.script
      = if env.script.headD .ok = .ok then 0 else kBlockSize - w.blockOffset := by
    simp [lost]
  rw [htake, hpad, if_pos hpos, hlost]
  rwa [zeros_length] at hgain

/-- **One turn**, whatever its operations do: the writer moves on by a physical record. -/
theorem addRecordTurn_gains (st : AddState) {uninit : U32}
    (hw : st.w.typeCrc = initTypeCrc uninit) (ho : st.w.blockOffset ≤ kBlockSize) :
    ∃ r : Status × Env, addRecordTurn st = .ok (
        let w := { st.w with
          blockOffset := next st.w.blockOffset (turnFragment st.w.blockOffset st.atBegin st.ptr) }
        if r.1.isOk && decide (avail st.w.blockOffset < st.ptr.length) then
          .inl ⟨false, st.ptr.drop (avail st.w.blockOffset), w, r.2⟩
        else .inr (r.1, w, r.2))
      ∧ Performs (turnOps st.w.blockOffset) st.env r
      ∧ Gains st.w.dest (layout st.w.blockOffset [turnFragment st.w.blockOffset st.atBegin st.ptr])
        (lost (turnAppends st.w.blockOffset (min (avail st.w.blockOffset) st.ptr.length))
          st.env.script) st.env r.2 := by
  obtain ⟨r, hturn, hr⟩ := addRecordTurn_performs st ho
  rw [← next_turnFragment st.w.blockOffset st.atBegin st.ptr] at hturn
  refine ⟨r, hturn, hr, ?_⟩
  -- the turn once more, part by part
  unfold addRecordTurn at hturn
  obtain ⟨_, -, hturn⟩ := bind_eq_ok.mp hturn
  obtain ⟨env₁, hswitch, hpad⟩ := switchBlock_performs st.w st.env
  have htrailer := switchBlock_gains hswitch
  simp only [hswitch] at hturn
  obtain ⟨_, -, hturn⟩ := bind_eq_ok.mp hturn
  obtain ⟨⟨s, w₂, env₂⟩, hemit, hturn⟩ := bind_eq_ok.mp hturn
  set o := st.w.blockOffset with hodef
  have havail : avail o = kBlockSize - start o - kHeaderSize := rfl
  rw [← havail] at hemit hturn
  have hmin : (if st.ptr.length < avail o then st.ptr.length else avail o)
      = min (avail o) st.ptr.length := by
    split_ifs <;> omega
  have hend : decide (st.ptr.length = min (avail o) st.ptr.length)
      = decide (st.ptr.length ≤ avail o) := by
    rw [decide_eq_decide]
    omega
  have htake : st.ptr.take (min (avail o) st.ptr.length) = st.ptr.take (avail o) := by
    simp
  rw [hmin, hend, htake] at hemit
  have hr₂ : r.2 = env₂ := by
    have henv := congrArg
      (Except.map (Sum.elim AddState.env fun r : Status × Writer × Env => r.2.2)) hturn
    simp only at henv
    split_ifs at henv <;> exact (Except.ok.inj henv).symm
  have hgain := emitPhysicalRecord_gains (w := { st.w with blockOffset := start o }) hw
    (fragmentType_ne_kLastType _ _) hemit
  rw [hr₂, turnAppends, lost_append_of_passes, ← List.length_take, layout, layout, List.append_nil]
  · refine htrailer.trans ?_
    have hscript : env₁.script = st.env.script.drop
        (if 0 < padding o then [(false, padding o)] else []).length := by
      rw [(hpad.passed (passes_trailerOps o _)).2]
      split_ifs <;> rfl
    rw [← hscript]
    exact hgain
  · split_ifs
    · exact ⟨fun he => absurd he Bool.false_ne_true, trivial⟩
    · trivial

/-- What a call has done whose physical records would be `whole`: the writer has gone on by the first
of them, and by all when the call succeeds; of their bytes, those that were lost are missing. -/
structure Emits (w : Writer) (whole : List Fragment) (ops : List (Bool × Nat)) (env : Env)
    (fs : List Fragment) (s : Status) (w' : Writer) (env' : Env) : Prop where
  ne_nil : fs ≠ []
  isPrefix : fs <+: whole
  eq_whole : s = .ok → fs = whole
  fits : Fits w.blockOffset fs
  writer : w' = { w with blockOffset := endOffset w.blockOffset fs }
  performs : Performs (ops.map Prod.fst) env (s, env')
  gains : Gains w.dest (layout w.blockOffset fs) (lost ops env.script) env env'

/-- The loop of `add_record`, by induction on the turns. -/
theorem run_emits {uninit : U32} (n : Nat) (st : AddState) (hw : st.w.typeCrc = initTypeCrc uninit)
    (ho : st.w.blockOffset ≤ kBlockSize)
    (hn : st.ptr.length + (if avail st.w.blockOffset = 0 then 1 else 0) < n) :
    ∃ s w' env' fs, Loop.run .endless addRecordTurn n st = .ok (s, w', env')
      ∧ Emits st.w (fragments n st.w.blockOffset st.atBegin st.ptr)
        (recordAppends n st.w.blockOffset st.ptr.length) st.env fs s w' env' := by
  induction n generalizing st with
  | zero => omega
  | succ n ih =>
      obtain ⟨r, hturn, hr, hgain⟩ := addRecordTurn_gains st hw ho
      set o := st.w.blockOffset with hodef
      set f := turnFragment o st.atBegin st.ptr with hf
      have hfits : Fits o [f] := ⟨fragmentType_ne_kZeroType _ _, next_turnFragment_le ho _ _, trivial⟩
      simp only at hturn
      rw [fragments, recordAppends]
      by_cases hle : st.ptr.length ≤ avail o
      · -- the turn is the last one
        rw [if_neg (by simp [hle])] at hturn
        rw [Nat.min_eq_right hle] at hgain
        simp only [if_pos hle]
        refine ⟨r.1, _, r.2, [f], Loop.run_inr _ hturn n, List.cons_ne_nil _ _, List.prefix_rfl,
          fun _ => rfl, hfits, rfl, ?_, hgain⟩
        rw [map_fst_turnAppends]
        exact hr
      have hlt : avail o < st.ptr.length := Nat.lt_of_not_le hle
      rw [Nat.min_eq_left hlt.le] at hgain
      simp only [if_neg hle]
      have hfst : (turnAppends o (avail o)).map Prod.fst = turnOps o := map_fst_turnAppends _ _
      by_cases hok : r.1 = .ok
      · rw [if_pos (by simp [hok]; omega)] at hturn
        have hpasses := hr.ok_iff.mp hok
        have hfull : next o f = kBlockSize := next_of_avail_lt ho hlt
        have hpos : avail kBlockSize ≠ 0 := by decide
        obtain ⟨s, w', env', fs, hrun, hemits⟩ := ih
          ⟨false, st.ptr.drop (avail o), { st.w with blockOffset := next o f }, r.2⟩ hw
          (le_of_eq hfull) (by
            show (st.ptr.drop (avail o)).length + (if avail (next o f) = 0 then 1 else 0) < n
            rw [hfull, if_neg hpos, List.length_drop]
            split_ifs at hn <;> omega)
        simp only [List.length_drop] at hemits
        have hlength : (turnAppends o (avail o)).length = (turnOps o).length := by
          rw [← hfst, List.length_map]
        refine ⟨s, w', env', f :: fs, ?_, List.cons_ne_nil _ _, ?_, fun hs => ?_, ?_, ?_, ?_, ?_⟩
        · rw [Loop.run_inl _ hturn]
          exact hrun
        · exact List.cons_prefix_cons.mpr ⟨rfl, hemits.isPrefix⟩
        · rw [hemits.eq_whole hs]
        · exact ⟨hfits.1, hfits.2.1, hemits.fits⟩
        · exact hemits.writer
        · rw [List.map_append, hfst, ← hfull]
          exact hr.trans (fun _ => hemits.performs) fun hne => absurd hok hne
        · rw [lost_append_of_passes (by rw [hfst]; exact hpasses), hlength,
            ← (hr.passed hpasses).2, ← hfull, ← List.singleton_append, layout_append]
          exact hgain.trans hemits.gains
      · rw [if_neg (by simp [mt (Status.isOk_iff _).mp hok])] at hturn
        have hnot : ¬ Passes ((turnAppends o (avail o)).map Prod.fst) st.env.script := by
          rw [hfst]
          exact mt hr.ok_iff.mpr hok
        refine ⟨r.1, _, r.2, [f], Loop.run_inr _ hturn n, List.cons_ne_nil _ _,
          List.cons_prefix_cons.mpr ⟨rfl, List.nil_prefix⟩, fun hs => absurd hs hok, hfits, rfl, ?_, ?_⟩
        · rw [List.map_append, hfst]
          exact hr.trans (fun he => absurd he hok) fun _ => hok
        · rw [lost_append_of_not_passes hnot]
          exact hgain

/-- **A call of `add_record`** returns, whatever its operations do. -/
theorem addRecord_emits {w : Writer} {uninit : U32} (hw : w.typeCrc = initTypeCrc uninit)
    (ho : w.blockOffset ≤ kBlockSize) (sle : Bytes) (env : Env) :
    ∃ s w' env' fs, w.addRecord sle env = .ok (s, w', env')
      ∧ Emits w (fragments (sle.length + 2) w.blockOffset true sle)
        (recordAppends (sle.length + 2) w.blockOffset sle.length) env fs s w' env' :=
  run_emits (sle.length + 2) ⟨true, sle, w, env⟩ hw ho (by
    simp only
    split_ifs <;> omega)

/-! ## Sequences of calls -/

/-- A call of `add_record`, with the writer and the files before it and behind it. -/
structure Call where
  w : Writer
  env : Env
  sle : Bytes
  s : Status
  w' : Writer
  env' : Env

/-- Calls of `add_record` one after the other, whatever they return. -/
def calls (w : Writer) : List Bytes → Env → Except Fault (List Call)
  | [], _ => return []
  | sle :: rs, env => do
      let (s, w', env') ← w.addRecord sle env
      let cs ← w'.calls rs env'
      return ⟨w, env, sle, s, w', env'⟩ :: cs

/-- The files behind some calls. -/
def endEnv (env : Env) (cs : List Call) : Env := cs.foldl (fun _ c => c.env') env

/-- The offset of the writer is the length of its file, up to whole blocks. -/
def Aligned (w : Writer) (env : Env) : Prop :=
  ∃ data, env.content w.dest = some data ∧ w.blockOffset % kBlockSize = data.length % kBlockSize

namespace Call

/-- The bytes that a call hands to its file, or would have to, and that do not get there. -/
def missing (c : Call) : Nat :=
  lost (recordAppends (c.sle.length + 2) c.w.blockOffset c.sle.length) c.env.script

/-- The file has gained the record, in physical records none of which straddles a block. -/
def Placed (c : Call) : Prop :=
  ∃ data d xs, c.env.content c.w.dest = some data ∧ c.env'.content c.w.dest = some (data ++ d)
    ∧ Laid data.length d xs ∧ (xs.map fun x => x.2.payload).flatten = c.sle

end Call

theorem payload_fragments (n o : Nat) (b : Bool) (ptr : Bytes) (ho : o ≤ kBlockSize)
    (hn : ptr.length + (if avail o = 0 then 1 else 0) < n) :
    ((fragments n o b ptr).map Fragment.payload).flatten = ptr := by
  induction n generalizing o b ptr with
  | zero => omega
  | succ n ih =>
      rw [fragments]
      by_cases hle : ptr.length ≤ avail o
      · simp only [if_pos hle, List.map_cons, List.map_nil, List.flatten_cons, List.flatten_nil,
          List.append_nil, turnFragment, List.take_of_length_le hle]
      · have hfull : next o (turnFragment o b ptr) = kBlockSize :=
          next_of_avail_lt ho (Nat.lt_of_not_le hle)
        have hpos : avail kBlockSize ≠ 0 := by decide
        have hrest := ih (next o (turnFragment o b ptr)) false (ptr.drop (avail o)) hfull.le (by
          rw [hfull, if_neg hpos, List.length_drop]
          split_ifs at hn <;> omega)
        simp only [if_neg hle, List.map_cons, List.flatten_cons, hrest]
        exact List.take_append_drop _ _

/-- Only the trailer can be missing when a call succeeds. -/
theorem lost_recordAppends_le {n o length : Nat} {script : List Status} (ho : o ≤ kBlockSize)
    (h : Passes ((recordAppends n o length).map Prod.fst) script) :
    lost (recordAppends n o length) script ≤ padding o := by
  have hturn : ∀ (o length : Nat) (script : List Status), Passes (turnOps o) script →
      lost (turnAppends o length) script ≤ padding o := by
    intro o length script hp
    unfold turnOps at hp
    unfold turnAppends
    split_ifs at hp ⊢ with hpos
    · obtain ⟨-, hp₁, hp₂, hp₃, -⟩ := hp
      simp only [List.singleton_append, lost, hp₁ rfl, hp₂ rfl, hp₃ rfl, if_true,
        Bool.false_eq_true, if_false]
      split_ifs <;> omega
    · obtain ⟨hp₁, hp₂, hp₃, -⟩ := hp
      simp only [List.nil_append, lost, hp₁ rfl, hp₂ rfl, hp₃ rfl, if_true]
      omega
  induction n generalizing o length script with
  | zero => exact Nat.zero_le _
  | succ n ih =>
      rw [recordAppends] at h ⊢
      split_ifs at h ⊢ with hle
      · rw [map_fst_turnAppends] at h
        exact hturn o length script h
      · rw [List.map_append, map_fst_turnAppends, Env.passes_append] at h
        have hlength : (turnAppends o (avail o)).length = (turnOps o).length := by
          rw [← map_fst_turnAppends o (avail o), List.length_map]
        rw [lost_append_of_passes (by rw [map_fst_turnAppends]; exact h.1), hlength]
        have hfirst := hturn o (avail o) script h.1
        have hzero : padding kBlockSize = 0 := by decide
        have hrest := ih le_rfl h.2
        omega

/-- Where the bytes of a call went. -/
theorem Emits.content {w w' : Writer} {whole fs : List Fragment} {ops : List (Bool × Nat)}
    {env env' : Env} {s : Status} {data : Bytes} (h : Emits w whole ops env fs s w' env')
    (hdata : env.content w.dest = some data) :
    ∃ d, env'.content w'.dest = some (data ++ d)
      ∧ d.length + lost ops env.script = (layout w.blockOffset fs).length
      ∧ (lost ops env.script = 0 → d = layout w.blockOffset fs) := by
  obtain ⟨d, hcontent, hd⟩ := h.gains
  rw [hdata, Option.map_some] at hcontent
  rw [h.writer]
  exact ⟨d, hcontent, hd⟩

/-- A writer that is at the end of its file stays there if and only if no bytes are missing, or
whole blocks of them. -/
theorem Emits.aligned_iff {w w' : Writer} {whole fs : List Fragment} {ops : List (Bool × Nat)}
    {env env' : Env} {s : Status} (h : Emits w whole ops env fs s w' env')
    (ho : w.blockOffset ≤ kBlockSize) (haligned : Aligned w env) :
    Aligned w' env' ↔ kBlockSize ∣ lost ops env.script := by
  obtain ⟨data, hdata, ho'⟩ := haligned
  obtain ⟨d, hcontent, hlength, -⟩ := h.content hdata
  have hend := endOffset_mod ho h.fits
  have hw' : w'.blockOffset = endOffset w.blockOffset fs := by rw [h.writer]
  unfold kBlockSize at ho' hend ⊢
  constructor
  · rintro ⟨data', hdata', hoffset⟩
    cases hcontent.symm.trans hdata'
    rw [hw', List.length_append] at hoffset
    unfold kBlockSize at hoffset
    omega
  · intro hdvd
    refine ⟨data ++ d, hcontent, ?_⟩
    rw [hw', List.length_append]
    unfold kBlockSize
    omega

theorem Aligned.offset {w : Writer} {env : Env} {data : Bytes} (h : Aligned w env)
    (ho : w.blockOffset ≤ kBlockSize) (hdata : env.content w.dest = some data) :
    Offset w.blockOffset data.length := by
  obtain ⟨data', hdata', hoffset⟩ := h
  cases hdata.symm.trans hdata'
  unfold Offset
  unfold kBlockSize at ho hoffset ⊢
  omega

/-- One call on a writer that is at the end of its file. -/
theorem Call.aligned_iff {c : Call} {uninit : U32} (hw : c.w.typeCrc = initTypeCrc uninit)
    (ho : c.w.blockOffset ≤ kBlockSize) (haligned : Aligned c.w c.env)
    (hcall : c.w.addRecord c.sle c.env = .ok (c.s, c.w', c.env')) :
    (Aligned c.w' c.env' ↔ kBlockSize ∣ c.missing)
      ∧ (kBlockSize ∣ c.missing → c.s = .ok → c.Placed) := by
  obtain ⟨s, w', env', fs, hrun, hemits⟩ := addRecord_emits hw ho c.sle c.env
  cases hcall.symm.trans hrun
  refine ⟨hemits.aligned_iff ho haligned, fun hdvd hs => ?_⟩
  obtain ⟨data, hdata, -⟩ := id haligned
  obtain ⟨d, hcontent, -, hall⟩ := hemits.content hdata
  have hoffset := haligned.offset ho hdata
  -- at most a trailer is missing, which is less than a block
  have hle := lost_recordAppends_le ho (hemits.performs.ok_iff.mp hs)
  have hzero : lost (recordAppends (c.sle.length + 2) c.w.blockOffset c.sle.length) c.env.script = 0 := by
    refine Nat.eq_zero_of_dvd_of_lt hdvd ?_
    rcases padding_eq_zero_or hoffset with hz | ⟨-, hsix, -⟩
    · rw [hz] at hle
      exact lt_of_le_of_lt hle (by decide)
    · exact lt_of_le_of_lt (hle.trans hsix) (by decide)
  have hdest : c.w'.dest = c.w.dest := by rw [hemits.writer]
  rw [hall hzero, hdest] at hcontent
  refine ⟨data, _, _, hdata, hcontent, laid_layout hoffset hemits.fits, ?_⟩
  rw [map_payload_place, hemits.eq_whole hs]
  refine payload_fragments _ _ _ _ ho ?_
  split_ifs <;> omega

/-- **The writer stays aligned** over a sequence of calls if and only if no call loses bytes other
than whole blocks. Then a record that is added successfully, also after calls that have failed, has
no physical record that straddles a block. -/
theorem calls_aligned_iff (dest data : Bytes) (uninit : U32) (rs : List Bytes) (env : Env)
    (hdata : env.content dest = some data) :
    ∃ cs, (newAt dest data.length uninit).calls rs env = .ok cs ∧ cs.map Call.sle = rs
      ∧ ((∀ c ∈ cs, Aligned c.w' c.env' ∧ (c.s = .ok → c.Placed))
        ↔ ∀ c ∈ cs, kBlockSize ∣ c.missing) := by
  suffices h : ∀ (w : Writer) (env : Env), w.typeCrc = initTypeCrc uninit →
      w.blockOffset ≤ kBlockSize → ∃ cs, w.calls rs env = .ok cs ∧ cs.map Call.sle = rs
        ∧ (Aligned w env → ((∀ c ∈ cs, Aligned c.w' c.env' ∧ (c.s = .ok → c.Placed))
          ↔ ∀ c ∈ cs, kBlockSize ∣ c.missing)) by
    obtain ⟨cs, hcalls, hsle, hiff⟩ := h (newAt dest data.length uninit) env rfl
      (Nat.mod_lt _ (by decide)).le
    exact ⟨cs, hcalls, hsle, hiff ⟨data, hdata, Nat.mod_mod _ _⟩⟩
  induction rs with
  | nil => exact fun w env _ _ => ⟨[], rfl, rfl, fun _ => by simp⟩
  | cons sle rs ih =>
      intro w env hw ho
      obtain ⟨s, w', env', fs, hrun, hemits⟩ := addRecord_emits hw ho sle env
      have hw' := hemits.writer
      obtain ⟨cs, hcalls, hsle, hiff⟩ := ih w' env' (by rw [hw']; exact hw)
        (by rw [hw']; exact endOffset_le ho hemits.fits)
      refine ⟨⟨w, env, sle, s, w', env'⟩ :: cs, ?_, by rw [List.map_cons, hsle], fun haligned => ?_⟩
      · rw [calls, hrun]
        simp only [ok_bind, hcalls]
        rfl
      · obtain ⟨hfirst, hplaced⟩ := Call.aligned_iff (c := ⟨w, env, sle, s, w', env'⟩) hw ho
          haligned hrun
        rw [List.forall_mem_cons, List.forall_mem_cons]
        constructor
        · rintro ⟨⟨hnext, -⟩, hrest⟩
          exact ⟨hfirst.mp hnext, (hiff hnext).mp hrest⟩
        · rintro ⟨hdvd, hrest⟩
          have hnext := hfirst.mpr hdvd
          exact ⟨⟨hnext, hplaced hdvd⟩, (hiff hnext).mpr hrest⟩

/-- An empty file, and the outcomes of the operations on it. -/
def failingEnv (script : List Status) : Env := { emptyFileEnv (text "log") with script := script }

/-- The header of the second record fails. -/
theorem calls_aligned_iff_second : ∃ cs,
    (newAt (text "log") (text "").length 0).calls [text "a", text "b"]
        (failingEnv [.ok, .ok, .ok, .ioError (text "disk")]) = .ok cs
      ∧ cs.map Call.sle = [text "a", text "b"]
      ∧ ((∀ c ∈ cs, Aligned c.w' c.env' ∧ (c.s = .ok → c.Placed))
        ↔ ∀ c ∈ cs, kBlockSize ∣ c.missing) :=
  calls_aligned_iff (text "log") (text "") 0 _ _ rfl

/-- The header of a record fails: the writer's offset is 8, and the file is empty. -/
theorem not_calls_aligned : ¬ ∀ (dest data : Bytes) (uninit : U32) (rs : List Bytes) (env : Env)
    (cs : List Call), env.content dest = some data →
    (newAt dest data.length uninit).calls rs env = .ok cs →
    ∀ c ∈ cs, Aligned c.w' c.env' ∧ (c.s = .ok → c.Placed) := by
  intro hall
  have hrun : ((newAt (text "log") 0 0).calls [text "a"] (failingEnv [.ioError (text "disk")])).toOption.map
      (fun cs => cs.map fun c => (c.w'.blockOffset, (c.env'.content c.w'.dest).map List.length))
      = some [(8, some 0)] := by decide +kernel
  obtain ⟨cs, hcs, hmap⟩ := Option.map_eq_some_iff.mp hrun
  obtain ⟨c, rfl, hc⟩ := List.map_eq_singleton_iff.mp hmap
  obtain ⟨⟨data, hdata, haligned⟩, -⟩ := hall (text "log") [] 0 [text "a"]
    (failingEnv [.ioError (text "disk")]) [c] rfl (toOption_eq_some.mp hcs) c List.mem_cons_self
  rw [hdata, Option.map_some, Prod.mk.injEq, Option.some.injEq] at hc
  rw [hc.1, hc.2] at haligned
  exact absurd haligned (by decide)

end Writer

end SimpleLeveldb.Log
