import SimpleLeveldb.Log.Alignment

set_option autoImplicit false

/-! # What calls leave in the file

On a file that loses nothing, calls of `add_record` leave physical records, each inside a block, and
trailers of zeros at the ends of blocks. The physical records of one call begin with a full or a
first one, and make up the record, unless a flush has failed and the call has ended early.
-/

namespace SimpleLeveldb.Log.Writer

open Env (Passes)

/-! ## The physical records of a call -/

/-- The payloads of physical records, one after the other. -/
def payloads (xs : List (Nat × Fragment)) : Bytes := (xs.map fun x => x.2.payload).flatten

/-- The physical records `xs` are the first of those that the record of the call becomes. -/
structure Call.Emitted (c : Call) (xs : List (Nat × Fragment)) : Prop where
  ne_nil : xs ≠ []
  head : ∀ x ∈ xs.head?, x.2.type = .kFullType ∨ x.2.type = .kFirstType
  tail : ∀ x ∈ xs.tail, x.2.type ≠ .kFullType ∧ x.2.type ≠ .kFirstType
  isPrefix : payloads xs <+: c.sle

theorem payloads_place (pos : Nat) (fs : List Fragment) :
    payloads (place pos fs) = (fs.map Fragment.payload).flatten := by
  rw [payloads, map_payload_place]

theorem type_fragments (n o : Nat) (ptr : Bytes) :
    ∀ f ∈ fragments n o false ptr, f.type = .kMiddleType := by
  induction n generalizing o ptr with
  | zero => exact fun f hf => absurd hf List.not_mem_nil
  | succ n ih =>
      intro f hf
      rw [fragments] at hf
      rcases List.mem_cons.mp hf with rfl | hf
      · rfl
      · split_ifs at hf
        · exact absurd hf List.not_mem_nil
        · exact ih _ _ f hf

/-- **One call**: its physical records, wherever they are. -/
theorem Emits.emitted {c : Call} {n : Nat} {ops : List (Bool × Nat)} {fs : List Fragment}
    (ho : c.w.blockOffset ≤ kBlockSize)
    (hn : c.sle.length + (if avail c.w.blockOffset = 0 then 1 else 0) < n + 1)
    (h : Emits c.w (fragments (n + 1) c.w.blockOffset true c.sle) ops c.env fs c.s c.w' c.env')
    (pos : Nat) :
    c.Emitted (place pos fs) ∧ (c.s = .ok → payloads (place pos fs) = c.sle) := by
  have hpayload := payload_fragments (n + 1) c.w.blockOffset true c.sle ho hn
  refine ⟨⟨?_, ?_, ?_, ?_⟩, fun hs => ?_⟩
  · intro hnil
    refine h.ne_nil ?_
    rw [← map_snd_place pos fs, hnil]
    rfl
  · intro x hx
    obtain ⟨f, fs', rfl⟩ := List.exists_cons_of_ne_nil h.ne_nil
    obtain rfl : f = turnFragment c.w.blockOffset true c.sle := by
      have hprefix := h.isPrefix
      rw [fragments] at hprefix
      exact (List.cons_prefix_cons.mp hprefix).1
    cases hx
    unfold turnFragment fragmentType
    by_cases hle : c.sle.length ≤ avail c.w.blockOffset
    · exact .inl (by simp [hle])
    · exact .inr (by simp [hle])
  · intro x hx
    obtain ⟨f, fs', rfl⟩ := List.exists_cons_of_ne_nil h.ne_nil
    have hprefix := h.isPrefix
    rw [fragments] at hprefix
    have hmem : x.2 ∈ fs' := by
      rw [← map_snd_place (behind pos f) fs']
      exact List.mem_map_of_mem hx
    have htype : x.2.type = .kMiddleType := by
      have hrest := (List.cons_prefix_cons.mp hprefix).2.subset hmem
      split_ifs at hrest
      · exact absurd hrest List.not_mem_nil
      · exact type_fragments _ _ _ _ hrest
    rw [htype]
    exact ⟨RecordType.noConfusion, RecordType.noConfusion⟩
  · rw [payloads_place]
    obtain ⟨gs, hgs⟩ := h.isPrefix
    refine ⟨(gs.map Fragment.payload).flatten, ?_⟩
    rw [← List.flatten_append, ← List.map_append, hgs, hpayload]
  · rw [payloads_place, h.eq_whole hs, hpayload]

/-! ## Sequences of calls -/

theorem lost_of_allOk {script : List Status} (h : ∀ s ∈ script, s = .ok) (ops : List (Bool × Nat)) :
    lost ops script = 0 := by
  induction ops generalizing script with
  | nil => rfl
  | cons op ops ih =>
      have hok : script.headD .ok = .ok := by
        cases script with
        | nil => rfl
        | cons s script => exact h s List.mem_cons_self
      rw [lost, if_pos hok]
      exact ih fun s hs => h s (List.mem_of_mem_tail hs)

@[simp] theorem endEnv_cons (env : Env) (c : Call) (cs : List Call) :
    endEnv env (c :: cs) = endEnv c.env' cs := rfl

/-- **The layout of a log.** Calls return whatever happens, and no assertion fails. When no bytes get
lost, the file has gained physical records inside blocks and trailers of 1 to 6 zeros at the ends of
blocks; the physical records come call by call, and make up the records of the calls that succeed. -/
theorem calls_laid (dest data : Bytes) (destLength : Nat) (uninit : U32) (rs : List Bytes) (env : Env)
    (hdata : env.content dest = some data) :
    ∃ cs, (newAt dest destLength uninit).calls rs env = .ok cs ∧ cs.map Call.sle = rs
      ∧ (env.AllOk → ∀ c ∈ cs, c.s = .ok ∧ c.missing = 0)
      ∧ ((∀ c ∈ cs, c.missing = 0) → ∃ d xss, (endEnv env cs).content dest = some (data ++ d)
        ∧ Laid destLength d xss.flatten
        ∧ List.Forall₂ (fun c xs => c.Emitted xs ∧ (c.s = .ok → payloads xs = c.sle)) cs xss) := by
  suffices h : ∀ (w : Writer) (env : Env) (data : Bytes) (pos : Nat), w.typeCrc = initTypeCrc uninit →
      w.blockOffset ≤ kBlockSize → Offset w.blockOffset pos → env.content w.dest = some data →
      ∃ cs, w.calls rs env = .ok cs ∧ cs.map Call.sle = rs
        ∧ (env.AllOk → ∀ c ∈ cs, c.s = .ok ∧ c.missing = 0)
        ∧ ((∀ c ∈ cs, c.missing = 0) → ∃ d xss, (endEnv env cs).content w.dest = some (data ++ d)
          ∧ Laid pos d xss.flatten
          ∧ List.Forall₂ (fun c xs => c.Emitted xs ∧ (c.s = .ok → payloads xs = c.sle)) cs xss) from
    h (newAt dest destLength uninit) env data destLength rfl (Nat.mod_lt _ (by decide)).le (.inl rfl)
      hdata
  induction rs with
  | nil =>
      intro w env data pos _ _ _ hdata
      refine ⟨[], rfl, rfl, fun _ => by simp, fun _ => ⟨[], [], ?_, .nil pos, .nil⟩⟩
      rw [List.append_nil]
      exact hdata
  | cons sle rs ih =>
      intro w env data pos hw ho hoffset hdata
      obtain ⟨s, w', env', fs, hrun, hemits⟩ := addRecord_emits hw ho sle env
      obtain ⟨d, hcontent, hlength, hall⟩ := hemits.content hdata
      have hw' := hemits.writer
      have hdest : w'.dest = w.dest := by rw [hw']
      obtain ⟨cs, hcalls, hsle, hallOk, hlaid⟩ := ih w' env' (data ++ d) (advance pos fs)
        (by rw [hw']; exact hw) (by rw [hw']; exact endOffset_le ho hemits.fits)
        (by rw [hw']; exact offset_advance hoffset hemits.fits) hcontent
      refine ⟨⟨w, env, sle, s, w', env'⟩ :: cs, ?_, by rw [List.map_cons, hsle], fun hok => ?_,
        fun hmissing => ?_⟩
      · rw [calls, hrun]
        simp only [ok_bind, hcalls]
        rfl
      · obtain ⟨hs, hscript⟩ := hemits.performs.passed (hok.passes _)
        simp only at hs hscript
        have hok' : env'.AllOk := fun s hmem => by
          rw [hscript] at hmem
          exact hok s (List.mem_of_mem_drop hmem)
        exact List.forall_mem_cons.mpr ⟨⟨hs, lost_of_allOk hok _⟩, hallOk hok'⟩
      · obtain ⟨hzero, hrest⟩ := List.forall_mem_cons.mp hmissing
        obtain ⟨d', xss, hcontent', hlaid', hforall⟩ := hlaid hrest
        have hd := hall hzero
        refine ⟨d ++ d', place pos fs :: xss, ?_, ?_, .cons ?_ hforall⟩
        · rw [endEnv_cons, ← hdest, hcontent', List.append_assoc]
        · rw [List.flatten_cons, hd]
          refine (laid_layout hoffset hemits.fits).append ?_
          rwa [length_layout hoffset hemits.fits]
        · exact Emits.emitted (c := ⟨w, env, sle, s, w', env'⟩) ho
            (by simp only; split_ifs <;> omega) hemits pos

theorem calls_laid_first : ∃ cs,
    (newAt (text "log") 32765 0).calls [text "a", []] (failingEnv []) = .ok cs
      ∧ cs.map Call.sle = [text "a", []]
      ∧ ((failingEnv []).AllOk → ∀ c ∈ cs, c.s = .ok ∧ c.missing = 0)
      ∧ ((∀ c ∈ cs, c.missing = 0) → ∃ d xss,
        (endEnv (failingEnv []) cs).content (text "log") = some ([] ++ d)
        ∧ Laid 32765 d xss.flatten
        ∧ List.Forall₂ (fun c xs => c.Emitted xs ∧ (c.s = .ok → payloads xs = c.sle)) cs xss) :=
  calls_laid (text "log") [] 32765 0 _ _ rfl

/-- Physical records take the bytes of their headers and payloads. -/
theorem length_le_of_laid {pos : Nat} {d : Bytes} {xs : List (Nat × Fragment)} (h : Laid pos d xs) :
    kHeaderSize * xs.length + (payloads xs).length ≤ d.length := by
  induction h with
  | nil pos => exact Nat.zero_le _
  | @record pos f rest xs _ _ ih =>
      have hpayloads : payloads ((pos, f) :: xs) = f.payload ++ payloads xs := rfl
      rw [hpayloads, List.length_cons, List.length_append, List.length_append, Fragment.encode_length,
        Nat.mul_succ]
      omega
  | trailer _ _ _ _ ih =>
      rw [List.length_append]
      omega

/-- A file with room for one byte in its first block, on which the third operation fails. -/
def unflushedEnv : Env where
  files := AList.insert (text "log") { data := zeros 32760 } ∅
  script := [.ok, .ok, .ioError (text "disk")]

/-- All appends succeed, and the flush of the first physical record fails: the second byte of the
record is not written. -/
theorem not_calls_whole : ¬ ∀ (dest data : Bytes) (destLength : Nat) (uninit : U32) (rs : List Bytes)
    (env : Env) (cs : List Call), env.content dest = some data →
    (newAt dest destLength uninit).calls rs env = .ok cs → (∀ c ∈ cs, c.missing = 0) →
    ∃ d xss, (endEnv env cs).content dest = some (data ++ d) ∧ Laid destLength d xss.flatten
      ∧ List.Forall₂ (fun c xs => c.Emitted xs ∧ payloads xs = c.sle) cs xss := by
  intro hall
  set w := newAt (text "log") 32760 0 with hwriter
  have hcrc : w.typeCrc = initTypeCrc 0 := rfl
  obtain ⟨s, w', env', fs, hrun, hemits⟩ := addRecord_emits hcrc
    (show w.blockOffset ≤ kBlockSize by decide) (text "ab") unflushedEnv
  have hvalue : (w.addRecord (text "ab") unflushedEnv).toOption.map (fun r => r.2.1.blockOffset)
      = some 32768 := by decide +kernel
  rw [hrun] at hvalue
  have hend : endOffset 32760 fs = 32768 := by
    have hoffset := Option.some.inj hvalue
    rwa [hemits.writer] at hoffset
  -- the first physical record only
  have hone : fs = [⟨.kFirstType, text "a"⟩] := by
    have hprefix : fs <+: [⟨.kFirstType, text "a"⟩, ⟨.kMiddleType, text "b"⟩] := hemits.isPrefix
    rcases List.prefix_cons_iff.mp hprefix with rfl | ⟨fs', rfl, hrest⟩
    · exact absurd rfl hemits.ne_nil
    rcases List.prefix_cons_iff.mp hrest with rfl | ⟨fs'', rfl, hrest⟩
    · rfl
    · rw [List.prefix_nil.mp (List.cons_prefix_cons.mp hrest).2] at hend
      exact absurd hend (by decide)
  have hdata : unflushedEnv.content w.dest = some (zeros 32760) := rfl
  have hmissing : lost (recordAppends 4 32760 2) unflushedEnv.script = 0 := by decide
  obtain ⟨d₀, hcontent₀, -, hall₀⟩ := hemits.content hdata
  have hd₀ : d₀.length = 8 := by
    rw [hall₀ hmissing, hone]
    rfl
  have hdest : w'.dest = text "log" := congrArg Writer.dest hemits.writer
  have hcalls : w.calls [text "ab"] unflushedEnv
      = .ok [⟨w, unflushedEnv, text "ab", s, w', env'⟩] := by
    rw [calls, hrun]
    rfl
  obtain ⟨d, xss, hcontent, hlaid, hforall⟩ := hall (text "log") (zeros 32760) 32760 0 [text "ab"]
    unflushedEnv _ rfl hcalls fun c hc => by
      rw [List.mem_singleton.mp hc]
      exact hmissing
  obtain ⟨xs, rest, ⟨hemitted, hpayloads⟩, hnil, rfl⟩ := List.forall₂_cons_left_iff.mp hforall
  obtain rfl := List.forall₂_nil_left_iff.mp hnil
  have hlength := length_le_of_laid hlaid
  rw [List.flatten_cons, List.flatten_nil, List.append_nil, hpayloads] at hlength
  have hpos := List.length_pos_of_ne_nil hemitted.ne_nil
  have hd : d = d₀ := by
    rw [hdest] at hcontent₀
    exact List.append_cancel_left (Option.some.inj (hcontent.symm.trans hcontent₀))
  have htwo : (text "ab").length = 2 := rfl
  have hH : kHeaderSize = 7 := rfl
  rw [hd, hd₀, hH] at hlength
  simp only at hlength
  omega

end SimpleLeveldb.Log.Writer
