import SimpleLeveldb.Disk
import SimpleLeveldb.Outcomes
import SimpleLeveldb.Log.Continue
import SimpleLeveldb.Log.Reports

set_option autoImplicit false

/-! # Whole records

A record that fits into its block becomes one physical record. Here such a record is appended to
a file while any operation may fail: the file ends in all of its bytes, or in a torn beginning of
them, and reading it gives the records that are complete.
-/

namespace SimpleLeveldb

namespace Env

/-! ## The bytes of a file -/

/-- The bytes of a file. -/
def content (fname : Bytes) (env : Env) : Option Bytes := (env.files.lookup fname).map File.data

theorem Others.content {names : List Bytes} {env env' : Env} (h : Others names env env')
    {fname : Bytes} (hne : fname ∉ names) : env'.content fname = env.content fname :=
  congrArg (Option.map File.data) (h fname hne)

/-- An append has happened, or it has failed. -/
theorem append_cases (fname data : Bytes) (env : Env) :
    ((env.append fname data).1 = .ok
        ∧ (env.append fname data).2.content fname = (env.content fname).map (· ++ data))
      ∨ ((env.append fname data).1 ≠ .ok
        ∧ (env.append fname data).2.content fname = env.content fname) := by
  by_cases hok : (env.append fname data).1 = .ok
  · refine .inl ⟨hok, ?_⟩
    rw [content, lookup_append hok, content, Option.map_map, Option.map_map]
    rfl
  · refine .inr ⟨hok, ?_⟩
    rcases act_cases env fun env =>
      (.ok, env.modify fname fun f => { f with data := f.data ++ data }) with ⟨-, hfiles⟩ | ⟨script, hact⟩
    · exact congrArg (fun files => (files.lookup fname).map File.data) hfiles
    · exact absurd (congrArg Prod.fst hact) hok

theorem content_sync (fname g : Bytes) (env : Env) :
    (env.sync fname).2.content g = env.content g := by
  rcases act_cases env fun env =>
    (.ok, env.modify fname fun f => { f with synced := f.data.length }) with ⟨-, hfiles⟩ | ⟨script, hact⟩
  · exact congrArg (fun files => (files.lookup g).map File.data) hfiles
  · have hsync : (env.sync fname).2 = ({ env with script := script } : Env).modify fname
        fun f => { f with synced := f.data.length } := congrArg Prod.snd hact
    rw [hsync]
    by_cases hg : g = fname
    · subst hg
      rw [content, lookup_modify, Option.map_map]
      rfl
    · rw [content, lookup_modify_ne _ hg]
      rfl

/-! ## Failures that nobody looks at -/

/-- As long as the operations `ops` succeed, none of them fails whose status is ignored. -/
def IgnoresNone : List Bool → List Status → Prop
  | [], _ => True
  | looked :: ops, script =>
      (looked = false → script.headD .ok = .ok)
        ∧ (script.headD .ok = .ok → IgnoresNone ops script.tail)

instance decidableIgnoresNone : (ops : List Bool) → (script : List Status) →
    Decidable (IgnoresNone ops script)
  | [], _ => isTrue trivial
  | looked :: ops, script =>
      have := decidableIgnoresNone ops script.tail
      inferInstanceAs (Decidable ((looked = false → script.headD .ok = .ok)
        ∧ (script.headD .ok = .ok → IgnoresNone ops script.tail)))

/-- When every operation to come succeeds, none fails that is ignored. -/
theorem AllOk.ignoresNone {env : Env} (h : env.AllOk) (ops : List Bool) :
    IgnoresNone ops env.script := by
  unfold AllOk at h
  revert h
  generalize env.script = script
  induction ops generalizing script with
  | nil => exact fun _ => trivial
  | cons looked ops ih =>
      intro h
      refine ⟨fun _ => ?_, fun _ => ih script.tail fun s hs => h s (List.mem_of_mem_tail hs)⟩
      cases script with
      | nil => rfl
      | cons s script => exact h s List.mem_cons_self

theorem ignoresNone_append {ops ops' : List Bool} {script : List Status}
    (h : IgnoresNone (ops ++ ops') script) :
    IgnoresNone ops script ∧ (Passes ops script → IgnoresNone ops' (script.drop ops.length)) := by
  induction ops generalizing script with
  | nil => exact ⟨trivial, fun _ => h⟩
  | cons looked ops ih =>
      obtain ⟨hhead, hrest⟩ := h
      refine ⟨⟨hhead, fun hok => (ih (hrest hok)).1⟩, fun hp => ?_⟩
      have hok : script.headD .ok = .ok := by
        cases looked with
        | false => exact hhead rfl
        | true => exact hp.1 rfl
      have htail := (ih (hrest hok)).2 hp.2
      rwa [← List.drop_one, List.drop_drop, Nat.add_comm] at htail

/-! ## Appending -/

/-- The bytes `bytes` are appended to a file: all of them, when the appends `ops` succeed, and
otherwise a proper beginning. -/
structure Adds (fname bytes : Bytes) (ops : List Bool) (env env' : Env) : Prop where
  others : Others [fname] env env'
  whole : Passes ops env.script → env'.content fname = (env.content fname).map (· ++ bytes)
  torn : ¬ Passes ops env.script →
    ∃ n < bytes.length, env'.content fname = (env.content fname).map (· ++ bytes.take n)

/-- Nothing is added to the file afterwards. -/
theorem Adds.same {fname bytes : Bytes} {ops : List Bool} {env env' env'' : Env}
    (h : Adds fname bytes ops env env') (ho : Others [fname] env' env'')
    (hsame : env''.content fname = env'.content fname) : Adds fname bytes ops env env'' where
  others := h.others.trans ho
  whole := fun hp => hsame.trans (h.whole hp)
  torn := fun hp => by
    obtain ⟨n, hn, htorn⟩ := h.torn hp
    exact ⟨n, hn, hsame.trans htorn⟩

/-- Bytes have been added before. -/
theorem Adds.behind {fname before bytes : Bytes} {ops ops' : List Bool} {env env₁ env' : Env}
    (h : Adds fname bytes ops' env₁ env') (ho : Others [fname] env env₁)
    (hbefore : env₁.content fname = (env.content fname).map (· ++ before))
    (hpasses : Passes ops env.script ↔ Passes ops' env₁.script) :
    Adds fname (before ++ bytes) ops env env' := by
  have hmap : ∀ (o : Option Bytes) (a b : Bytes), (o.map (· ++ a)).map (· ++ b)
      = o.map (· ++ (a ++ b)) := by
    intro o a b
    cases o <;> simp
  refine ⟨ho.trans h.others, fun hp => ?_, fun hp => ?_⟩
  · rw [h.whole (hpasses.mp hp), hbefore, hmap]
  · obtain ⟨n, hn, htorn⟩ := h.torn fun hp' => hp (hpasses.mpr hp')
    refine ⟨before.length + n, by rw [List.length_append]; omega, ?_⟩
    have htake : (before ++ bytes).take (before.length + n) = before ++ bytes.take n := by
      rw [List.take_append, Nat.add_sub_cancel_left,
        List.take_of_length_le (Nat.le_add_right before.length n)]
    rw [htorn, hbefore, hmap, htake]

end Env

namespace Log

open Env (Performs Passes Adds IgnoresNone)

namespace Writer

/-- A physical record is appended in two parts. -/
theorem emitPhysicalRecord_adds {w w' : Writer} {uninit : U32}
    (hw : w.typeCrc = initTypeCrc uninit) {type : RecordType} (ht : type ≠ .kLastType) {ptr : Bytes}
    (hptr : ptr ≠ []) {env env' : Env} {s : Status}
    (h : w.emitPhysicalRecord type ptr env = .ok (s, w', env')) :
    Adds w.dest (Fragment.encode ⟨type, ptr⟩) [true, true] env env' := by
  unfold emitPhysicalRecord at h
  obtain ⟨_, -, h⟩ := bind_eq_ok.mp h
  obtain ⟨_, -, h⟩ := bind_eq_ok.mp h
  cases h
  rw [hw, extend_typeCrc uninit ht]
  set head := header type (Fragment.crc ⟨type, ptr⟩) ptr.length with hhead
  have hlen : head.length = kHeaderSize := header_length _ _ _
  have hencode : Fragment.encode ⟨type, ptr⟩ = head ++ ptr := rfl
  have hpos := List.length_pos_of_ne_nil hptr
  have hfirst := Env.performs_append w.dest head env
  have hothers := Env.others_append w.dest head env
  rcases Env.append_cases w.dest head env with ⟨hok₁, hc₁⟩ | ⟨hne₁, hc₁⟩
  swap
  · have hfail : ∀ next, Env.andThen (env.append w.dest head) next = env.append w.dest head :=
      fun next => if_neg (mt (Status.isOk_iff _).mp hne₁)
    have hnot : ¬ Passes [true, true] env.script := by
      intro hp
      exact hne₁ (hfirst.passed ⟨hp.1, trivial⟩).1
    rw [hfail, hfail]
    refine ⟨hothers, fun hp => absurd hp hnot, fun _ => ⟨0, ?_, ?_⟩⟩
    · rw [hencode, List.length_append]
      omega
    · rw [hc₁, List.take_zero]
      simp
  set env₁ := (env.append w.dest head).2 with henv₁
  have hscript : env₁.script = env.script.drop 1 :=
    (hfirst.passed (hfirst.ok_iff.mp hok₁)).2
  have hpasses : Passes [true, true] env.script ↔ Passes [true] env₁.script := by
    rw [hscript]
    exact (Env.passes_append [true] [true] env.script).trans
      (and_iff_right (hfirst.ok_iff.mp hok₁))
  have hsecond := Env.performs_append w.dest ptr env₁
  have hothers₂ := hothers.trans (Env.others_append w.dest ptr env₁)
  rw [andThen_of_ok hok₁]
  rcases Env.append_cases w.dest ptr env₁ with ⟨hok₂, hc₂⟩ | ⟨hne₂, hc₂⟩
  · have hall : Passes [true, true] env.script := hpasses.mpr (hsecond.ok_iff.mp hok₂)
    rw [andThen_of_ok hok₂]
    have hflush := Env.others_flush w.dest (env₁.append w.dest ptr).2
    refine ⟨hothers₂.trans (hflush.mono (List.nil_subset _)), fun _ => ?_, fun hp => absurd hall hp⟩
    rw [hflush.content List.not_mem_nil, hc₂, hc₁, Option.map_map, hencode]
    congr 1
    funext data
    exact List.append_assoc data head ptr
  · have hfail : ∀ next, Env.andThen (env₁.append w.dest ptr) next = env₁.append w.dest ptr :=
      fun next => if_neg (mt (Status.isOk_iff _).mp hne₂)
    have hnot : ¬ Passes [true, true] env.script := by
      intro hp
      exact hne₂ (hsecond.passed (hpasses.mp hp)).1
    rw [hfail]
    refine ⟨hothers₂, fun hp => absurd hp hnot, fun _ => ⟨head.length, ?_, ?_⟩⟩
    · rw [hencode, List.length_append]
      omega
    · rw [hc₂, hc₁, hencode, List.take_left]

/-- The append of a trailer, if one is due. -/
def trailerOps (o : Nat) : List Bool := if 0 < padding o then [false] else []

/-- The appends of a physical record and of the trailer before it. -/
def appendOps (o : Nat) : List Bool := trailerOps o ++ [true, true]

theorem turnOps_eq (o : Nat) : turnOps o = appendOps o ++ [true] := by
  rw [turnOps, appendOps, List.append_assoc]
  rfl

theorem passes_trailerOps (o : Nat) (script : List Status) : Passes (trailerOps o) script := by
  unfold trailerOps
  split_ifs
  · exact ⟨nofun, trivial⟩
  · trivial

theorem switchBlock_adds {w w' : Writer} {env env' : Env} (h : w.switchBlock env = (w', env'))
    (hignored : IgnoresNone (trailerOps w.blockOffset) env.script) :
    Env.Others [w.dest] env env'
      ∧ env'.content w.dest = (env.content w.dest).map (· ++ zeros (padding w.blockOffset)) := by
  have hnone : ∀ o : Option Bytes, o = o.map (· ++ zeros 0) := by
    intro o
    cases o <;> simp [zeros]
  have hotherwise : padding w.blockOffset = 0 → env' = env → Env.Others [w.dest] env env'
      ∧ env'.content w.dest = (env.content w.dest).map (· ++ zeros (padding w.blockOffset)) := by
    rintro hzero rfl
    rw [hzero]
    exact ⟨Env.Others.refl _ _, hnone _⟩
  unfold switchBlock at h
  simp only at h
  by_cases hleft : kBlockSize - w.blockOffset < kHeaderSize
  swap
  · rw [if_neg hleft] at h
    cases h
    exact hotherwise (Reader.padding_of_ge hleft).1 rfl
  have hpad := (Reader.padding_of_lt hleft).1
  rw [if_pos hleft] at h
  by_cases hpos : 0 < kBlockSize - w.blockOffset
  swap
  · rw [if_neg hpos] at h
    cases h
    exact hotherwise (hpad.trans (by omega)) rfl
  rw [if_pos hpos] at h
  cases h
  rw [trailerOps, hpad, if_pos hpos] at hignored
  have hok : (env.append w.dest ((zeros 6).take (kBlockSize - w.blockOffset))).1 = .ok :=
    ((Env.performs_append _ _ env).passed ⟨fun _ => hignored.1 rfl, trivial⟩).1
  have htake : (zeros 6).take (kBlockSize - w.blockOffset) = zeros (padding w.blockOffset) := by
    have : kHeaderSize = 7 := rfl
    rw [hpad, zeros, List.take_replicate, Nat.min_eq_left (by omega), zeros]
  rcases Env.append_cases w.dest ((zeros 6).take (kBlockSize - w.blockOffset)) env with
    ⟨-, hcontent⟩ | ⟨hne, -⟩
  · rw [htake] at hcontent ⊢
    exact ⟨Env.others_append _ _ _, hcontent⟩
  · exact absurd hok hne

/-- **A record that fits** becomes one physical record behind the trailer of the block before. -/
theorem addRecord_adds {w : Writer} {uninit : U32} (hw : w.typeCrc = initTypeCrc uninit)
    (ho : w.blockOffset ≤ kBlockSize) {sle : Bytes} (hne : sle ≠ [])
    (hfit : start w.blockOffset + kHeaderSize + sle.length ≤ kBlockSize) {env : Env}
    (hignored : IgnoresNone (turnOps w.blockOffset) env.script) :
    ∃ r : Status × Env, w.addRecord sle env
        = .ok (r.1, { w with blockOffset := next w.blockOffset ⟨.kFullType, sle⟩ }, r.2)
      ∧ Performs (turnOps w.blockOffset) env r
      ∧ Adds w.dest (layout w.blockOffset [⟨.kFullType, sle⟩]) (appendOps w.blockOffset) env r.2 := by
  have havail : sle.length ≤ avail w.blockOffset := (fits_iff_avail ho sle).mp hfit
  obtain ⟨r, hturn, hr⟩ := addRecordTurn_performs ⟨true, sle, w, env⟩ ho
  simp only at hturn
  rw [if_neg (by simp [havail]), Nat.min_eq_right havail] at hturn
  refine ⟨r, Loop.run_inr _ hturn _, hr, ?_⟩
  -- the turn once more, part by part
  rw [turnOps_eq, appendOps, List.append_assoc] at hignored
  obtain ⟨htrailer, -⟩ := Env.ignoresNone_append hignored
  obtain ⟨_, -, hturn⟩ := bind_eq_ok.mp hturn
  obtain ⟨env₁, hswitch, hpad⟩ := switchBlock_performs w env
  obtain ⟨hothers₁, hcontent₁⟩ := switchBlock_adds hswitch htrailer
  simp only [hswitch] at hturn
  obtain ⟨_, -, hturn⟩ := bind_eq_ok.mp hturn
  obtain ⟨⟨s, w₂, env₂⟩, hemit, hturn⟩ := bind_eq_ok.mp hturn
  have hmin : (if sle.length < kBlockSize - start w.blockOffset - kHeaderSize then sle.length
      else kBlockSize - start w.blockOffset - kHeaderSize) = sle.length := by
    have : avail w.blockOffset = kBlockSize - start w.blockOffset - kHeaderSize := rfl
    split_ifs <;> omega
  simp only [hmin, List.take_length, List.drop_length, List.length_nil, lt_irrefl, decide_false,
    Bool.and_false, Bool.false_eq_true, if_false, decide_true] at hemit hturn
  cases hturn
  have hadds : Adds w.dest (Fragment.encode ⟨.kFullType, sle⟩) [true, true] env₁ r.2 :=
    emitPhysicalRecord_adds (w := { w with blockOffset := start w.blockOffset }) hw
      (show RecordType.kFullType ≠ .kLastType from RecordType.noConfusion) hne hemit
  have hscript : env₁.script = env.script.drop (trailerOps w.blockOffset).length :=
    (hpad.passed (passes_trailerOps _ _)).2
  have hpasses : Passes (appendOps w.blockOffset) env.script ↔ Passes [true, true] env₁.script := by
    rw [appendOps, Env.passes_append, hscript]
    exact and_iff_right (passes_trailerOps _ _)
  have hlayout : layout w.blockOffset [⟨.kFullType, sle⟩]
      = zeros (padding w.blockOffset) ++ Fragment.encode ⟨.kFullType, sle⟩ := List.append_nil _
  rw [hlayout]
  exact hadds.behind hothers₁ hcontent₁ hpasses

end Writer

/-! ## Files of whole records -/

/-- Records as physical records. -/
def fulls (records : List Bytes) : List Fragment := records.map (Fragment.mk .kFullType)

theorem fulls_concat (records : List Bytes) (record : Bytes) :
    fulls (records ++ [record]) = fulls records ++ [⟨.kFullType, record⟩] := by
  simp [fulls]

theorem fits_fulls {o : Nat} {records : List Bytes} : Fits o (fulls records) ↔ AllFit o records := by
  induction records generalizing o with
  | nil => rfl
  | cons record records ih => exact (and_iff_right RecordType.noConfusion).trans (and_congr_right fun _ => ih)

theorem allFit_concat {o : Nat} {records : List Bytes} {record : Bytes} :
    AllFit o (records ++ [record])
      ↔ AllFit o records ∧ start (endOffset o (fulls records)) + kHeaderSize + record.length ≤ kBlockSize := by
  rw [← fits_fulls, fulls_concat, fits_append, fits_fulls]
  refine and_congr_right fun _ => ?_
  exact (and_iff_right RecordType.noConfusion).trans (and_iff_left trivial)

theorem assemble_fulls (records : List Bytes) : Reader.assemble none (fulls records) = records := by
  induction records with
  | nil => rfl
  | cons record records ih => exact congrArg (record :: ·) ih

theorem clean_fulls (records : List Bytes) : Reader.Clean none (fulls records) := by
  induction records with
  | nil => trivial
  | cons record records ih => exact ⟨rfl, ih⟩

namespace Reader

/-- **Whole records and a torn one** are read as the whole records, without a report. -/
theorem readAll_fulls {records : List Bytes} {tail : Bytes} (hfit : AllFit 0 records)
    (htorn : Torn (endOffset 0 (fulls records)) tail) :
    ∃ rd, (Reader.new ⟨layout 0 (fulls records) ++ tail, []⟩ (some []) true 0).readAll
        = .ok (records, rd) ∧ rd.Quiet := by
  obtain ⟨rd, hread, hquiet⟩ := readAll_layout (fits_fulls.mpr hfit) htorn (some []) true
  rw [assemble_fulls] at hread
  exact ⟨rd, hread, hquiet (clean_fulls records)⟩

/-- What is read of such a file without a report is all of its whole records, also when reads may
fail. -/
theorem ReadsAll.eq_fulls {records records' : List Bytes} {tail : Bytes} {script : List Status}
    {rd : Reader} (h : ReadsAll
      (Reader.new ⟨layout 0 (fulls records) ++ tail, script⟩ (some []) true 0) records' rd)
    (hquiet : rd.Quiet) (hfit : AllFit 0 records) (htorn : Torn (endOffset 0 (fulls records)) tail) :
    records' = records := by
  obtain ⟨rd₀, hread, -⟩ := readAll_fulls hfit htorn
  have hcalm : rd.Calm := ⟨hquiet, h.initialOffset⟩
  exact (readsAll_of_readAll hread).2.unique (h.sound hcalm).2

end Reader

end Log

end SimpleLeveldb
