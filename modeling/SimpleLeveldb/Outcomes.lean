import SimpleLeveldb.Filename
import SimpleLeveldb.Log.Writer

set_option autoImplicit false

/-! # Operations that fail

A call makes a fixed list of operations of the environment as long as none fails; of each it
either looks at the status or ignores it. `Performs ops env r` says that the outcome `r` of such
a call is decided by the script of the environment: it is OK when every operation whose status
is looked at succeeds, and an error otherwise.
-/

namespace SimpleLeveldb

namespace Env

/-- Of the operations `ops` (`true` for one whose status is looked at), none of those looked at
fails. -/
def Passes : List Bool → List Status → Prop
  | [], _ => True
  | looked :: ops, script => (looked = true → script.headD .ok = .ok) ∧ Passes ops script.tail

instance decidablePasses : (ops : List Bool) → (script : List Status) →
    Decidable (Passes ops script)
  | [], _ => isTrue trivial
  | looked :: ops, script =>
      have := decidablePasses ops script.tail
      inferInstanceAs (Decidable ((looked = true → script.headD .ok = .ok)
        ∧ Passes ops script.tail))

@[simp] theorem passes_nil (script : List Status) : Passes [] script := trivial

theorem passes_cons (looked : Bool) (ops : List Bool) (script : List Status) :
    Passes (looked :: ops) script
      ↔ (looked = true → script.headD .ok = .ok) ∧ Passes ops script.tail := Iff.rfl

theorem passes_append (ops ops' : List Bool) (script : List Status) :
    Passes (ops ++ ops') script ↔ Passes ops script ∧ Passes ops' (script.drop ops.length) := by
  induction ops generalizing script with
  | nil => simp
  | cons looked ops ih => simp [passes_cons, ih, and_assoc]

/-- When every operation to come succeeds, any of them do. -/
theorem AllOk.passes {env : Env} (h : env.AllOk) (ops : List Bool) : Passes ops env.script := by
  unfold AllOk at h
  revert h
  generalize env.script = script
  induction ops generalizing script with
  | nil => exact fun _ => trivial
  | cons looked ops ih =>
      intro h
      refine ⟨fun _ => ?_, ih script.tail fun s hs => h s (List.mem_of_mem_tail hs)⟩
      cases script with
      | nil => rfl
      | cons s script => exact h s List.mem_cons_self

/-- The script of `env` decides the outcome `r` of the operations `ops`. -/
structure Performs (ops : List Bool) (env : Env) (r : Status × Env) : Prop where
  passed : Passes ops env.script → r.1 = .ok ∧ r.2.script = env.script.drop ops.length
  failed : ¬ Passes ops env.script → r.1 ≠ .ok

theorem Performs.ok_iff {ops : List Bool} {env : Env} {r : Status × Env} (h : Performs ops env r) :
    r.1 = .ok ↔ Passes ops env.script :=
  ⟨fun hok => by_contra fun hn => h.failed hn hok, fun hp => (h.passed hp).1⟩

theorem performs_nil (env : Env) : Performs [] env (.ok, env) where
  passed := fun _ => ⟨rfl, rfl⟩
  failed := fun hn => absurd trivial hn

/-- One operation after others. -/
theorem Performs.trans {ops ops' : List Bool} {env : Env} {r r' : Status × Env}
    (h : Performs ops env r) (hok : r.1 = .ok → Performs ops' r.2 r')
    (herr : r.1 ≠ .ok → r'.1 ≠ .ok) : Performs (ops ++ ops') env r' where
  passed := by
    intro hp
    rw [passes_append] at hp
    obtain ⟨hr, hs⟩ := h.passed hp.1
    obtain ⟨hr', hs'⟩ := (hok hr).passed (by rw [hs]; exact hp.2)
    exact ⟨hr', by rw [hs', hs, List.drop_drop, List.length_append]⟩
  failed := by
    intro hn
    rw [passes_append, not_and_or] at hn
    by_cases hp : Passes ops env.script
    · obtain ⟨hr, hs⟩ := h.passed hp
      exact (hok hr).failed (by rw [hs]; exact hn.resolve_left (not_not_intro hp))
    · exact herr (h.failed hp)

theorem Performs.andThen {ops ops' : List Bool} {env : Env} {r : Status × Env}
    {next : Env → Status × Env} (h : Performs ops env r)
    (hnext : r.1 = .ok → Performs ops' r.2 (next r.2)) :
    Performs (ops ++ ops') env (Env.andThen r next) := by
  by_cases hr : r.1 = .ok
  · rw [Env.andThen, if_pos ((Status.isOk_iff _).mpr hr)]
    exact h.trans hnext fun hne => absurd hr hne
  · rw [Env.andThen, if_neg (mt (Status.isOk_iff _).mp hr)]
    exact h.trans (fun hok => absurd hok hr) fun hne => hne

/-! ## The operations -/

/-- An operation that does as the script says. -/
theorem performs_act {f : Env → Status × Env} (env : Env)
    (hf : ∀ script, (f { env with script := script }).1 = .ok
      ∧ (f { env with script := script }).2.script = script) :
    Performs [true] env (env.act f) := by
  unfold act
  split
  · rename_i c m script hs
    refine ⟨fun hp => ?_, fun _ => ?_⟩
    · have := hp.1 rfl
      rw [hs] at this
      cases this
    · intro he
      cases he
  · rename_i hs
    refine ⟨fun _ => ⟨(hf _).1, ?_⟩, fun hn => absurd ⟨fun _ => ?_, trivial⟩ hn⟩
    · rw [(hf _).2]
      simp
    · cases h : env.script with
      | nil => rfl
      | cons s script =>
          cases s with
          | ok => rfl
          | error c m => exact absurd h (hs c m script)

theorem performs_newWritableFile (fname : Bytes) (env : Env) :
    Performs [true] env (env.newWritableFile fname) :=
  performs_act env fun _ => ⟨rfl, rfl⟩

theorem performs_append (fname data : Bytes) (env : Env) :
    Performs [true] env (env.append fname data) :=
  performs_act env fun _ => ⟨rfl, modify_script _ _ _⟩

theorem performs_flush (fname : Bytes) (env : Env) : Performs [true] env (env.flush fname) :=
  performs_act env fun _ => ⟨rfl, rfl⟩

theorem performs_sync (fname : Bytes) (env : Env) : Performs [true] env (env.sync fname) :=
  performs_act env fun _ => ⟨rfl, modify_script _ _ _⟩

theorem performs_close (fname : Bytes) (env : Env) : Performs [true] env (env.close fname) :=
  performs_act env fun _ => ⟨rfl, rfl⟩

/-- An append whose status is ignored. -/
theorem performs_append_ignored (fname data : Bytes) (env : Env) :
    Performs [false] env (.ok, (env.append fname data).2) where
  passed := by
    refine fun _ => ⟨rfl, ?_⟩
    unfold append act
    split
    · rename_i hs
      simp [hs]
    · simp
  failed := fun hn => absurd ⟨by simp, trivial⟩ hn

/-! ## Files that stay -/

theorem act_mem {f : Env → Status × Env} {fname : Bytes} {env : Env} (h : fname ∈ env.files)
    (hf : ∀ env : Env, fname ∈ env.files → fname ∈ (f env).2.files) :
    fname ∈ (env.act f).2.files := by
  unfold act
  split
  · exact h
  · exact hf _ h

theorem modify_mem {fname : Bytes} {env : Env} (h : fname ∈ env.files) (f : File → File) :
    fname ∈ (env.modify fname f).files := by
  rw [← AList.lookup_isSome] at h ⊢
  rw [lookup_modify, Option.isSome_map]
  exact h

theorem append_mem {fname : Bytes} (data : Bytes) {env : Env} (h : fname ∈ env.files) :
    fname ∈ (env.append fname data).2.files :=
  act_mem h fun _ h => modify_mem h _

theorem sync_mem {fname : Bytes} {env : Env} (h : fname ∈ env.files) :
    fname ∈ (env.sync fname).2.files :=
  act_mem h fun _ h => modify_mem h _

theorem close_mem {fname : Bytes} {env : Env} (h : fname ∈ env.files) :
    fname ∈ (env.close fname).2.files :=
  act_mem h fun _ h => h

theorem andThen_mem {fname : Bytes} {r : Status × Env} {next : Env → Status × Env}
    (h : fname ∈ r.2.files) (hnext : ∀ env : Env, fname ∈ env.files → fname ∈ (next env).2.files) :
    fname ∈ (Env.andThen r next).2.files := by
  unfold Env.andThen
  split_ifs
  · exact hnext _ h
  · exact h

theorem newWritableFile_mem (fname : Bytes) (env : Env) :
    (env.newWritableFile fname).1 = .ok → fname ∈ (env.newWritableFile fname).2.files := by
  unfold newWritableFile act
  split
  · intro he
    cases he
  · intro _
    simp

theorem renameFile_performs {src : Bytes} (target : Bytes) {env : Env} (h : src ∈ env.files) :
    Performs [true] env (env.renameFile src target) := by
  rw [← AList.lookup_isSome, Option.isSome_iff_exists] at h
  obtain ⟨file, hfile⟩ := h
  refine performs_act env fun script => ?_
  rw [show ({ env with script := script } : Env).files.lookup src = some file from hfile]
  exact ⟨rfl, rfl⟩

/-- The operations of `do_write_string_to_file` with `should_sync` leave a file behind. -/
theorem writeStringToFileSync_performs (data fname : Bytes) (env : Env) :
    Performs [true, true, true, true] env (writeStringToFileSync data fname env)
      ∧ ((writeStringToFileSync data fname env).1 = .ok →
        fname ∈ (writeStringToFileSync data fname env).2.files) := by
  have hnew := performs_newWritableFile fname env
  have hmem := newWritableFile_mem fname env
  rw [writeStringToFileSync, doWriteStringToFile]
  rcases hr : env.newWritableFile fname with ⟨s, env₁⟩
  rw [hr] at hnew hmem
  cases s with
  | error c m =>
      refine ⟨?_, fun he => absurd he (by simp)⟩
      exact @Performs.trans [true] [true, true, true] _ _ _ hnew (fun he => absurd he (by simp))
        fun hne => hne
  | ok =>
      simp only [Status.isOk_ok, if_true]
      have hsync : Performs [true, true] env₁
          (Env.andThen (env₁.append fname data) fun env => env.sync fname) :=
        (performs_append fname data env₁).andThen fun _ => performs_sync _ _
      have hrest : Performs [true, true, true] env₁
          (Env.andThen (Env.andThen (env₁.append fname data) fun env => env.sync fname)
            (close fname)) := hsync.andThen fun _ => performs_close _ _
      have hrest_mem := andThen_mem (andThen_mem (append_mem data (hmem rfl)) fun _ => sync_mem)
        fun _ hmem => close_mem hmem
      set r := Env.andThen (Env.andThen (env₁.append fname data) fun env => env.sync fname)
        (close fname) with hrdef
      by_cases hok : r.1 = .ok
      · rw [if_pos ((Status.isOk_iff _).mpr hok)]
        exact ⟨hnew.trans (fun _ => hrest) fun hne => absurd rfl hne, fun _ => hrest_mem⟩
      · rw [if_neg (mt (Status.isOk_iff _).mp hok)]
        refine ⟨@Performs.trans [true] [true, true, true] _ _ _ hnew
          (fun _ => ⟨fun hp => ?_, fun _ => hok⟩) fun hne => absurd rfl hne,
          fun he => absurd he hok⟩
        exact absurd (hrest.passed hp).1 hok

end Env

/-- `set_current_file` fails exactly when one of its operations does: those that write the
temporary file, and the renaming. -/
theorem setCurrentFile_performs (dbname : Bytes) {number : U64} (hnumber : 0 < number) (env : Env) :
    ∃ r, setCurrentFile dbname number env = .ok r
      ∧ Env.Performs [true, true, true, true, true] env r := by
  have hpre : (dbname ++ text "/").isPrefixOf
      (dbname ++ text "/" ++ descriptorBaseName number) = true := by
    simp [List.append_assoc]
  obtain ⟨hwrite, hmem⟩ := env.writeStringToFileSync_performs
    ((dbname ++ text "/" ++ descriptorBaseName number).drop (dbname.length + 1) ++ text "\n")
    (makeFileName dbname number "dbtmp")
  rw [setCurrentFile, descriptorFileName, tempFileName, require_of hnumber]
  simp only [ok_bind, pure, Except.pure, require_of hpre]
  refine ⟨_, rfl, ?_⟩
  set w := Env.writeStringToFileSync
    ((dbname ++ text "/" ++ descriptorBaseName number).drop (dbname.length + 1) ++ text "\n")
    (makeFileName dbname number "dbtmp") env with hw
  by_cases hok : w.1 = .ok
  · have hrename := Env.renameFile_performs (currentFileName dbname) (hmem hok)
    simp only [if_pos ((Status.isOk_iff _).mpr hok)]
    refine @Env.Performs.trans _ [true] _ _ _ hwrite
      (fun _ => ⟨fun hp => ?_, fun hn => hrename.failed hn⟩) fun hne => absurd hok hne
    have := hrename.passed hp
    rw [if_pos ((Status.isOk_iff _).mpr this.1)]
    exact this
  · simp only [if_neg (mt (Status.isOk_iff _).mp hok)]
    exact @Env.Performs.trans _ [true] _ _ _ hwrite (fun he => absurd he hok) fun hne => hne

/-! ## Writing a record -/

namespace Log.Writer

open Env (Performs)

/-- The operations of one physical record from offset `o`: the trailer, if one is due, the
header, the payload and a flush. -/
def turnOps (o : Nat) : List Bool :=
  (if 0 < padding o then [false] else []) ++ [true, true, true]

/-- The operations of `add_record` for `length` bytes from offset `o`, and the offset after
them, in at most `n` turns. -/
def recordOps : Nat → Nat → Nat → List Bool × Nat
  | 0, o, _ => ([], o)
  | n + 1, o, length =>
      if length ≤ avail o then (turnOps o, start o + kHeaderSize + length)
      else
        let rest := recordOps n kBlockSize (length - avail o)
        (turnOps o ++ rest.1, rest.2)

theorem emitPhysicalRecord_performs (w : Writer) (t : RecordType) (ptr : Bytes) (env : Env)
    (hfit : w.blockOffset + kHeaderSize + ptr.length ≤ kBlockSize) :
    ∃ r, w.emitPhysicalRecord t ptr env
        = .ok (r.1, { w with blockOffset := w.blockOffset + kHeaderSize + ptr.length }, r.2)
      ∧ Performs [true, true, true] env r := by
  have hlen : ptr.length ≤ 0xffff := by
    have : kBlockSize = 32768 := rfl
    omega
  rw [emitPhysicalRecord, require_of hlen, require_of hfit]
  simp only [ok_bind, ← Nat.add_assoc]
  refine ⟨_, rfl, ?_⟩
  exact ((Env.performs_append _ _ env).andThen fun _ => Env.performs_append _ _ _).andThen
    fun _ => Env.performs_flush _ _

theorem switchBlock_performs (w : Writer) (env : Env) :
    ∃ env', w.switchBlock env = ({ w with blockOffset := start w.blockOffset }, env')
      ∧ Performs (if 0 < padding w.blockOffset then [false] else []) env (.ok, env') := by
  unfold switchBlock start padding
  by_cases h : kBlockSize - w.blockOffset < kHeaderSize
  · simp only [if_pos h]
    refine ⟨_, rfl, ?_⟩
    split_ifs
    · exact Env.performs_append_ignored _ _ env
    · exact Env.performs_nil env
  · simp only [if_neg h, lt_irrefl, if_false]
    exact ⟨env, rfl, Env.performs_nil env⟩

/-- One turn: the loop goes round again when the turn succeeded and payload is left. -/
theorem addRecordTurn_performs (st : AddState) (ho : st.w.blockOffset ≤ kBlockSize) :
    ∃ r, addRecordTurn st = .ok (
        let w := { st.w with
          blockOffset := start st.w.blockOffset + kHeaderSize
            + min (avail st.w.blockOffset) st.ptr.length }
        if r.1.isOk && decide (avail st.w.blockOffset < st.ptr.length) then
          .inl ⟨false, st.ptr.drop (avail st.w.blockOffset), w, r.2⟩
        else .inr (r.1, w, r.2))
      ∧ Performs (turnOps st.w.blockOffset) st.env r := by
  obtain ⟨env₁, hswitch, hpad⟩ := switchBlock_performs st.w st.env
  set o := st.w.blockOffset with hodef
  have hstart := start_add_kHeaderSize_le ho
  have havail : avail o = kBlockSize - start o - kHeaderSize := rfl
  have hmin : (if st.ptr.length < avail o then st.ptr.length else avail o)
      = min (avail o) st.ptr.length := by
    split_ifs <;> omega
  have hlen : (st.ptr.take (min (avail o) st.ptr.length)).length
      = min (avail o) st.ptr.length := by simp
  obtain ⟨r, hemit, hr⟩ := emitPhysicalRecord_performs { st.w with blockOffset := start o }
    (fragmentType st.atBegin (st.ptr.length = min (avail o) st.ptr.length))
    (st.ptr.take (min (avail o) st.ptr.length)) env₁ (by
      show start o + kHeaderSize + (st.ptr.take (min (avail o) st.ptr.length)).length ≤ kBlockSize
      rw [hlen]
      omega)
  refine ⟨r, ?_, hpad.trans (fun _ => hr) fun hne => absurd rfl hne⟩
  have hmore : (0 < (st.ptr.drop (min (avail o) st.ptr.length)).length)
      = (avail o < st.ptr.length) := by
    apply propext
    rw [List.length_drop]
    omega
  rw [addRecordTurn, require_of ho]
  simp only [ok_bind, hswitch, require_of hstart, ← havail, hmin, hemit, hlen, hmore]
  by_cases hcont : (r.1.isOk && decide (avail o < st.ptr.length)) = true
  · have hlt : avail o < st.ptr.length := by
      simp only [Bool.and_eq_true, decide_eq_true_eq] at hcont
      exact hcont.2
    rw [if_pos hcont, if_pos hcont, Nat.min_eq_left hlt.le]
    rfl
  · rw [if_neg hcont, if_neg hcont]
    rfl

/-- The loop of `add_record`, by induction on the turns. -/
theorem run_performs (n : Nat) (st : AddState) (ho : st.w.blockOffset ≤ kBlockSize)
    (hn : st.ptr.length + (if avail st.w.blockOffset = 0 then 1 else 0) < n) :
    ∃ (r : Status × Env) (w' : Writer),
      Loop.run .endless addRecordTurn n st = .ok (r.1, w', r.2)
      ∧ Performs (recordOps n st.w.blockOffset st.ptr.length).1 st.env r
      ∧ w'.blockOffset ≤ kBlockSize
      ∧ (r.1 = .ok → w'.blockOffset = (recordOps n st.w.blockOffset st.ptr.length).2) := by
  induction n generalizing st with
  | zero => omega
  | succ n ih =>
      obtain ⟨r, hturn, hr⟩ := addRecordTurn_performs st ho
      have hstart := start_add_kHeaderSize_le ho
      have havail : avail st.w.blockOffset = kBlockSize - start st.w.blockOffset - kHeaderSize :=
        rfl
      simp only at hturn
      rw [recordOps]
      by_cases hle : st.ptr.length ≤ avail st.w.blockOffset
      · rw [if_neg (by simp [hle])] at hturn
        rw [if_pos hle]
        refine ⟨r, _, Loop.run_inr _ hturn n, hr, ?_, fun _ => ?_⟩
        · simp only
          omega
        · simp only [Nat.min_eq_right hle]
      · rw [if_neg hle]
        by_cases hok : r.1 = .ok
        · rw [if_pos (by simp [hok]; omega)] at hturn
          have hfull : start st.w.blockOffset + kHeaderSize
              + min (avail st.w.blockOffset) st.ptr.length = kBlockSize := by omega
          rw [hfull] at hturn
          have hpos : avail kBlockSize ≠ 0 := by decide
          obtain ⟨r', w', hrun, hr', hle', hw'⟩ := ih
            ⟨false, st.ptr.drop (avail st.w.blockOffset), { st.w with blockOffset := kBlockSize },
              r.2⟩ le_rfl (by
                simp only [if_neg hpos, List.length_drop]
                split_ifs at hn <;> omega)
          simp only [List.length_drop] at hr' hw'
          refine ⟨r', w', ?_, hr.trans (fun _ => hr') fun hne => absurd hok hne, hle', hw'⟩
          rw [Loop.run_inl _ hturn]
          exact hrun
        · rw [if_neg (by simp [mt (Status.isOk_iff _).mp hok])] at hturn
          refine ⟨r, _, Loop.run_inr _ hturn n, ?_, ?_, fun he => absurd he hok⟩
          · exact hr.trans (fun he => absurd he hok) fun _ => hok
          · simp only
            omega

/-- **Writing a record** fails exactly when one of its operations does; no assertion fails. -/
theorem addRecord_performs (w : Writer) (ho : w.blockOffset ≤ kBlockSize) (sle : Bytes)
    (env : Env) :
    ∃ (r : Status × Env) (w' : Writer), w.addRecord sle env = .ok (r.1, w', r.2)
      ∧ Performs (recordOps (sle.length + 2) w.blockOffset sle.length).1 env r
      ∧ w'.blockOffset ≤ kBlockSize
      ∧ (r.1 = .ok → w'.blockOffset = (recordOps (sle.length + 2) w.blockOffset sle.length).2) :=
  run_performs (sle.length + 2) ⟨true, sle, w, env⟩ ho (by
    simp only
    split_ifs <;> omega)

end Log.Writer

end SimpleLeveldb
