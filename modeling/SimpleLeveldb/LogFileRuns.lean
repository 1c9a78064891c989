import SimpleLeveldb.Version.DurableSteps

set_option autoImplicit false

/-! # A log file that outlives a crash

A process creates a log file, appends records to it, and syncs it from time to time. Operations may
fail, the process may end behind any of them, and the machine may crash; when an append returns an
error, the process ends. What is read of the file afterwards is a beginning of the records, in order
and without a report, and none of those is missing that a sync has covered (`LogFile.Run.readsBack`).
-/

namespace SimpleLeveldb

open Env (IgnoresNone)
open Log (AllFit fulls layout endOffset)
open Log.Reader (Torn)
open Steps (Added addRecord)

/-- The directory, the writer of the process, the records whose append has begun, and how many of them
the last sync that returned OK has covered. -/
structure LogFile where
  env : Env
  writer : Option Log.Writer
  records : List Bytes
  synced : Nat

namespace LogFile

/-- A record that fits into its block, while the append does not fail whose status is ignored. (The
checksum of the last fragment of a longer record starts from memory that `init_type_crc` leaves
unset.) -/
def Fits (w : Log.Writer) (sle : Bytes) (env : Env) : Prop :=
  Log.start w.blockOffset + Log.kHeaderSize + sle.length ≤ Log.kBlockSize
    ∧ IgnoresNone (Log.Writer.trailerOps w.blockOffset) env.script

instance decidableFits (w : Log.Writer) (sle : Bytes) (env : Env) : Decidable (Fits w sle env) :=
  inferInstanceAs (Decidable (_ ∧ _))

/-- A run that begins when the file `fname` is created. The process goes on only after appends that
return OK: one that fails may leave a part of a record, and the records of later appends would not be
found behind it. -/
inductive Run (fname : Bytes) : LogFile → Prop
  | create {env : Env} {uninit : U32} : (env.newWritableFile fname).1 = .ok →
      Run fname ⟨(env.newWritableFile fname).2, some (Log.Writer.new fname uninit), [], 0⟩
  /-- the operations to come have other outcomes -/
  | outcomes {l : LogFile} {env : Env} : Run fname l → l.env.SameFiles env →
      Run fname ⟨env, l.writer, l.records, l.synced⟩
  /-- other files are written -/
  | others {l : LogFile} {env : Env} {names : List Bytes} : Run fname l → fname ∉ names →
      Env.Others names l.env env → Run fname ⟨env, l.writer, l.records, l.synced⟩
  | appends {l : LogFile} {w w' : Log.Writer} {sle : Bytes} : Run fname l → l.writer = some w →
      Fits w sle l.env → (addRecord w sle l.env).1 = .ok (.ok, w') →
      Run fname ⟨(addRecord w sle).last l.env, some w', l.records ++ [sle], l.synced⟩
  /-- the process ends behind some of the operations of an append; so it does when the append returns
  an error -/
  | stops {l : LogFile} {w : Log.Writer} {sle : Bytes} {states : List Env} : Run fname l →
      l.writer = some w → Fits w sle l.env → states <+: (addRecord w sle l.env).2 →
      Run fname ⟨states.getLastD l.env, none, l.records ++ [sle], l.synced⟩
  | syncs {l : LogFile} {w : Log.Writer} : Run fname l → l.writer = some w →
      (l.env.sync w.dest).1 = .ok →
      Run fname ⟨(l.env.sync w.dest).2, l.writer, l.records, l.records.length⟩
  | syncFails {l : LogFile} {w : Log.Writer} : Run fname l → l.writer = some w →
      (l.env.sync w.dest).1 ≠ .ok →
      Run fname ⟨(l.env.sync w.dest).2, l.writer, l.records, l.synced⟩
  /-- of every file at least the synced bytes are left -/
  | crash {l : LogFile} {env : Env} : Run fname l → l.env.Survives env →
      Run fname ⟨env, none, l.records, l.synced⟩

/-! ## One step -/

/-- The file holds the records `whole`, a beginning of those that have been appended, and the bytes
`tail` of another one. As long as the process runs, it holds all of them. -/
structure Stands (fname : Bytes) (l : LogFile) (whole : List Bytes) (tail : Bytes) (f : File) :
    Prop where
  lookup : l.env.files.lookup fname = some f
  data : f.data = layout 0 (fulls whole) ++ tail
  beginning : whole <+: l.records
  fits : AllFit 0 whole
  torn : Torn (endOffset 0 (fulls whole)) tail
  covered : l.synced ≤ whole.length
  secured : (layout 0 (fulls (whole.take l.synced))).length ≤ f.synced
  complete : l.writer.isSome = true → whole = l.records ∧ tail = []
  writer : ∀ w, l.writer = some w → w.dest = fname ∧ (∃ uninit, w.typeCrc = Log.initTypeCrc uninit)
    ∧ w.blockOffset = endOffset 0 (fulls l.records)

namespace Stands

variable {fname tail sle : Bytes} {l : LogFile} {whole : List Bytes} {f : File} {w : Log.Writer}
  {env : Env}

/-- The process ends. -/
theorem closed (h : l.Stands fname whole tail f) :
    Stands fname ⟨l.env, none, l.records, l.synced⟩ whole tail f where
  lookup := h.lookup
  data := h.data
  beginning := h.beginning
  fits := h.fits
  torn := h.torn
  covered := h.covered
  secured := h.secured
  complete hsome := by cases hsome
  writer w hw := by cases hw

/-- The file is there with the same bytes, and the same of them are synced. -/
theorem sameFile (h : l.Stands fname whole tail f) {f' : File}
    (hf' : env.files.lookup fname = some f') (hdata : f'.data = f.data) (hsynced : f'.synced = f.synced) :
    Stands fname ⟨env, l.writer, l.records, l.synced⟩ whole tail f' where
  lookup := hf'
  data := hdata.trans h.data
  beginning := h.beginning
  fits := h.fits
  torn := h.torn
  covered := h.covered
  secured := hsynced ▸ h.secured
  complete := h.complete
  writer := h.writer

theorem offset_le (h : l.Stands fname whole tail f) (hw : l.writer = some w) :
    w.blockOffset ≤ Log.kBlockSize := by
  obtain ⟨rfl, -⟩ := h.complete (by rw [hw]; rfl)
  rw [(h.writer w hw).2.2]
  exact Log.endOffset_le (Nat.zero_le _) (Log.fits_fulls.mpr h.fits)

/-- **All bytes of a record** are appended. -/
theorem appended (h : l.Stands fname whole tail f) (hw : l.writer = some w)
    (hfit : Log.start w.blockOffset + Log.kHeaderSize + sle.length ≤ Log.kBlockSize)
    (hadded : Added l.env w.dest (layout w.blockOffset [⟨.kFullType, sle⟩]) env) :
    ∃ f', Stands fname ⟨env, some (w.past sle), l.records ++ [sle], l.synced⟩
      (l.records ++ [sle]) [] f' := by
  obtain ⟨rfl, rfl⟩ := h.complete (by rw [hw]; rfl)
  obtain ⟨rfl, hcrc, hoffset⟩ := h.writer w hw
  have hfits : AllFit 0 (l.records ++ [sle]) :=
    Log.allFit_concat.mpr ⟨h.fits, by rw [← hoffset]; exact hfit⟩
  refine ⟨_, hadded.file f h.lookup, ?_, List.prefix_refl _, hfits, ?_, ?_, ?_, fun _ => ⟨rfl, rfl⟩, ?_⟩
  · simp only [h.data, List.append_nil, Log.fulls_concat, Log.layout_append, hoffset]
  · exact Log.torn_nil (Log.endOffset_le (Nat.zero_le _) (Log.fits_fulls.mpr hfits))
  · rw [List.length_append]
    exact h.covered.trans (Nat.le_add_right _ _)
  · rw [List.take_append_of_le_length h.covered]
    exact h.secured
  · intro w' hw'
    cases hw'
    refine ⟨rfl, hcrc, ?_⟩
    rw [Log.fulls_concat, Log.endOffset_append, ← hoffset]
    rfl

/-- **Bytes of a record** are appended, and the process ends. -/
theorem stopped (h : l.Stands fname whole tail f) (hw : l.writer = some w)
    (hfit : Log.start w.blockOffset + Log.kHeaderSize + sle.length ≤ Log.kBlockSize)
    (hwriting : ∃ done, done <+: layout w.blockOffset [⟨.kFullType, sle⟩]
      ∧ Added l.env w.dest done env) :
    ∃ whole' tail' f', Stands fname ⟨env, none, l.records ++ [sle], l.synced⟩ whole' tail' f' := by
  obtain ⟨done, hdone, hadded⟩ := hwriting
  by_cases hall : done = layout w.blockOffset [⟨.kFullType, sle⟩]
  · -- the record is complete, although its append has not returned
    rw [hall] at hadded
    obtain ⟨f', h'⟩ := h.appended hw hfit hadded
    exact ⟨_, _, f', h'.closed⟩
  have htorn := Log.Reader.torn_of_prefix (f := ⟨.kFullType, sle⟩) hfit hdone hall
  obtain ⟨rfl, rfl⟩ := h.complete (by rw [hw]; rfl)
  obtain ⟨rfl, -, hoffset⟩ := h.writer w hw
  rw [hoffset] at htorn
  refine ⟨l.records, done, _, hadded.file f h.lookup, ?_, List.prefix_append _ _, h.fits, htorn,
    h.covered, h.secured, fun hsome => ?_, fun w' hw' => ?_⟩
  · simp only [h.data, List.append_nil]
  · cases hsome
  · cases hw'

/-- **A sync** covers all records. -/
theorem synced (h : l.Stands fname whole tail f) (hw : l.writer = some w)
    (hok : (l.env.sync w.dest).1 = .ok) :
    Stands fname ⟨(l.env.sync w.dest).2, l.writer, l.records, l.records.length⟩ whole tail
      { f with synced := f.data.length } := by
  obtain ⟨hwhole, htail⟩ := h.complete (by rw [hw]; rfl)
  obtain ⟨hdest, -⟩ := h.writer w hw
  refine ⟨?_, h.data, h.beginning, h.fits, h.torn, by rw [hwhole], ?_, h.complete, h.writer⟩
  · rw [hdest] at hok ⊢
    rw [Env.lookup_sync hok, h.lookup, Option.map_some]
  · rw [hwhole, List.take_length, h.data, htail, List.append_nil, hwhole]

/-- **A crash** leaves the records that are synced, and perhaps more of them. -/
theorem survives (h : l.Stands fname whole tail f) (hs : l.env.Survives env) :
    ∃ whole' tail' f', Stands fname ⟨env, none, l.records, l.synced⟩ whole' tail' f' := by
  obtain ⟨f', hf', hkept, hshorter⟩ := hs.exists_lookup h.lookup
  have hle := Log.length_layout_take_le whole l.synced
  have hlen : (layout 0 (fulls (whole.take l.synced))).length ≤ f'.kept.length := by
    refine le_trans ?_ hkept.length_le
    have hsecured := h.secured
    have hdata := congrArg List.length h.data
    rw [List.length_append] at hdata
    rw [File.kept, List.length_take]
    omega
  rw [h.data] at hshorter
  -- so the file is cut off behind the records that are synced
  obtain ⟨j, tail', hj, hj', hdata, htorn⟩ := Log.cut_fulls h.fits h.torn h.covered
    (hlen.trans f'.kept_prefix.length_le) hshorter
  refine ⟨whole.take j, tail', f', hf', hdata, (List.take_prefix j whole).trans h.beginning,
    Log.allFit_take h.fits j, htorn, ?_, ?_, fun hsome => ?_, fun w hw => ?_⟩
  · rw [List.length_take]
    exact Nat.le_min.mpr ⟨hj, h.covered⟩
  · rw [List.take_take, Nat.min_eq_left hj]
    rw [File.kept, List.length_take] at hlen
    exact hlen.trans (Nat.min_le_left _ _)
  · cases hsome
  · cases hw

end Stands

/-! ## Whole runs -/

variable {fname : Bytes} {l : LogFile}

theorem Run.stands (h : Run fname l) : ∃ whole tail f, l.Stands fname whole tail f := by
  induction h with
  | @create env uninit hok =>
      refine ⟨[], [], { data := [] }, Env.lookup_newWritableFile hok, rfl, List.prefix_refl _, trivial,
        Log.torn_nil (Nat.zero_le _), le_rfl, le_rfl, fun _ => ⟨rfl, rfl⟩, fun w hw => ?_⟩
      cases hw
      exact ⟨rfl, ⟨uninit, rfl⟩, rfl⟩
  | outcomes _ hsame ih =>
      obtain ⟨whole, tail, f, h⟩ := ih
      have hf := hsame fname
      rw [h.lookup, Option.map_some] at hf
      obtain ⟨f', hf', he⟩ := Option.map_eq_some_iff.mp hf
      exact ⟨whole, tail, f', h.sameFile hf' (congrArg Prod.fst he) (congrArg Prod.snd he)⟩
  | others _ hnot ho ih =>
      obtain ⟨whole, tail, f, h⟩ := ih
      exact ⟨whole, tail, f, h.sameFile ((ho _ hnot).trans h.lookup) rfl rfl⟩
  | appends _ hw hfits hret ih =>
      obtain ⟨whole, tail, f, h⟩ := ih
      obtain ⟨-, ⟨uninit, hcrc⟩, -⟩ := h.writer _ hw
      have hkeeps := Steps.keeps_addRecord_writing hcrc (h.offset_le hw) hfits.1 hfits.2
      obtain ⟨rfl, hadded⟩ := hkeeps.post _ hret
      obtain ⟨f', h'⟩ := h.appended hw hfits.1 (hadded rfl)
      exact ⟨_, _, f', h'⟩
  | stops _ hw hfits hstates ih =>
      obtain ⟨whole, tail, f, h⟩ := ih
      obtain ⟨-, ⟨uninit, hcrc⟩, -⟩ := h.writer _ hw
      have hkeeps := Steps.keeps_addRecord_writing hcrc (h.offset_le hw) hfits.1 hfits.2
      have hwriting := (hkeeps.mono (fun _ _ hdone => hdone) fun _ _ hr => hr).stopped
        ⟨[], List.nil_prefix, Added.refl _ _⟩ hstates
      exact h.stopped hw hfits.1 hwriting
  | syncs _ hw hok ih =>
      obtain ⟨whole, tail, f, h⟩ := ih
      exact ⟨whole, tail, _, h.synced hw hok⟩
  | syncFails _ hw hne ih =>
      obtain ⟨whole, tail, f, h⟩ := ih
      have hsame := Steps.others_sync_of_ne hne
      exact ⟨whole, tail, f, h.sameFile ((hsame _ List.not_mem_nil).trans h.lookup) rfl rfl⟩
  | crash _ hs ih =>
      obtain ⟨whole, tail, f, h⟩ := ih
      exact h.survives hs

/-- **What is read back** of a log file, at any moment of a run, is a beginning of its records: with
all that a sync has covered, and with all of them as long as the process runs. -/
theorem Run.readsBack (h : Run fname l) :
    ∃ f n rd, l.env.files.lookup fname = some f ∧ l.synced ≤ n ∧ n ≤ l.records.length
      ∧ (l.writer.isSome = true → n = l.records.length)
      ∧ (Log.Reader.new ⟨f.data, []⟩ (some []) true 0).readAll = .ok (l.records.take n, rd)
      ∧ rd.Quiet := by
  obtain ⟨whole, tail, f, h⟩ := h.stands
  obtain ⟨rd, hread, hquiet⟩ := Log.Reader.readAll_fulls h.fits h.torn
  refine ⟨f, whole.length, rd, h.lookup, h.covered, h.beginning.length_le, fun hsome => ?_, ?_, hquiet⟩
  · rw [(h.complete hsome).1]
  · rw [h.data, hread, ← List.prefix_iff_eq_take.mp h.beginning]

/-! ## A concrete run -/

/-- A log is created, and one record is appended and synced. -/
def createdLog : LogFile where
  env := (Env.newWritableFile (text "db/000003.log") { files := ∅ }).2
  writer := some (Log.Writer.new (text "db/000003.log") 0)
  records := []
  synced := 0

def firstWriter : Log.Writer := (Log.Writer.new (text "db/000003.log") 0).past (text "first")

def syncedLog : LogFile where
  env := (Env.sync (text "db/000003.log") ((addRecord (Log.Writer.new (text "db/000003.log") 0)
    (text "first")).last createdLog.env)).2
  writer := some firstWriter
  records := [text "first"]
  synced := 1

/-- The process ends behind the appends of the second record, and before its flush. -/
def stoppedLog : LogFile where
  env := ((addRecord firstWriter (text "second") syncedLog.env).2.take 2).getLastD syncedLog.env
  writer := none
  records := [text "first", text "second"]
  synced := 1

/-- The machine crashes, and what has not been synced is lost. -/
def crashedLog : LogFile := { stoppedLog with
  env := stoppedLog.env.modify (text "db/000003.log") File.crash }

/-- What can be evaluated of the operations that are made. -/
theorem syncedLog_evaluated :
    (addRecord (Log.Writer.new (text "db/000003.log") 0) (text "first") createdLog.env).1.toOption
        = some (.ok, firstWriter)
      ∧ Fits (Log.Writer.new (text "db/000003.log") 0) (text "first") createdLog.env
      ∧ (Env.sync (text "db/000003.log") ((addRecord (Log.Writer.new (text "db/000003.log") 0)
        (text "first")).last createdLog.env)).1 = .ok
      ∧ Fits firstWriter (text "second") syncedLog.env := by
  decide +kernel

theorem syncedLog_run : Run (text "db/000003.log") syncedLog := by
  obtain ⟨hret, hfits, hok, -⟩ := syncedLog_evaluated
  have hcreated : Run (text "db/000003.log") createdLog := .create rfl
  exact (hcreated.appends rfl hfits (toOption_eq_some.mp hret)).syncs rfl hok

theorem crashedLog_run : Run (text "db/000003.log") crashedLog := by
  have hstopped : Run (text "db/000003.log") stoppedLog :=
    syncedLog_run.stops rfl syncedLog_evaluated.2.2.2 (List.take_prefix 2 _)
  exact hstopped.crash (Env.survives_modify _ _)

/-- After the crash the first record is there. -/
theorem Run.readsBack_crashed :
    ∃ f n rd, crashedLog.env.files.lookup (text "db/000003.log") = some f ∧ 1 ≤ n ∧ n ≤ 2
      ∧ (Log.Reader.new ⟨f.data, []⟩ (some []) true 0).readAll
        = .ok ([text "first", text "second"].take n, rd)
      ∧ rd.Quiet := by
  obtain ⟨f, n, rd, hf, hle, hle', -, hread, hquiet⟩ := Run.readsBack crashedLog_run
  exact ⟨f, n, rd, hf, hle, hle', hread, hquiet⟩

end LogFile

end SimpleLeveldb
