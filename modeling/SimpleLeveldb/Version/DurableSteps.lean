import SimpleLeveldb.Version.Durable

set_option autoImplicit false

/-! # The calls, operation by operation, keep a manifest durable

A call may be stopped behind any of its operations. What it has done to the manifest by then leaves
it `Durable`, with the edit of the call in doubt; when the call returns OK, its edit is
acknowledged.
-/

namespace SimpleLeveldb

open Prog (Keeps op lift)
open Env (IgnoresNone)
open Log (AllFit fulls layout)

namespace Steps

/-! ## Writing a record -/

/-- Since `env₀`, only a beginning of the bytes `bytes` has been appended to the file `fname`. -/
def Writing (env₀ : Env) (fname bytes : Bytes) (_ env : Env) : Prop :=
  ∃ done, done <+: bytes ∧ Added env₀ fname done env

/-- A sync that fails changes no file. -/
theorem others_sync_of_ne {fname : Bytes} {env : Env} (hne : (env.sync fname).1 ≠ .ok) :
    Env.Others [] env (env.sync fname).2 := by
  rcases Env.act_cases env fun env => (.ok, env.modify fname
    fun f => { f with synced := f.data.length }) with ⟨-, hfiles⟩ | ⟨script, hact⟩
  · exact fun g _ => congrArg (AList.lookup g) hfiles
  · exact absurd (congrArg Prod.fst hact) hne

variable {env₀ env : Env} {w : Log.Writer} {before : Bytes}

/-- The trailer of a block, whose append does not fail. -/
theorem keeps_switchBlock_writing (rest : Bytes)
    (hignored : IgnoresNone (Log.Writer.trailerOps w.blockOffset) env.script) :
    Keeps (Writing env w.dest (zeros (Log.padding w.blockOffset) ++ rest)) (switchBlock w) env
      fun w' t => w' = { w with blockOffset := Log.start w.blockOffset }
        ∧ Added env w.dest (zeros (Log.padding w.blockOffset)) t := by
  have hnone := Added.refl env w.dest
  unfold switchBlock
  simp only
  by_cases hleft : Log.kBlockSize - w.blockOffset < Log.kHeaderSize
  swap
  · obtain ⟨hpad, hstart⟩ := Log.Reader.padding_of_ge hleft
    rw [if_neg hleft, hpad, hstart]
    exact Keeps.ret ⟨rfl, hnone⟩
  obtain ⟨hpad, hstart⟩ := Log.Reader.padding_of_lt hleft
  rw [if_pos hleft, hstart]
  split_ifs with hpos
  · have htake : (zeros 6).take (Log.kBlockSize - w.blockOffset)
        = zeros (Log.padding w.blockOffset) := by
      have : Log.kHeaderSize = 7 := rfl
      rw [hpad, zeros, List.take_replicate, Nat.min_eq_left (by omega), zeros]
    rw [Log.Writer.trailerOps, hpad, if_pos hpos] at hignored
    -- the writer ignores this status: a failure would leave a hole
    have hok : (env.append w.dest ((zeros 6).take (Log.kBlockSize - w.blockOffset))).1 = .ok :=
      ((Env.performs_append _ _ env).passed ⟨fun _ => hignored.1 rfl, trivial⟩).1
    have hadded := hnone.append hok
    rw [List.nil_append, htake] at hadded
    rw [htake]
    exact Keeps.op_bind ⟨_, List.prefix_append _ _, hadded⟩ (Keeps.ret ⟨rfl, hadded⟩)
  · have hzero : Log.padding w.blockOffset = 0 := by omega
    rw [hzero]
    exact Keeps.ret ⟨rfl, hnone⟩

/-- The header, the payload and the flush of a physical record. -/
theorem keeps_emitPhysicalRecord_writing {uninit : U32} (hw : w.typeCrc = Log.initTypeCrc uninit)
    {type : Log.RecordType} (ht : type ≠ .kLastType) (ptr : Bytes) (h : Added env₀ w.dest before env) :
    Keeps (Writing env₀ w.dest (before ++ Log.Fragment.encode ⟨type, ptr⟩))
      (emitPhysicalRecord w type ptr) env fun r t =>
        r.2 = { w with blockOffset := w.blockOffset + (Log.kHeaderSize + ptr.length) }
          ∧ (r.1 = .ok → Added env₀ w.dest (before ++ Log.Fragment.encode ⟨type, ptr⟩) t) := by
  have hcrc : Crc32c.extend (w.typeCrc.getD type.toNat 0#32) ptr = Log.Fragment.crc ⟨type, ptr⟩ := by
    rw [hw]
    exact Log.Writer.extend_typeCrc uninit ht ptr
  rw [emitPhysicalRecord, hcrc]
  refine Keeps.lift_bind fun _ _ => Keeps.lift_bind fun _ _ => ?_
  set header := Log.header type (Log.Fragment.crc ⟨type, ptr⟩) ptr.length with hheader
  rw [show Log.Fragment.encode ⟨type, ptr⟩ = header ++ ptr from rfl, ← List.append_assoc]
  have hbefore : before <+: before ++ header ++ ptr := by
    rw [List.append_assoc]
    exact List.prefix_append _ _
  -- each operation runs only if the one before was OK, so the bytes stay a beginning of the record
  set e₁ := env.append w.dest header with he₁
  have h₁ : e₁.1 = .ok → Added env₀ w.dest (before ++ header) e₁.2 := fun hok => h.append hok
  refine Keeps.op_bind ?_ ?_
  · rcases h.append_or header with h' | h'
    · exact ⟨before, hbefore, h'⟩
    · exact ⟨before ++ header, List.prefix_append _ _, h'⟩
  have hpayload : Keeps (Writing env₀ w.dest (before ++ header ++ ptr))
      (onOk e₁.1 (op (Env.append w.dest ptr))) e₁.2 fun s t =>
        s = .ok → Added env₀ w.dest (before ++ header ++ ptr) t := by
    refine keeps_onOk (fun hok => Keeps.op ?_ fun hok' => (h₁ hok).append hok')
      fun hne hok => absurd hok hne
    rcases (h₁ hok).append_or ptr with h' | h'
    · exact ⟨_, List.prefix_append _ _, h'⟩
    · exact ⟨_, List.prefix_refl _, h'⟩
  refine hpayload.bind fun s₂ t₂ h₂ => ?_
  have hflush : Keeps (Writing env₀ w.dest (before ++ header ++ ptr))
      (onOk s₂ (op (Env.flush w.dest))) t₂ fun s t =>
        s = .ok → Added env₀ w.dest (before ++ header ++ ptr) t := by
    refine keeps_onOk (fun hok => ?_) fun _ => h₂
    -- a flush changes no file, whatever its status
    have h₃ := (h₂ hok).same (Env.others_flush w.dest t₂)
    exact Keeps.op ⟨_, List.prefix_refl _, h₃⟩ fun _ => h₃
  exact hflush.bind fun s₃ t₃ h₃ => Keeps.ret ⟨rfl, h₃⟩

/-- **A record that fits** is appended byte by byte. -/
theorem keeps_addRecord_writing {uninit : U32} (hw : w.typeCrc = Log.initTypeCrc uninit)
    (ho : w.blockOffset ≤ Log.kBlockSize) {sle : Bytes}
    (hfit : Log.start w.blockOffset + Log.kHeaderSize + sle.length ≤ Log.kBlockSize)
    (hignored : IgnoresNone (Log.Writer.trailerOps w.blockOffset) env.script) :
    Keeps (Writing env w.dest (layout w.blockOffset [⟨.kFullType, sle⟩])) (addRecord w sle) env
      fun r t => r.2 = w.past sle
        ∧ (r.1 = .ok → Added env w.dest (layout w.blockOffset [⟨.kFullType, sle⟩]) t) := by
  have hlayout : layout w.blockOffset [⟨.kFullType, sle⟩]
      = zeros (Log.padding w.blockOffset) ++ Log.Fragment.encode ⟨.kFullType, sle⟩ :=
    List.append_nil _
  have havail := (Log.fits_iff_avail ho sle).mp hfit
  rw [hlayout]
  -- the loop ends behind its first turn
  have hturn : Keeps (Writing env w.dest
      (zeros (Log.padding w.blockOffset) ++ Log.Fragment.encode ⟨.kFullType, sle⟩))
      (addRecordTurn (true, sle, w)) env fun r t => ∃ r', r = .inr r' ∧ r'.2 = w.past sle
        ∧ (r'.1 = .ok → Added env w.dest
          (zeros (Log.padding w.blockOffset) ++ Log.Fragment.encode ⟨.kFullType, sle⟩) t) := by
    rw [addRecordTurn]
    refine Keeps.lift_bind fun _ _ => (keeps_switchBlock_writing _ hignored).bind ?_
    rintro w' t ⟨rfl, hadded⟩
    refine Keeps.lift_bind fun _ _ => ?_
    have hmin : (if sle.length < Log.kBlockSize - Log.start w.blockOffset - Log.kHeaderSize then
        sle.length else Log.kBlockSize - Log.start w.blockOffset - Log.kHeaderSize) = sle.length := by
      have : Log.Writer.avail w.blockOffset
          = Log.kBlockSize - Log.start w.blockOffset - Log.kHeaderSize := rfl
      split_ifs <;> omega
    simp only [hmin, List.take_length, List.drop_length, List.length_nil, lt_irrefl, decide_false,
      Bool.and_false, Bool.false_eq_true, if_false, decide_true]
    refine (keeps_emitPhysicalRecord_writing (w := { w with blockOffset := Log.start w.blockOffset })
      hw (show Log.RecordType.kFullType ≠ .kLastType from Log.RecordType.noConfusion) sle hadded).bind ?_
    rintro ⟨s, w''⟩ u ⟨hw'', hs⟩
    refine Keeps.ret ⟨_, rfl, ?_, hs⟩
    rw [hw'', Log.Writer.past, Log.next, Nat.add_assoc]
  rw [addRecord, Prog.loop]
  refine hturn.bind ?_
  rintro r t ⟨r', rfl, hr'⟩
  exact Keeps.ret hr'

/-! ## Writing to the manifest -/

open VersionSet (Decode EndsWith)

variable {dbname name : Bytes} {entries : List (VersionEdit × Bool)} {names : List Bytes}
  {α : Type} {p : Prog Fault Env α} {Q : α → Env → Prop}

/-- A program that changes other files only. -/
theorem keeps_durable_others (h : Durable dbname name env none entries)
    (hspared : Spared dbname names env) (hp : Keeps (Env.Others names) p env Q) :
    Keeps (fun _ t => Durable dbname name t none entries) p env fun a t =>
      Q a t ∧ Durable dbname name t none entries ∧ Spared dbname names t := by
  refine hp.strengthen (fun t => Durable dbname name t none entries ∧ Spared dbname names t)
    ⟨h, hspared⟩ ?_
  rintro t u ⟨h, hspared⟩ ho
  have hu := h.others hspared ho
  exact ⟨hu, hu, hspared.others ho⟩

/-- An edit whose record is `record`, with all the numbers that `recover` asks for. -/
structure Records (edit : VersionEdit) (record : Bytes) : Prop where
  encoded : edit.encodeTo = .ok record
  decoded : VersionEdit.decodeFrom record = .ok (.ok, edit.written)
  ends : ∀ before, EndsWith (before ++ [edit.written]) edit

/-- The record of an edit is appended to the manifest that `CURRENT` names, and synced. -/
theorem keeps_appendEdit_durable {vs : VersionSet} {log : Log.Writer} (hlog : vs.descriptorLog = some log)
    (hfile : vs.descriptorFile = some log.dest) {uninit : U32}
    (hcrc : log.typeCrc = Log.initTypeCrc uninit) (ho : log.blockOffset ≤ Log.kBlockSize)
    {edit : VersionEdit} {record : Bytes} (hrecord : Records edit record)
    (hfit : Log.start log.blockOffset + Log.kHeaderSize + record.length ≤ Log.kBlockSize)
    (hignored : IgnoresNone (Log.Writer.trailerOps log.blockOffset) env.script)
    (h : Durable dbname name env (some log) entries) :
    Keeps (fun _ t => Durable dbname name t none (entries ++ [(edit, false)])) (appendEdit vs edit) env
      fun r t => r.1 = .ok → Durable dbname name t none (entries ++ [(edit, true)]) := by
  have hwriting : ∀ t u, Writing env log.dest (layout log.blockOffset [⟨.kFullType, record⟩]) t u →
      Durable dbname name u none (entries ++ [(edit, false)]) := by
    rintro t u ⟨done, hdone, hadded⟩
    exact h.written hfit hrecord.decoded hrecord.ends hdone hadded
  rw [appendEdit, hlog]
  refine Keeps.lift_bind fun record' hrecord' => Keeps.lift_bind fun log' hlog' => ?_
  obtain rfl := Except.ok.inj (hrecord'.symm.trans hrecord.encoded)
  cases hlog'
  refine ((keeps_addRecord_writing hcrc ho hfit hignored).mono hwriting fun _ _ hr => hr.2).bind ?_
  rintro ⟨s, log'⟩ t hadded
  simp only at hadded ⊢
  split_ifs with hs
  · have hadded := hadded ((Status.isOk_iff s).mp hs)
    refine Keeps.lift_bind fun file hfile' => ?_
    obtain rfl : log.dest = file := Option.some.inj (hfile.symm.trans (deref_eq_ok.mp hfile'))
    -- the sync happens, or it changes nothing
    by_cases hok : (t.sync log.dest).1 = .ok
    · have hsynced := h.synced hfit hrecord.decoded hrecord.ends hadded hok
      exact Keeps.op_bind (hsynced false) (Keeps.ret fun _ => hsynced true)
    · refine Keeps.op_bind ?_ (Keeps.ret fun hs => absurd hs hok)
      exact h.written hfit hrecord.decoded hrecord.ends (List.prefix_refl _)
        (hadded.same (others_sync_of_ne hok))
  · exact Keeps.ret fun hs' => absurd ((Status.isOk_iff s).mpr hs') hs

/-! ## Switching `CURRENT` -/

/-- **`CURRENT` is switched** to a manifest that is complete and synced. -/
theorem keeps_setCurrentFile_durable {number : U64} {f : File} {records : List Bytes}
    {read : List VersionEdit} {edit : VersionEdit}
    (h : Durable dbname name env none (entries ++ [(edit, false)]))
    (hf : env.files.lookup (dbname ++ text "/" ++ descriptorBaseName number) = some f)
    (hkept : f.kept = f.data) (hdata : f.data = layout 0 (fulls records)) (hfits : AllFit 0 records)
    (hdecode : Decode records read)
    (hmem : ∀ e ∈ read, e = ({} : VersionEdit).setComparatorName name ∨ e = edit.written)
    (hends : EndsWith read edit) :
    Keeps (fun _ t => Durable dbname name t none (entries ++ [(edit, false)]))
      (setCurrentFile dbname number) env fun s t =>
        Durable dbname name t none (entries ++ [(edit, s.isOk)]) := by
  set m := dbname ++ text "/" ++ descriptorBaseName number with hm
  set tmp := makeFileName dbname number "dbtmp" with htmp
  have hmt : m ≠ tmp := (tempFile_ne_descriptorFile dbname number number).symm
  have hmc : m ≠ currentFileName dbname := descriptorFile_ne_current dbname number
  have hsynced : (layout 0 (fulls records)).length ≤ f.synced := by
    have hlen := congrArg List.length hkept
    rw [File.kept, List.length_take] at hlen
    rw [← hdata]
    omega
  -- once `CURRENT` names the manifest, the edit is there, whether or not the call returns
  have hswitched : ∀ (t : Env) (c : File) (b : Bool), t.files.lookup m = some f →
      t.files.lookup (currentFileName dbname) = some c →
      c.data = descriptorBaseName number ++ text "\n" → c.kept = c.data →
      Durable dbname name t none (entries ++ [(edit, b)]) := by
    intro t c b hf hc hcdata hckept
    have htorn := Log.torn_nil (Log.endOffset_le (Nat.zero_le _) (Log.fits_fulls.mpr hfits))
    have hdisk : OnDisk dbname t number records [] := by
      refine ⟨?_, ?_, hfits, htorn⟩
      · rw [Env.content, hc, Option.map_some, hcdata]
      · rw [Env.content, ← hm, hf, Option.map_some, hdata, List.append_nil]
    refine hdisk.durable hdecode (fun e he => ?_) ⟨fun c' hc' => ?_, fun f' hf' => ?_⟩
      (mayBeLast_concat entries edit b) hends
    · exact (hmem e he).imp id fun heq => ⟨(edit, b), by simp, heq⟩
    · cases hc.symm.trans hc'
      exact hckept
    · cases hf.symm.trans hf'
      exact hsynced
  refine ((keeps_setCurrentFile dbname number env).strengthen
    (fun t => Durable dbname name t none (entries ++ [(edit, false)]) ∧ t.files.lookup m = some f)
    ⟨h, hf⟩ ?_).mono (fun _ _ h => h) ?_
  · rintro t u ⟨h, hf⟩ (ho | ⟨ho, c, hc, hcdata, hckept⟩)
    · -- the temporary file is neither `CURRENT` nor a manifest
      have hspared : Spared dbname [tmp] t := by
        refine ⟨fun hmem => ?_, fun c hc hmem => ?_⟩
        · exact tempFile_ne_current dbname number (List.mem_singleton.mp hmem).symm
        · obtain ⟨n, rfl⟩ := h.exists_number hc
          rw [manifestPath_eq] at hmem
          exact tempFile_ne_descriptorFile dbname number n (List.mem_singleton.mp hmem).symm
      have hu := h.others hspared ho
      exact ⟨hu, hu, (ho m fun hmem => hmt (List.mem_singleton.mp hmem)).trans hf⟩
    · have hfu : u.files.lookup m = some f := by
        refine (ho m fun hmem => ?_).trans hf
        rcases List.mem_cons.mp hmem with he | hmem
        · exact hmt he
        · exact hmc (List.mem_singleton.mp hmem)
      have hu := hswitched u c false hfu hc hcdata hckept
      exact ⟨hu, hu, hfu⟩
  · rintro s t ⟨⟨-, hok⟩, h, hf⟩
    cases hs : s.isOk with
    | true =>
        obtain ⟨c, hc, hcdata⟩ := hok ((Status.isOk_iff s).mp hs)
        exact hswitched t c true hf hc hcdata (h.kept_current hc)
    | false => exact h

/-! ## `log_any_apply` -/

open VersionSet (Bare)

variable {vs : VersionSet} {edit : VersionEdit} {uninit : U32}

/-- The operations of a manifest that is being created change that file only. -/
theorem keeps_openManifest_others (hlog : vs.descriptorLog = none) (uninit : U32) (env : Env) :
    Keeps (Env.Others [vs.dbname ++ text "/" ++ descriptorBaseName vs.manifestFileNumber])
      (openManifest vs uninit) env fun r _ =>
        r.2.1 = vs.dbname ++ text "/" ++ descriptorBaseName vs.manifestFileNumber := by
  rw [openManifest, hlog]
  refine Keeps.lift_bind fun _ _ => Keeps.lift_bind fun m hm => ?_
  obtain ⟨_, -, hm⟩ := bind_eq_ok.mp hm
  cases hm
  refine Keeps.op_bind (Env.others_newWritableFile _ _) ?_
  split_ifs with hok
  · have hholds := holds_new ((Status.isOk_iff _).mp hok)
    have hcrc : ∀ dest, (Log.Writer.new dest uninit).typeCrc = Log.initTypeCrc uninit := fun _ => rfl
    exact (keeps_writeSnapShot (hcrc _) hholds).bind fun _ _ _ => Keeps.ret rfl
  · exact Keeps.ret rfl

/-- After a record has been appended to a manifest and synced, all its bytes are synced. -/
theorem keeps_appendEdit_others {log : Log.Writer} (hlog : vs.descriptorLog = some log)
    (hfile : vs.descriptorFile = some log.dest) (hcrc : log.typeCrc = Log.initTypeCrc uninit)
    (edit : VersionEdit) (env : Env) :
    Keeps (Env.Others [log.dest]) (appendEdit vs edit) env fun r t => r.1 = .ok →
      ∀ f, t.files.lookup log.dest = some f → f.kept = f.data := by
  rw [appendEdit, hlog]
  refine Keeps.lift_bind fun record _ => Keeps.lift_bind fun log' hlog' => ?_
  cases hlog'
  refine ((keeps_addRecord hcrc record env).mono (fun _ _ h => h.others) fun _ _ h => h).bind ?_
  rintro ⟨s, log'⟩ t -
  simp only
  split_ifs with hs
  · refine Keeps.lift_bind fun file hfile' => ?_
    obtain rfl : log.dest = file := Option.some.inj (hfile.symm.trans (deref_eq_ok.mp hfile'))
    refine Keeps.op_bind (Env.others_sync _ _) (Keeps.ret fun hok f hf => ?_)
    rw [Env.lookup_sync hok] at hf
    obtain ⟨f₀, -, rfl⟩ := Option.map_eq_some_iff.mp hf
    exact List.take_length
  · exact Keeps.ret fun hok => absurd ((Status.isOk_iff s).mpr hok) hs

theorem map_eq_ok {α β : Type} {x : Except Fault α} {f : α → β} {b : β} :
    x.map f = .ok b ↔ ∃ a, x = .ok a ∧ f a = b := by
  cases x with
  | error e => simp [Except.map]
  | ok a => simp [Except.map]

theorem openManifest_of_outcome {r : Status × Bytes × VersionSet} {env' : Env}
    (h : (openManifest vs uninit).outcome env = .ok (r, env')) :
    vs.openManifest uninit env = .ok (r.1, r.2.1, r.2.2, env') := by
  rw [outcome_openManifest] at h
  obtain ⟨r', hrun, heq⟩ := map_eq_ok.mp h
  cases heq
  exact hrun

theorem appendEdit_of_outcome {r : Status × VersionSet} {env' : Env}
    (h : (appendEdit vs edit).outcome env = .ok (r, env')) :
    vs.appendEdit edit env = .ok (r.1, r.2, env') := by
  rw [outcome_appendEdit] at h
  obtain ⟨r', hrun, heq⟩ := map_eq_ok.mp h
  cases heq
  exact hrun

theorem writeEdit_of_outcome {r : Status × Bytes × VersionSet} {env' : Env}
    (h : (writeEdit vs edit uninit).outcome env = .ok (r, env')) :
    vs.writeEdit edit uninit env = .ok (r.1, r.2.1, r.2.2, env') := by
  rw [outcome_writeEdit] at h
  obtain ⟨r', hrun, heq⟩ := map_eq_ok.mp h
  cases heq
  exact hrun

end Steps

namespace VersionSet

variable {dbname name : Bytes} {vs vs' : VersionSet} {env env' : Env} {edit : VersionEdit} {m : Bytes}

/-- What is known of the operations of a call that has created its manifest. -/
theorem exists_writeOps_of_openManifest (hlog : vs.descriptorLog = none) {uninit : U32}
    (hopen : vs.openManifest uninit env = .ok (.ok, m, vs', env')) {record : Bytes}
    (hrecord : edit.encodeTo = .ok record) :
    ∃ snapShot snap ops, vs.snapShot = .ok snapShot ∧ snapShot.encodeTo = .ok snap
      ∧ vs.writeOps edit = .ok ops := by
  unfold openManifest at hopen
  rw [hlog] at hopen
  obtain ⟨_, hfile, hopen⟩ := bind_eq_ok.mp hopen
  obtain ⟨mname, hname, hopen⟩ := bind_eq_ok.mp hopen
  simp only at hopen
  split_ifs at hopen with hnew
  · obtain ⟨_, hwrite, -⟩ := bind_eq_ok.mp hopen
    obtain ⟨snapShot, hsnapShot, hwrite⟩ := bind_eq_ok.mp hwrite
    obtain ⟨snap, hsnap, -⟩ := bind_eq_ok.mp hwrite
    have hsnapShot' : vs.snapShot = .ok snapShot := hsnapShot
    have hops : ∃ ops, vs.writeOps edit = .ok ops := by
      rw [writeOps, hrecord, ok_bind, hlog, hfile, ok_bind, hname, ok_bind, hsnapShot', ok_bind,
        hsnap]
      exact ⟨_, rfl⟩
    obtain ⟨ops, hops⟩ := hops
    exact ⟨snapShot, snap, ops, hsnapShot', hsnap, hops⟩
  · have hs := congrArg Prod.fst (Except.ok.inj hopen)
    exact absurd ((Status.isOk_iff _).mpr hs) hnew

/-- **A manifest that has been created** consists of the snapshot and the record of the edit. -/
theorem Bare.content_created (h : Bare dbname name vs) (hlog : vs.descriptorLog = none) {uninit : U32}
    (hopen : vs.openManifest uninit env = .ok (.ok, m, vs', env')) {vs'' : VersionSet} {env'' : Env}
    (happend : vs'.appendEdit edit env' = .ok (.ok, vs'', env'')) {snap record : Bytes}
    (hsnap : (({} : VersionEdit).setComparatorName name).encodeTo = .ok snap)
    (hrecord : edit.encodeTo = .ok record) (hne : record ≠ []) (hfit : AllFit 0 [snap, record])
    {rest : List Bool} (hignored : IgnoresNone ([true] ++ Log.Writer.turnOps 0
      ++ (Log.Writer.turnOps (Log.next 0 ⟨.kFullType, snap⟩) ++ rest)) env.script) :
    env''.content m = some (layout 0 (fulls [snap, record])) := by
  obtain ⟨rfl, hperforms, hcontent⟩ := h.openManifest_created hlog hsnap hfit.1 hopen
  set log := (Log.Writer.new m uninit).past snap with hlogdef
  have hpassed := hperforms.ok_iff.mp rfl
  have hscript : IgnoresNone (Log.Writer.turnOps log.blockOffset) env'.script := by
    rw [(hperforms.passed hpassed).2]
    exact (Env.ignoresNone_append ((Env.ignoresNone_append hignored).2 hpassed)).1
  have hle : log.blockOffset ≤ Log.kBlockSize := hfit.1
  have hlog₁ : VersionSet.descriptorLog { vs with
    descriptorFile := some m, descriptorLog := some log } = some log := rfl
  obtain ⟨⟨s, env₂⟩, happend', hr, hadds⟩ := appendEdit_adds hrecord hne hlog₁ rfl rfl hle hfit.2.1
    hscript
  rw [happend'] at happend
  cases happend
  have hpasses := hr.ok_iff.mp rfl
  rw [Log.Writer.turnOps_eq, List.append_assoc, Env.passes_append] at hpasses
  have hwhole := hadds.whole hpasses.1
  rw [show log.dest = m from rfl, hcontent, Option.map_some] at hwhole
  rw [hwhole]
  exact congrArg some (Log.layout_append 0 [⟨.kFullType, snap⟩] [⟨.kFullType, record⟩]).symm

end VersionSet

namespace Steps

open VersionSet (Decode EndsWith Bare)

variable {dbname name : Bytes} {entries : List (VersionEdit × Bool)} {vs : VersionSet}
  {edit : VersionEdit} {uninit : U32} {env : Env}

/-- **A manifest is created**, with a snapshot and the record of the edit. -/
theorem keeps_writeEdit_created (h : Bare dbname name vs) (hlog : vs.descriptorLog = none)
    (hanother : vs.CreatesAnother env)
    (hrecords : ∀ record, edit.encodeTo = .ok record → Records edit record ∧ record ≠ [])
    (hfits : ∀ snap record, (({} : VersionEdit).setComparatorName name).encodeTo = .ok snap →
      edit.encodeTo = .ok record → AllFit 0 [snap, record])
    (hignored : ∀ ops, vs.writeOps edit = .ok ops → IgnoresNone ops env.script)
    (hdurable : Durable dbname name env none entries) :
    Keeps (fun _ t => Durable dbname name t none (entries ++ [(edit, false)]))
      (writeEdit vs edit uninit) env fun r t =>
        r.1 = .ok → Durable dbname name t none (entries ++ [(edit, true)]) := by
  obtain rfl := h.dbname_eq
  have hdoubt := hdurable.doubt (List.forall_mem_singleton.mpr (rfl : (edit, false).2 = false))
  set m := vs.dbname ++ text "/" ++ descriptorBaseName vs.manifestFileNumber with hm
  -- `CURRENT` names another manifest as long as this one is being written
  have hspared : Spared vs.dbname [m] env := by
    refine ⟨fun hmem => descriptorFile_ne_current _ _ (List.mem_singleton.mp hmem).symm,
      fun c hc hmem => ?_⟩
    obtain ⟨number, rfl⟩ := hdurable.exists_number hc
    rw [manifestPath_eq, List.mem_singleton, hm, inDirectory_inj] at hmem
    have := hanother hlog
    rw [hc, hmem] at this
    exact this rfl
  rw [writeEdit]
  refine (keeps_durable_others hdoubt hspared
    (keeps_openManifest_others hlog uninit env).with_outcome).bind ?_
  rintro ⟨s₁, m₁, vs₁⟩ t₁ ⟨⟨hm₁, hopen⟩, hdurable₁, hspared₁⟩
  have hopen := openManifest_of_outcome hopen
  obtain rfl : m₁ = m := hm₁
  simp only at hopen ⊢
  split_ifs with hs₁
  · exact Keeps.ret fun hok => absurd ((Status.isOk_iff s₁).mpr hok) (by simpa using hs₁)
  obtain rfl : s₁ = .ok := (Status.isOk_iff s₁).mp (by simpa using hs₁)
  obtain ⟨log, hdest, hcrc, rfl⟩ := (VersionSet.openManifest_others hlog hopen).2.2 rfl
  have hopened : ({ vs with descriptorFile := some m, descriptorLog := some log }
      : VersionSet).descriptorLog = some log := rfl
  have happends := keeps_appendEdit_others hopened (congrArg some hdest.symm) hcrc edit t₁
  rw [hdest] at happends
  refine (keeps_durable_others hdurable₁ hspared₁ happends.with_outcome).bind ?_
  rintro ⟨s₂, vs₂⟩ t₂ ⟨⟨hkept, happend⟩, hdurable₂, -⟩
  have happend := appendEdit_of_outcome happend
  simp only at hkept happend ⊢
  split_ifs with hs₂
  · exact Keeps.ret fun hok => absurd ((Status.isOk_iff s₂).mpr hok) (by simpa using hs₂)
  obtain rfl : s₂ = .ok := (Status.isOk_iff s₂).mp (by simpa using hs₂)
  -- all of the manifest is written and synced
  obtain ⟨record, hrecord, -⟩ := bind_eq_ok.mp happend
  obtain ⟨hrecords, hne⟩ := hrecords record hrecord
  obtain ⟨snapShot, snap, ops, hsnapShot, hsnap, hops⟩ :=
    VersionSet.exists_writeOps_of_openManifest hlog hopen hrecord
  obtain rfl := Except.ok.inj (hsnapShot.symm.trans h.snapShot)
  have hfit := hfits snap record hsnap hrecord
  have hignored := hignored ops hops
  obtain rfl := h.writeOps_of_none hlog hsnap hrecord hfit hops
  have hcontent := h.content_created hlog hopen happend hsnap hrecord hne hfit hignored
  obtain ⟨f, hf, hdata⟩ := Option.map_eq_some_iff.mp hcontent
  obtain ⟨log₂, file₂, rfl⟩ := VersionSet.appendEdit_same happend
  have hempty : m.isEmpty = false := by rw [hm]; simp [text]
  rw [switchCurrent, hempty, if_neg Bool.false_ne_true]
  refine (keeps_setCurrentFile_durable hdurable₂ hf (hkept rfl f hf) hdata hfit
    (.cons (VersionSet.decode_snapShot hsnap hfit.1) (.cons hrecords.decoded .nil)) (fun e he => ?_)
    (hrecords.ends [_])).bind fun s₃ t₃ hs₃ => Keeps.ret fun hok => ?_
  swap
  · rwa [(Status.isOk_iff s₃).mpr hok] at hs₃
  rcases List.mem_cons.mp he with rfl | he
  · exact .inl rfl
  · exact .inr (List.mem_singleton.mp he)

/-- The record of the edit goes to the manifest that is open. -/
theorem keeps_writeEdit_appended (h : Bare dbname name vs) {log : Log.Writer}
    (hlog : vs.descriptorLog = some log)
    (hrecords : ∀ record, edit.encodeTo = .ok record → Records edit record ∧ record ≠ [])
    (hfits : ∀ record, edit.encodeTo = .ok record → AllFit log.blockOffset [record])
    (hignored : ∀ ops, vs.writeOps edit = .ok ops → IgnoresNone ops env.script)
    (hdurable : Durable dbname name env (some log) entries) :
    Keeps (fun _ t => Durable dbname name t none (entries ++ [(edit, false)]))
      (writeEdit vs edit uninit) env fun r t =>
        r.1 = .ok → Durable dbname name t none (entries ++ [(edit, true)]) := by
  obtain ⟨ho, uninit', hcrc⟩ := h.log log hlog
  have hfile : vs.descriptorFile = some log.dest := by rw [h.file, hlog]; rfl
  have hopen : openManifest vs uninit = pure (.ok, [], vs) := by
    rw [openManifest, hlog]
  rw [writeEdit, hopen]
  refine (Keeps.ret (Q := fun r t => r = (.ok, [], vs) ∧ t = env) ⟨rfl, rfl⟩).bind ?_
  rintro _ t ⟨rfl, rfl⟩
  simp only [Status.isOk_ok, Bool.not_true, Bool.false_eq_true, if_false]
  cases hencode : edit.encodeTo with
  | error e =>
      -- the call ends before it has done anything
      have hends : Keeps (fun _ t => Durable dbname name t none (entries ++ [(edit, false)]))
          (appendEdit vs edit) t fun _ _ => False := by
        rw [appendEdit, hencode]
        refine Keeps.lift_bind fun _ he => ?_
        cases he
      exact hends.bind fun _ _ hf => hf.elim
  | ok record =>
      obtain ⟨hrecords, -⟩ := hrecords record hencode
      have hfit := hfits record hencode
      have hignored := hignored _ (VersionSet.writeOps_of_some hlog ho hencode hfit)
      rw [Log.Writer.turnOps_eq, Log.Writer.appendOps, List.append_assoc, List.append_assoc] at hignored
      refine (keeps_appendEdit_durable hlog hfile hcrc ho hrecords hfit.1
        (Env.ignoresNone_append hignored).1 hdurable).bind ?_
      rintro ⟨s, vs'⟩ t hs
      simp only at hs ⊢
      split_ifs with hnot
      · exact Keeps.ret hs
      · -- no manifest has been created: `CURRENT` stays as it is
        have hswitch : switchCurrent vs' [] = pure .ok := by
          rw [switchCurrent, List.isEmpty_nil, if_pos rfl]
        rw [hswitch]
        exact Keeps.ret fun _ => hs ((Status.isOk_iff s).mp (by simpa using hnot))

/-- **`log_any_apply`** leaves its edit in doubt until it returns, and then it is acknowledged. -/
theorem keeps_logAnyApply_durable (h : Bare dbname name vs) (hr : vs.Recordable edit env)
    (hwf : edit.WellFormed) {edit' : VersionEdit} (hcomplete : vs.completeEdit edit = .ok edit')
    (hdurable : Durable dbname name env vs.descriptorLog entries) :
    Keeps (fun _ t => Durable dbname name t none (entries ++ [(edit', false)]))
      (logAnyApply vs edit uninit) env fun r t => r.1 = .ok ∧ r.2.1 = edit'
        ∧ Durable dbname name t none (entries ++ [(edit', true)]) := by
  obtain ⟨l, hl⟩ := h.list
  have hcompleted := VersionSet.completed_of_ok hcomplete
  have hcp : edit'.compactPointers = [] := hcompleted.compactPointers.trans hr.compactPointers
  have hrecords : ∀ record, edit'.encodeTo = .ok record → Records edit' record ∧ record ≠ [] := by
    intro record hrecord
    obtain ⟨hne, hdecode⟩ := hcompleted.decode hwf hr.compactPointers hrecord
    exact ⟨⟨hrecord, hdecode, hcompleted.endsWith⟩, hne⟩
  rw [logAnyApply]
  refine Keeps.lift_bind fun edit₁ hedit => ?_
  obtain rfl := Except.ok.inj (hedit.symm.trans hcomplete)
  refine Keeps.lift_bind fun built hbuild => ?_
  obtain ⟨v, vs₁⟩ := built
  obtain ⟨list, hprep, rfl, hbare⟩ := h.buildVersion hl hcp hbuild
  have hignored : ∀ ops, VersionSet.writeOps { vs with list := list } edit₁ = .ok ops →
      IgnoresNone ops env.script := by
    intro ops hops
    refine hr.ignored ops ?_
    rw [VersionSet.operations, hcomplete, ok_bind, hbuild, ok_bind]
    exact hops
  have hcallSome : ∀ log record, vs.descriptorLog = some log → edit₁.encodeTo = .ok record →
      vs.callRecords edit = .ok (log.blockOffset, [record]) := by
    intro log record hlog hrecord
    rw [VersionSet.callRecords, hcomplete, ok_bind, hbuild, ok_bind, hrecord]
    simp only [ok_bind, hlog]
    rfl
  have hcallNone : ∀ snap record, vs.descriptorLog = none → edit₁.encodeTo = .ok record →
      (({} : VersionEdit).setComparatorName name).encodeTo = .ok snap →
      vs.callRecords edit = .ok (0, [snap, record]) := by
    intro snap record hlog hrecord hsnap
    rw [VersionSet.callRecords, hcomplete, ok_bind, hbuild, ok_bind, hrecord]
    simp only [ok_bind, hbare.snapShot, hsnap]
    rw [hlog]
    rfl
  have hwrites : Keeps (fun _ t => Durable dbname name t none (entries ++ [(edit₁, false)]))
      (writeEdit { vs with list := list } edit₁ uninit) env fun r t =>
        r.1 = .ok → Durable dbname name t none (entries ++ [(edit₁, true)]) := by
    rcases Option.eq_none_or_eq_some vs.descriptorLog with hlog | ⟨log, hlog⟩
    · refine keeps_writeEdit_created hbare hlog hr.another hrecords (fun snap record hsnap hrecord => ?_)
        hignored hdurable.closed
      exact hr.fits 0 [snap, record] (hcallNone snap record hlog hrecord hsnap)
    · rw [hlog] at hdurable
      refine keeps_writeEdit_appended hbare hlog hrecords (fun record hrecord => ?_) hignored hdurable
      exact hr.fits _ _ (hcallSome log record hlog hrecord)
  refine hwrites.with_outcome.bind ?_
  rintro ⟨s, m, vs₂⟩ t ⟨hwritten, hwrite⟩
  simp only at hwritten ⊢
  split_ifs with hs
  · have hs := (Status.isOk_iff s).mp hs
    exact Keeps.lift_bind fun vs₃ _ => Keeps.ret ⟨hs, rfl, hwritten hs⟩
  · -- the version that is destroyed was never linked
    have hwrite' := writeEdit_of_outcome hwrite
    have hlist : vs₂.list = list := (VersionSet.writeEdit_same hwrite').list
    obtain ⟨u, hu, hrefs, -, hprev⟩ := hprep.version
    rw [discardVersion, hlist, VersionSet.deleteVersion_of_not_linked hu hrefs hprev]
    refine Keeps.bind (Q := fun _ _ => False) (Keeps.lift_bind fun _ he => ?_) fun _ _ hf => hf.elim
    cases he

/-! ## `recover` -/

/-- Opening a file for appending that is there changes no file. -/
theorem others_newAppendableFile {fname : Bytes} (hmem : fname ∈ env.files) :
    Env.Others [] env (env.newAppendableFile fname).2 := by
  intro g _
  rcases Env.act_cases env fun env => (Status.ok, if fname ∈ env.files then env
    else { env with files := env.files.insert fname { data := [] } }) with ⟨-, hfiles⟩ | ⟨script, hact⟩
  · exact congrArg (AList.lookup g) hfiles
  · rw [Env.newAppendableFile, hact]
    simp only [if_pos hmem]

/-- The manifest that has been read is opened again, and is not changed by that. -/
theorem keeps_reuseManifest_others (vs : VersionSet) {dscname : Bytes} (hmem : dscname ∈ env.files)
    (current : Bytes) (uninit : U32) :
    Keeps (Env.Others []) (reuseManifest vs dscname current uninit) env fun _ _ => True := by
  unfold reuseManifest
  split_ifs
  · exact Keeps.ret trivial
  rcases parseFileName current with _ | ⟨number, type⟩
  · exact Keeps.ret trivial
  cases type with
  | kDescriptorFile =>
      have hsize := Env.others_getFileSize dscname env
      refine Keeps.op_bind hsize ?_
      simp only
      split_ifs
      · exact Keeps.ret trivial
      have hmem' : dscname ∈ (env.getFileSize dscname).2.2.files := by
        rw [← AList.lookup_isSome, hsize _ List.not_mem_nil, AList.lookup_isSome]
        exact hmem
      refine Keeps.lift_bind fun _ _ => Keeps.lift_bind fun _ _ => ?_
      refine Keeps.op_bind (others_newAppendableFile hmem') ?_
      split_ifs
      · exact Keeps.lift_bind fun _ _ => Keeps.ret trivial
      · exact Keeps.ret trivial
  | _ => exact Keeps.ret trivial

theorem keeps_finishRecover_others (vs : VersionSet) (st : VersionSet.RecoverState) (s : Status)
    (prevLogNumber : U64) {dscname : Bytes} (hmem : dscname ∈ env.files) (current : Bytes)
    (saveManifest : Bool) (uninit : U32) :
    Keeps (Env.Others []) (finishRecover vs st s prevLogNumber dscname current saveManifest uninit) env
      fun _ _ => True := by
  unfold finishRecover
  split_ifs
  · rw [installRecovered]
    refine Keeps.lift_bind fun _ _ => Keeps.lift_bind fun _ _ => ?_
    exact (keeps_reuseManifest_others _ hmem _ uninit).bind fun _ _ _ => Keeps.ret trivial
  · exact Keeps.ret trivial

/-- **`recover`** changes no file. -/
theorem keeps_recover_others (vs : VersionSet) (saveManifest : Bool) (uninit : U32) (env : Env) :
    Keeps (Env.Others []) (recover vs saveManifest uninit) env fun _ _ => True := by
  -- a file that could be opened is there
  have hopen : ∀ (fname : Bytes) (env : Env), Keeps (Env.Others []) (newSequentialFile fname) env
      fun r t => r.1 = .ok → fname ∈ t.files := by
    intro fname env
    refine Keeps.op (Env.others_newSequentialFile fname env) fun hok => ?_
    rcases hnew : env.newSequentialFile fname with ⟨s, file, env'⟩
    rw [hnew] at hok
    obtain rfl : s = .ok := hok
    obtain ⟨hfiles, f, hf, -⟩ := Env.newSequentialFile_ok hnew
    show fname ∈ env'.files
    rw [hfiles]
    exact Env.mem_of_lookup hf
  have hread : Keeps (Env.Others []) (readFileToString (currentFileName vs.dbname)) env
      fun _ _ => True := by
    rw [readFileToString]
    refine (hopen _ _).bind ?_
    rintro ⟨s, file⟩ t -
    simp only
    split_ifs
    · exact Keeps.ret trivial
    · exact Keeps.lift fun _ _ => trivial
  rw [recover]
  refine hread.bind ?_
  rintro ⟨s, current⟩ t -
  simp only
  split_ifs
  · exact Keeps.ret trivial
  · exact Keeps.ret trivial
  refine (hopen _ _).bind ?_
  rintro ⟨s, file⟩ t hmem
  simp only at hmem ⊢
  split_ifs with hs
  · exact Keeps.ret trivial
  · exact Keeps.ret trivial
  have hmem := hmem ((Status.isOk_iff s).mp (by simpa using hs))
  rw [recoverFrom]
  refine Keeps.lift_bind fun built _ => Keeps.lift_bind fun st _ => ?_
  exact (keeps_finishRecover_others _ st _ _ hmem _ saveManifest uninit).bind fun _ _ _ =>
    Keeps.lift_bind fun _ _ => Keeps.ret trivial

/-! ## `NewDB` -/

/-- The first edit of a database is read back. -/
theorem decode_newDbEdit {name record : Bytes} (hrecord : (DbImpl.newDbEdit name).encodeTo = .ok record)
    (hfit : Log.start 0 + Log.kHeaderSize + record.length ≤ Log.kBlockSize) :
    VersionEdit.decodeFrom record = .ok (.ok, DbImpl.newDbEdit name) := by
  have hlength : name.length < 2 ^ 32 := by
    have hle : name.length ≤ record.length := VersionEdit.comparator_length_le hrecord rfl
    have : Log.kBlockSize = 32768 := rfl
    omega
  have hbuilt : DbImpl.newDbEdit name = VersionEdit.built
      [.setComparatorName name, .setLogNumber 0, .setNextFile 2, .setLastSequence 0] := rfl
  have hwf : (DbImpl.newDbEdit name).WellFormed := by
    rw [hbuilt]
    refine VersionEdit.wellFormed_built fun u hu => ?_
    simp only [List.mem_cons, List.not_mem_nil, or_false] at hu
    rcases hu with rfl | rfl | rfl | rfl
    · exact hlength
    all_goals trivial
  exact hwf.decodeFrom_record rfl hrecord

/-- **`NewDB`**, called while there is no database. -/
theorem keeps_newDb_durable (db : DbImpl) (uninit : U32)
    (habsent : env.content (currentFileName db.dbname) = none)
    (hfits : ∀ record, (DbImpl.newDbEdit db.userComparator.name).encodeTo = .ok record →
      AllFit 0 [record])
    (hdurable : Durable db.dbname db.userComparator.name env none entries) :
    Keeps (fun _ t => Durable db.dbname db.userComparator.name t none
        (entries ++ [(DbImpl.newDbEdit db.userComparator.name, false)]))
      (newDb db uninit) env fun s t => Durable db.dbname db.userComparator.name t none
        (entries ++ [(DbImpl.newDbEdit db.userComparator.name, s.isOk)]) := by
  set name := db.userComparator.name with hname
  set edit := DbImpl.newDbEdit name with hedit
  have hdoubt := hdurable.doubt (List.forall_mem_singleton.mpr (rfl : (edit, false).2 = false))
  rw [newDb]
  refine Keeps.lift_bind fun m hm => ?_
  obtain ⟨_, -, hm⟩ := bind_eq_ok.mp hm
  cases hm
  set m := db.dbname ++ text "/" ++ descriptorBaseName 1 with hm
  have hspared : Spared db.dbname [m] env := by
    refine ⟨fun hmem => ?_, fun c hc => by cases hc.symm.trans habsent⟩
    exact descriptorFile_ne_current db.dbname 1 (List.mem_singleton.mp hmem).symm
  have hnew := Env.others_newWritableFile m env
  have hdoubt₁ := hdoubt.others hspared hnew
  have hspared₁ := hspared.others hnew
  -- as long as the status is not OK, the edit is in doubt
  have hfailed : ∀ (s : Status) (t : Env), s ≠ .ok →
      Durable db.dbname name t none (entries ++ [(edit, false)]) →
      Durable db.dbname name t none (entries ++ [(edit, s.isOk)]) := by
    intro s t hs h
    rwa [Bool.eq_false_iff.mpr (mt (Status.isOk_iff s).mp hs)]
  refine Keeps.op_bind hdoubt₁ ?_
  split_ifs with hok
  · exact Keeps.ret (hfailed _ _ (mt (Status.isOk_iff _).mpr (by simpa using hok)) hdoubt₁)
  have hok : (env.newWritableFile m).1 = .ok := (Status.isOk_iff _).mp (by simpa using hok)
  refine Keeps.lift_bind fun record hrecord => ?_
  have hfit := hfits record hrecord
  obtain ⟨⟨s₁, env₁⟩, hadd, -, hcontent⟩ := newWritableFile_record m uninit
    (VersionEdit.encodeTo_ne_nil hrecord (.inl rfl)) hfit.1 hok
  -- the manifest is written, synced and closed while there is no `CURRENT`
  have hadded : Keeps (Env.Others [m]) (addRecord (Log.Writer.new m uninit) record)
      (env.newWritableFile m).2 fun r t => r.1 = .ok →
        t.content m = some (layout 0 (fulls [record])) := by
    refine ((keeps_addRecord (w := Log.Writer.new m uninit) rfl record _).mono
      (fun _ _ h => h.others) fun _ _ _ => trivial).with_outcome.mono (fun _ _ h => h) ?_
    rintro r t ⟨-, hrun⟩ hr
    rw [outcome_addRecord, hadd] at hrun
    cases hrun
    exact hcontent hr
  refine (keeps_durable_others hdoubt₁ hspared₁ hadded).bind ?_
  rintro ⟨s, w⟩ t ⟨hcontent, hdoubt₂, hspared₂⟩
  have hsync : Keeps (Env.Others [m]) (onOk s (op (Env.sync m))) t fun s u => s = .ok →
      ∃ f, u.files.lookup m = some f ∧ f.kept = f.data ∧ f.data = layout 0 (fulls [record]) := by
    refine keeps_onOk (fun hs => Keeps.op (Env.others_sync _ _) fun hok => ?_)
      fun hne hs => absurd hs hne
    obtain ⟨f, hf, hdata⟩ := Option.map_eq_some_iff.mp (hcontent hs)
    exact ⟨{ f with synced := f.data.length }, by rw [Env.lookup_sync hok, hf, Option.map_some],
      List.take_length, hdata⟩
  refine (keeps_durable_others hdoubt₂ hspared₂ hsync).bind ?_
  rintro s t ⟨hsynced, hdoubt₃, hspared₃⟩
  have hclose : Keeps (Env.Others [m]) (onOk s (op (Env.close m))) t fun s u => s = .ok →
      ∃ f, u.files.lookup m = some f ∧ f.kept = f.data ∧ f.data = layout 0 (fulls [record]) := by
    have hsame := Env.others_close m t
    refine keeps_onOk (fun hs => Keeps.op (hsame.mono (List.nil_subset _)) fun _ => ?_)
      fun hne hs => absurd hs hne
    rw [hsame _ List.not_mem_nil]
    exact hsynced hs
  refine (keeps_durable_others hdoubt₃ hspared₃ hclose).bind ?_
  rintro s t ⟨hclosed, hdoubt₄, hspared₄⟩
  split_ifs with hs
  · obtain ⟨f, hf, hkept, hdata⟩ := hclosed ((Status.isOk_iff s).mp hs)
    exact keeps_setCurrentFile_durable hdoubt₄ hf hkept hdata hfit
      (.cons (decode_newDbEdit hrecord hfit.1) .nil) (fun e he => .inr (List.mem_singleton.mp he))
      ⟨rfl, rfl, rfl, rfl⟩
  · -- what has been written of the manifest is removed
    have hs : s ≠ .ok := mt (Status.isOk_iff s).mpr hs
    refine (keeps_durable_others hdoubt₄ hspared₄
      (keeps_orRemove fun _ => Env.others_removeFile m t)).mono (fun _ _ h => h) ?_
    rintro s' t' ⟨⟨rfl, -⟩, hdoubt₅, -⟩
    exact hfailed _ _ hs hdoubt₅

end Steps

end SimpleLeveldb
