import SimpleLeveldb.Steps

set_option autoImplicit false

/-! # What the operations change

The programs of `Steps` up to `set_current_file`, operation by operation: which files an operation
leaves alone (`Env.Others`), that a file which is written to only grows (`Env.Grows`), what is in
a file when all of a record has been written to it (`Fragmented`), and how `CURRENT` comes to name
another manifest (`Steps.Switches`).
-/

namespace SimpleLeveldb

open Prog (Keeps op lift)

/-! ## What a crash keeps -/

/-- The bytes of a file that a crash keeps. -/
def File.kept (f : File) : Bytes := f.data.take f.synced

theorem File.kept_prefix (f : File) : f.kept <+: f.data := List.take_prefix _ _

/-- After a crash. -/
def File.crash (f : File) : File := { data := f.kept, synced := f.kept.length }

theorem File.kept_crash (f : File) : f.crash.kept = f.kept := List.take_length

namespace Env

/-- The environment after a crash: of every file the synced bytes are left. -/
def Crash (env env' : Env) : Prop :=
  ∀ g, env'.files.lookup g = (env.files.lookup g).map File.crash

/-- The same files, with other outcomes of the operations and the reads to come. -/
def SameFiles (env env' : Env) : Prop :=
  ∀ g, (env'.files.lookup g).map (fun f => (f.data, f.synced))
    = (env.files.lookup g).map fun f => (f.data, f.synced)

/-! ## What the operations change -/

/-- No file changes but those with the names `names`. -/
def Others (names : List Bytes) (env env' : Env) : Prop :=
  ∀ g, g ∉ names → env'.files.lookup g = env.files.lookup g

theorem Others.refl (names : List Bytes) (env : Env) : Others names env env := fun _ _ => rfl

theorem Others.trans {names : List Bytes} {env₁ env₂ env₃ : Env} (h₁ : Others names env₁ env₂)
    (h₂ : Others names env₂ env₃) : Others names env₁ env₃ :=
  fun g hg => (h₂ g hg).trans (h₁ g hg)

theorem Others.mono {names names' : List Bytes} {env env' : Env} (h : Others names env env')
    (hsub : names ⊆ names') : Others names' env env' := fun g hg => h g fun hm => hg (hsub hm)

theorem Others.act {names : List Bytes} {f : Env → Status × Env}
    (h : ∀ env : Env, Others names env (f env).2) (env : Env) : Others names env (env.act f).2 :=
  fun g hg => act_lookup fun env => h env g hg

theorem others_newWritableFile (fname : Bytes) (env : Env) :
    Others [fname] env (env.newWritableFile fname).2 :=
  Others.act (fun _ _ hg => AList.lookup_insert_ne (List.ne_of_not_mem_cons hg)) env

theorem others_modify (fname : Bytes) (f : File → File) (env : Env) :
    Others [fname] env (env.modify fname f) :=
  fun _ hg => lookup_modify_ne _ (List.ne_of_not_mem_cons hg) _

theorem others_append (fname data : Bytes) (env : Env) :
    Others [fname] env (env.append fname data).2 :=
  Others.act (fun _ => others_modify _ _ _) env

theorem others_sync (fname : Bytes) (env : Env) : Others [fname] env (env.sync fname).2 :=
  Others.act (fun _ => others_modify _ _ _) env

theorem others_flush (fname : Bytes) (env : Env) : Others [] env (env.flush fname).2 :=
  Others.act (fun _ => Others.refl _ _) env

theorem others_close (fname : Bytes) (env : Env) : Others [] env (env.close fname).2 :=
  Others.act (fun _ => Others.refl _ _) env

theorem others_removeFile (fname : Bytes) (env : Env) :
    Others [fname] env (env.removeFile fname).2 :=
  fun _ hg => lookup_removeFile_ne (List.ne_of_not_mem_cons hg) env

theorem others_newSequentialFile (fname : Bytes) (env : Env) :
    Others [] env (env.newSequentialFile fname).2.2 := by
  have h : Others [] env (env.act fun env =>
      (if fname ∈ env.files then .ok else .notFound fname, env)).2 :=
    Others.act (fun _ => Others.refl _ _) env
  rw [newSequentialFile]
  simp only
  split <;> exact h

theorem others_getFileSize (fname : Bytes) (env : Env) :
    Others [] env (env.getFileSize fname).2.2 :=
  Others.act (f := fun env => (if fname ∈ env.files then .ok else .notFound fname, env))
    (fun _ => Others.refl _ _) env

/-- No file changes but `fname`, which keeps its bytes and its synced bytes. -/
structure Grows (fname : Bytes) (env env' : Env) : Prop where
  others : Others [fname] env env'
  file : ∀ f, env.files.lookup fname = some f →
    ∃ f', env'.files.lookup fname = some f' ∧ f.kept <+: f'.kept

theorem Grows.of_same {fname : Bytes} {env env' : Env} (h : Others [] env env') :
    Grows fname env env' where
  others := h.mono (List.nil_subset _)
  file := fun f hf => ⟨f, (h _ List.not_mem_nil).trans hf, List.prefix_refl _⟩

theorem Grows.modify {fname : Bytes} {f : File → File} (env : Env)
    (h : ∀ file : File, file.kept <+: (f file).kept) : Grows fname env (env.modify fname f) where
  others := others_modify _ _ _
  file := fun file hfile => ⟨f file, by rw [lookup_modify, hfile, Option.map_some], h file⟩

theorem Grows.act {fname : Bytes} {f : Env → Status × Env} (h : ∀ env : Env, Grows fname env (f env).2)
    (env : Env) : Grows fname env (env.act f).2 := by
  rcases act_cases env f with ⟨-, hfiles⟩ | ⟨script, hact⟩
  · exact Grows.of_same fun g _ => by rw [hfiles]
  · rw [hact]
    exact ⟨(h { env with script := script }).others, (h { env with script := script }).file⟩

theorem grows_append (fname data : Bytes) (env : Env) : Grows fname env (env.append fname data).2 := by
  refine Grows.act (fun env => Grows.modify env fun file => ?_) env
  show file.data.take file.synced <+: (file.data ++ data).take file.synced
  rw [List.take_append]
  exact List.prefix_append _ _

theorem grows_sync (fname : Bytes) (env : Env) : Grows fname env (env.sync fname).2 := by
  refine Grows.act (fun env => Grows.modify env fun file => ?_) env
  show file.kept <+: file.data.take file.data.length
  rw [List.take_length]
  exact file.kept_prefix

theorem grows_flush (fname : Bytes) (env : Env) : Grows fname env (env.flush fname).2 :=
  Grows.of_same (others_flush fname env)

theorem grows_newAppendableFile (fname : Bytes) (env : Env) :
    Grows fname env (env.newAppendableFile fname).2 := by
  refine Grows.act (fun env => ?_) env
  simp only
  split_ifs with hmem
  · exact Grows.of_same (Others.refl _ _)
  · refine ⟨fun g hg => AList.lookup_insert_ne (List.ne_of_not_mem_cons hg), fun f hf => ?_⟩
    exact absurd (mem_of_lookup hf) hmem

/-- What a successful append leaves. -/
theorem lookup_append {fname data : Bytes} {env : Env} (h : (env.append fname data).1 = .ok) :
    (env.append fname data).2.files.lookup fname
      = (env.files.lookup fname).map fun f => { f with data := f.data ++ data } := by
  rcases act_cases env fun env =>
    (.ok, env.modify fname fun f => { f with data := f.data ++ data }) with ⟨hne, -⟩ | ⟨script, hact⟩
  · exact absurd h hne
  · rw [append, hact]
    exact lookup_modify _ _ _

/-- What a successful sync leaves. -/
theorem lookup_sync {fname : Bytes} {env : Env} (h : (env.sync fname).1 = .ok) :
    (env.sync fname).2.files.lookup fname
      = (env.files.lookup fname).map fun f => { f with synced := f.data.length } := by
  rcases act_cases env fun env =>
    (.ok, env.modify fname fun f => { f with synced := f.data.length }) with ⟨hne, -⟩ | ⟨script, hact⟩
  · exact absurd h hne
  · rw [sync, hact]
    exact lookup_modify _ _ _

theorem lookup_newWritableFile {fname : Bytes} {env : Env} (h : (env.newWritableFile fname).1 = .ok) :
    (env.newWritableFile fname).2.files.lookup fname = some { data := [] } := by
  rcases act_cases env fun env =>
    (.ok, { env with files := env.files.insert fname { data := [] } }) with ⟨hne, -⟩ | ⟨script, hact⟩
  · exact absurd h hne
  · rw [newWritableFile, hact]
    exact AList.lookup_insert _

/-- Renaming a file that is there fails, or puts it in the place of the other one. -/
theorem renameFile_cases {src : Bytes} (target : Bytes) {env : Env} {f : File}
    (hf : env.files.lookup src = some f) :
    ((env.renameFile src target).1 ≠ .ok ∧ (env.renameFile src target).2.files = env.files)
      ∨ (env.renameFile src target).1 = .ok ∧ Others [src, target] env (env.renameFile src target).2
        ∧ (env.renameFile src target).2.files.lookup target = some f := by
  have hcases : ((env.renameFile src target).1 ≠ .ok
        ∧ (env.renameFile src target).2.files = env.files)
      ∨ ∃ script, env.renameFile src target = (.ok,
        { env with files := (env.files.erase src).insert target f, script := script }) := by
    unfold renameFile
    refine (act_cases env _).imp id ?_
    rintro ⟨script, hact⟩
    refine ⟨script, ?_⟩
    rw [hact]
    simp only [hf]
  rcases hcases with hfiles | ⟨script, heq⟩
  · exact .inl hfiles
  · rw [heq]
    refine .inr ⟨rfl, fun g hg => ?_, AList.lookup_insert _⟩
    rw [List.mem_cons, List.mem_singleton, not_or] at hg
    exact (AList.lookup_insert_ne hg.2).trans (AList.lookup_erase_ne hg.1)

end Env

/-! ## Writing a record -/

/-- The bytes of a record, cut into the payloads of physical records, each of them behind its
header and perhaps a block trailer. -/
inductive Fragmented : Bytes → Bytes → Prop
  | nil : Fragmented [] []
  | snoc {record bytes : Bytes} (k : Nat) (f : Log.Fragment) :
      Fragmented record bytes → Fragmented (record ++ f.payload) (bytes ++ zeros k ++ f.encode)

namespace Steps

/-- From `env₀` on, nothing has changed but the file `fname`, to which `bytes` has been
appended. -/
structure Added (env₀ : Env) (fname bytes : Bytes) (env : Env) : Prop where
  others : Env.Others [fname] env₀ env
  file : ∀ f, env₀.files.lookup fname = some f →
    env.files.lookup fname = some { f with data := f.data ++ bytes }

theorem Added.refl (env : Env) (fname : Bytes) : Added env fname [] env where
  others := Env.Others.refl _ _
  file := fun f hf => by rw [hf, List.append_nil]

theorem Added.append {env₀ env : Env} {fname bytes : Bytes} (h : Added env₀ fname bytes env)
    {data : Bytes} (hok : (env.append fname data).1 = .ok) :
    Added env₀ fname (bytes ++ data) (env.append fname data).2 where
  others := h.others.trans (Env.others_append _ _ _)
  file := fun f hf => by
    rw [Env.lookup_append hok, h.file f hf, Option.map_some, List.append_assoc]

/-- An append whose status is ignored has happened, or has not. -/
theorem Added.append_or {env₀ env : Env} {fname bytes : Bytes} (h : Added env₀ fname bytes env)
    (data : Bytes) : Added env₀ fname bytes (env.append fname data).2
      ∨ Added env₀ fname (bytes ++ data) (env.append fname data).2 := by
  rcases Env.act_cases env fun env =>
    (.ok, env.modify fname fun f => { f with data := f.data ++ data }) with ⟨-, hfiles⟩ | ⟨script, hact⟩
  · exact .inl ⟨h.others.trans (Env.others_append _ _ _), fun f hf =>
      (congrArg (AList.lookup fname) hfiles).trans (h.file f hf)⟩
  · refine .inr (h.append ?_)
    rw [Env.append, hact]

theorem Added.same {env₀ env env' : Env} {fname bytes : Bytes} (h : Added env₀ fname bytes env)
    (hsame : Env.Others [] env env') : Added env₀ fname bytes env' where
  others := h.others.trans (hsame.mono (List.nil_subset _))
  file := fun f hf => (hsame _ List.not_mem_nil).trans (h.file f hf)

variable {R : Env → Env → Prop} {Q : Status → Env → Prop} {env₀ env : Env} {bytes : Bytes}

theorem keeps_onOk {s : Status} {next : Prog Fault Env Status}
    (hok : s = .ok → Keeps R next env Q) (herr : s ≠ .ok → Q s env) :
    Keeps R (onOk s next) env Q := by
  unfold onOk
  split_ifs with h
  · exact hok ((Status.isOk_iff s).mp h)
  · exact Keeps.ret (herr (mt (Status.isOk_iff s).mpr h))

/-- The physical record is appended: all of it, when the status is OK. -/
theorem keeps_emitPhysicalRecord {w : Log.Writer} {uninit : U32}
    (hw : w.typeCrc = Log.initTypeCrc uninit) {type : Log.RecordType} (ht : type ≠ .kLastType)
    (ptr : Bytes) (h : Added env₀ w.dest bytes env) :
    Keeps (Env.Grows w.dest) (emitPhysicalRecord w type ptr) env fun r t =>
      (∃ o, r.2 = { w with blockOffset := o }) ∧ Env.Others [w.dest] env₀ t
        ∧ (r.1 = .ok → Added env₀ w.dest (bytes ++ Log.Fragment.encode ⟨type, ptr⟩) t) := by
  rw [emitPhysicalRecord]
  refine Keeps.lift_bind fun _ _ => Keeps.lift_bind fun _ _ => ?_
  refine Keeps.op_bind (Env.grows_append _ _ _) ?_
  have hcrc : Crc32c.extend (w.typeCrc.getD type.toNat 0#32) ptr = Log.Fragment.crc ⟨type, ptr⟩ := by
    rw [hw]
    exact Log.Writer.extend_typeCrc uninit ht ptr
  rw [hcrc]
  set header := Log.header type (Log.Fragment.crc ⟨type, ptr⟩) ptr.length with hheader
  set e₁ := env.append w.dest header with he₁
  have h₁ : e₁.1 = .ok → Added env₀ w.dest (bytes ++ header) e₁.2 := fun hok => h.append hok
  have ho₁ : Env.Others [w.dest] env₀ e₁.2 := h.others.trans (Env.others_append _ _ _)
  have hpayload : Keeps (Env.Grows w.dest) (onOk e₁.1 (op (Env.append w.dest ptr))) e₁.2 fun s t =>
      Env.Others [w.dest] env₀ t ∧ (s = .ok → Added env₀ w.dest (bytes ++ (header ++ ptr)) t) := by
    refine keeps_onOk (fun hok => Keeps.op (Env.grows_append _ _ _) ?_) fun hne => ⟨ho₁, fun hok => absurd hok hne⟩
    refine ⟨ho₁.trans (Env.others_append _ _ _), fun hok₂ => ?_⟩
    rw [← List.append_assoc]
    exact (h₁ hok).append hok₂
  refine hpayload.bind fun s₂ t₂ h₂ => ?_
  have hflush : Keeps (Env.Grows w.dest) (onOk s₂ (op (Env.flush w.dest))) t₂ fun s t =>
      Env.Others [w.dest] env₀ t ∧ (s = .ok → Added env₀ w.dest (bytes ++ (header ++ ptr)) t) := by
    have hsame := Env.others_flush w.dest t₂
    refine keeps_onOk (fun hok => Keeps.op (Env.grows_flush _ _) ?_) fun hne => h₂
    exact ⟨h₂.1.trans (hsame.mono (List.nil_subset _)), fun _ => (h₂.2 hok).same hsame⟩
  exact hflush.bind fun s₃ t₃ h₃ => Keeps.ret ⟨⟨_, rfl⟩, h₃⟩

theorem keeps_switchBlock {w : Log.Writer} (h : Added env₀ w.dest bytes env) :
    Keeps (Env.Grows w.dest) (switchBlock w) env fun w' t =>
      (∃ o, w' = { w with blockOffset := o }) ∧ Env.Others [w.dest] env₀ t
        ∧ ∃ k, Added env₀ w.dest (bytes ++ zeros k) t := by
  have hnone : ∃ k, Added env₀ w.dest (bytes ++ zeros k) env := ⟨0, by simpa [zeros] using h⟩
  unfold switchBlock
  simp only
  split_ifs with hleft hpos
  · refine Keeps.op_bind (Env.grows_append _ _ _) (Keeps.ret ?_)
    refine ⟨⟨0, rfl⟩, h.others.trans (Env.others_append _ _ _), ?_⟩
    have htake : (zeros 6).take (Log.kBlockSize - w.blockOffset)
        = zeros (min (Log.kBlockSize - w.blockOffset) 6) := List.take_replicate
    rw [htake]
    rcases h.append_or (zeros (min (Log.kBlockSize - w.blockOffset) 6)) with h' | h'
    · exact ⟨0, by simpa [zeros] using h'⟩
    · exact ⟨_, h'⟩
  · exact Keeps.ret ⟨⟨0, rfl⟩, h.others, hnone⟩
  · exact Keeps.ret ⟨⟨w.blockOffset, rfl⟩, h.others, hnone⟩

/-- The record that the loop has appended so far, and what is left of it. -/
structure Adding (env₀ : Env) (w₀ : Log.Writer) (sle : Bytes) (st : Bool × Bytes × Log.Writer)
    (env : Env) : Prop where
  writer : ∃ o, st.2.2 = { w₀ with blockOffset := o }
  bytes : ∃ done bytes, sle = done ++ st.2.1 ∧ Fragmented done bytes
    ∧ Added env₀ w₀.dest bytes env

/-- One turn of the loop of `add_record`. -/
theorem keeps_addRecordTurn {w₀ : Log.Writer} {uninit : U32}
    (hw : w₀.typeCrc = Log.initTypeCrc uninit) {sle : Bytes} {st : Bool × Bytes × Log.Writer}
    (h : Adding env₀ w₀ sle st env) :
    Keeps (Env.Grows w₀.dest) (addRecordTurn st) env fun r t => match r with
      | .inl st' => Adding env₀ w₀ sle st' t
      | .inr r => (∃ o, r.2 = { w₀ with blockOffset := o }) ∧ Env.Others [w₀.dest] env₀ t
        ∧ (r.1 = .ok → ∃ bytes, Fragmented sle bytes ∧ Added env₀ w₀.dest bytes t) := by
  obtain ⟨b, ptr, w⟩ := st
  obtain ⟨⟨o, ho⟩, done, bytes, hsle, hdone, hadded⟩ := h
  obtain rfl : w = { w₀ with blockOffset := o } := ho
  rw [addRecordTurn]
  refine Keeps.lift_bind fun _ _ => ?_
  refine (keeps_switchBlock (w := { w₀ with blockOffset := o }) hadded).bind ?_
  rintro w₁ t₁ ⟨⟨o₁, rfl⟩, ho₁, k, hadded₁⟩
  refine Keeps.lift_bind fun _ _ => ?_
  simp only
  set avail := Log.kBlockSize - o₁ - Log.kHeaderSize with havail
  set n := if ptr.length < avail then ptr.length else avail with hn
  refine (keeps_emitPhysicalRecord (w := { w₀ with blockOffset := o₁ }) hw
    (Log.Writer.fragmentType_ne_kLastType _ _) (ptr.take n) hadded₁).bind ?_
  rintro ⟨s, w₂⟩ t₂ ⟨⟨o₂, hw₂⟩, ho₂, hadded₂⟩
  have hdone₂ := hdone.snoc k ⟨Log.Writer.fragmentType b (ptr.length = n), ptr.take n⟩
  have hsle₂ : sle = done ++ ptr.take n ++ ptr.drop n := by
    rw [List.append_assoc, List.take_append_drop, hsle]
  simp only
  split_ifs with hmore
  · have hok : s = .ok := (Status.isOk_iff s).mp (Bool.and_eq_true_iff.mp hmore).1
    exact Keeps.ret ⟨⟨o₂, hw₂⟩, _, _, hsle₂, hdone₂, hadded₂ hok⟩
  · -- a turn that succeeded is the last one when nothing is left
    refine Keeps.ret ⟨⟨o₂, hw₂⟩, ho₂, fun hok => ?_⟩
    have hdrop : ptr.drop n = [] := by
      rw [show s = .ok from hok] at hmore
      simpa using hmore
    rw [hdrop, List.append_nil] at hsle₂
    rw [hsle₂]
    exact ⟨_, hdone₂, hadded₂ hok⟩

/-- **Writing a record** lets its file grow; when the status is OK, all of the record is there. -/
theorem keeps_addRecord {w : Log.Writer} {uninit : U32} (hw : w.typeCrc = Log.initTypeCrc uninit)
    (sle : Bytes) (env : Env) :
    Keeps (Env.Grows w.dest) (addRecord w sle) env fun r t =>
      (∃ o, r.2 = { w with blockOffset := o }) ∧ Env.Others [w.dest] env t
        ∧ (r.1 = .ok → ∃ bytes, Fragmented sle bytes ∧ Added env w.dest bytes t) := by
  refine Keeps.loop (Adding env w sle) (fun st t hst => (keeps_addRecordTurn hw hst).mono
    (fun _ _ h => h) fun r t hr => ?_) _ _ _ ⟨⟨w.blockOffset, rfl⟩, [], [], rfl, .nil, Added.refl _ _⟩
  cases r with
  | inl st' => exact hr
  | inr r => exact hr

/-! ## Switching `CURRENT` -/

theorem keeps_orRemove {s : Status} {fname : Bytes} {env : Env} (hR : s ≠ .ok →
    R env (env.removeFile fname).2) :
    Keeps R (orRemove s fname) env fun s' t => s' = s ∧ (s = .ok → t = env) := by
  unfold orRemove
  split_ifs with h
  · exact Keeps.ret ⟨rfl, fun _ => rfl⟩
  · have hne := mt (Status.isOk_iff s).mpr h
    exact Keeps.op_bind (hR hne) (Keeps.ret ⟨rfl, fun hok => absurd hok hne⟩)

/-- A file is written and synced; nothing else changes. -/
theorem keeps_writeStringToFileSync (data fname : Bytes) (env : Env) :
    Keeps (Env.Others [fname]) (writeStringToFileSync data fname) env fun s t =>
      s = .ok → ∃ f, t.files.lookup fname = some f ∧ f.data = data ∧ f.kept = data := by
  rw [writeStringToFileSync]
  refine Keeps.op_bind (Env.others_newWritableFile _ _) ?_
  set e₁ := env.newWritableFile fname with he₁
  have h₁ : e₁.1 = .ok → e₁.2.files.lookup fname = some { data := [] } :=
    fun hok => Env.lookup_newWritableFile hok
  split_ifs with hnew
  swap
  · exact Keeps.ret fun hok => absurd ((Status.isOk_iff _).mpr hok) hnew
  replace h₁ := h₁ ((Status.isOk_iff _).mp hnew)
  refine Keeps.op_bind (Env.others_append _ _ _) ?_
  set e₂ := e₁.2.append fname data with he₂
  have h₂ : e₂.1 = .ok → e₂.2.files.lookup fname = some { data := data } := fun hok => by
    rw [Env.lookup_append hok, h₁]
    rfl
  have hsync : Keeps (Env.Others [fname]) (onOk e₂.1 (op (Env.sync fname))) e₂.2 fun s t =>
      s = .ok → t.files.lookup fname = some { data := data, synced := data.length } := by
    refine keeps_onOk (fun hok => Keeps.op (Env.others_sync _ _) fun hok' => ?_)
      fun hne hok => absurd hok hne
    rw [Env.lookup_sync hok', h₂ hok]
    rfl
  refine hsync.bind fun s₃ t₃ h₃ => ?_
  have hclose : Keeps (Env.Others [fname]) (onOk s₃ (op (Env.close fname))) t₃ fun s t =>
      s = .ok → t.files.lookup fname = some { data := data, synced := data.length } := by
    have hsame := Env.others_close fname t₃
    refine keeps_onOk (fun hok => Keeps.op (hsame.mono (List.nil_subset _)) fun _ => ?_)
      fun hne hok => absurd hok hne
    exact (hsame _ List.not_mem_nil).trans (h₃ hok)
  refine hclose.bind fun s₄ t₄ h₄ => ?_
  refine (keeps_orRemove fun _ => Env.others_removeFile _ _).mono (fun _ _ h => h) ?_
  rintro s t ⟨rfl, ht⟩ hok
  rw [ht hok]
  exact ⟨_, h₄ hok, rfl, List.take_length⟩

/-- What an operation of `set_current_file` does: it changes the temporary file, or it makes
`CURRENT` name the manifest. -/
def Switches (dbname : Bytes) (number : U64) (env env' : Env) : Prop :=
  Env.Others [makeFileName dbname number "dbtmp"] env env'
    ∨ Env.Others [makeFileName dbname number "dbtmp", currentFileName dbname] env env'
      ∧ ∃ f, env'.files.lookup (currentFileName dbname) = some f
        ∧ f.data = descriptorBaseName number ++ text "\n" ∧ f.kept = f.data

/-- What `CURRENT` contains when it has been switched. -/
def Switched (dbname : Bytes) (number : U64) (env : Env) : Prop :=
  ∃ f, env.files.lookup (currentFileName dbname) = some f
    ∧ f.data = descriptorBaseName number ++ text "\n"

/-- With a status that is not OK, `CURRENT` is as it was; with OK it has been switched. -/
theorem keeps_setCurrentFile (dbname : Bytes) (number : U64) (env : Env) :
    Keeps (Switches dbname number) (setCurrentFile dbname number) env fun s t =>
      (s ≠ .ok → Env.Others [makeFileName dbname number "dbtmp"] env t)
        ∧ (s = .ok → Switched dbname number t) := by
  rw [setCurrentFile]
  refine Keeps.lift_bind fun manifest hmanifest => Keeps.lift_bind fun _ _ =>
    Keeps.lift_bind fun tmp htmp => ?_
  obtain ⟨_, -, hmanifest⟩ := bind_eq_ok.mp hmanifest
  obtain ⟨_, -, htmp⟩ := bind_eq_ok.mp htmp
  cases hmanifest
  cases htmp
  have hdrop : (dbname ++ text "/" ++ descriptorBaseName number).drop (dbname.length + 1)
      = descriptorBaseName number := by
    rw [show dbname.length + 1 = (dbname ++ text "/").length by simp [text], List.drop_left]
  simp only [hdrop]
  set tmp := makeFileName dbname number "dbtmp" with htmp
  have hwrite := (keeps_writeStringToFileSync (descriptorBaseName number ++ text "\n") tmp
    env).strengthen (Env.Others [tmp] env) (Env.Others.refl _ _) fun t u ht ho =>
      (⟨.inl ho, ht.trans ho⟩ : Switches dbname number t u ∧ Env.Others [tmp] env u)
  refine hwrite.bind fun s₁ t₁ h₁ => ?_
  have hrename : Keeps (Switches dbname number)
      (onOk s₁ (op (Env.renameFile tmp (currentFileName dbname)))) t₁ fun s t =>
        (s ≠ .ok → Env.Others [tmp] env t) ∧ (s = .ok → Switched dbname number t) := by
    refine keeps_onOk (fun hok => ?_) fun hne => ⟨fun _ => h₁.2, fun hok => absurd hok hne⟩
    obtain ⟨f, hf, hdata, hkept⟩ := h₁.1 hok
    rcases Env.renameFile_cases (currentFileName dbname) hf with
      ⟨hs, hfiles⟩ | ⟨hs, hothers, hlookup⟩
    · have hsame : Env.Others [tmp] t₁ (t₁.renameFile tmp (currentFileName dbname)).2 :=
        fun g _ => by rw [hfiles]
      exact Keeps.op (.inl hsame) ⟨fun _ => h₁.2.trans hsame, fun hok => absurd hok hs⟩
    · exact Keeps.op (.inr ⟨hothers, f, hlookup, hdata, hkept.trans hdata.symm⟩)
        ⟨fun hne => absurd hs hne, fun _ => ⟨f, hlookup, hdata⟩⟩
  refine hrename.bind fun s₂ t₂ h₂ => ?_
  have hremove := ((keeps_orRemove fun _ => Env.others_removeFile tmp t₂ : Keeps (Env.Others [tmp])
    (orRemove s₂ tmp) t₂ fun s' t => s' = s₂ ∧ (s₂ = .ok → t = t₂))).strengthen (Env.Others [tmp] t₂)
      (Env.Others.refl _ _) fun t u ht ho =>
        (⟨.inl ho, ht.trans ho⟩ : Switches dbname number t u ∧ Env.Others [tmp] t₂ u)
  refine hremove.mono (fun _ _ h => h) ?_
  rintro s t ⟨⟨rfl, hsame⟩, ho⟩
  refine ⟨fun hne => (h₂.1 hne).trans ho, fun hok => ?_⟩
  rw [hsame hok]
  exact h₂.2 hok

end Steps

end SimpleLeveldb
