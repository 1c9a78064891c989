import SimpleLeveldb.Disk

set_option autoImplicit false

/-! # The file `CURRENT`

`CURRENT` names the manifest that a database is opened from. Here the functions that create,
extend and read manifests are followed operation by operation (`Steps`), over whole runs with
failing operations, restarts and crashes: what holds of `CURRENT` and of the manifest that it
names must hold behind every operation.
-/

namespace SimpleLeveldb

open Prog (Keeps op lift)

/-! ## `CURRENT` and its manifest -/

/-- What `CURRENT` contains. -/
def Env.current (dbname : Bytes) (env : Env) : Option Bytes :=
  (env.files.lookup (currentFileName dbname)).map File.data

/-- The file that `CURRENT` names when it contains `c`: the newline at the end is dropped. -/
def manifestPath (dbname c : Bytes) : Bytes := dbname ++ text "/" ++ c.dropLast

/-- The records that are written to a manifest before `CURRENT` is switched to it: the initial
edit of `NewDB`, or the snapshot and the edit of a call of `log_any_apply`. -/
inductive Written : List Bytes → Prop
  | initial {name record : Bytes} :
      (DbImpl.newDbEdit name).encodeTo = .ok record → Written [record]
  | snapshot {vs built : VersionSet} {edit edit' snap : VersionEdit} {v : VersionPtr}
      {first second : Bytes} : vs.completeEdit edit = .ok edit' →
      vs.buildVersion edit' = .ok (v, built) → built.snapShot = .ok snap →
      snap.encodeTo = .ok first → edit'.encodeTo = .ok second → Written [first, second]

/-- The bytes of whole records, one after the other. -/
def Whole (records : List Bytes) (data : Bytes) : Prop :=
  ∃ parts, List.Forall₂ Fragmented records parts ∧ data = parts.flatten

/-- From `env` to `env'`, `CURRENT` is absent or unchanged, and what it names keeps its synced
bytes; or it is switched to the name of a manifest all of whose bytes are synced, which are the
whole records that belong there. -/
def Intact (dbname : Bytes) (env env' : Env) : Prop :=
  (env'.current dbname = env.current dbname ∧ ∀ c, env.current dbname = some c →
    ∃ f f', env.files.lookup (manifestPath dbname c) = some f
      ∧ env'.files.lookup (manifestPath dbname c) = some f' ∧ f.kept <+: f'.kept)
  ∨ ∃ c number f records, env.current dbname ≠ some c ∧ env'.current dbname = some c
      ∧ c = descriptorBaseName number ++ text "\n"
      ∧ env'.files.lookup (manifestPath dbname c) = some f ∧ f.kept = f.data
      ∧ Written records ∧ Whole records f.data

/-- `CURRENT` is absent, or it is synced and contains the name of a manifest that is there. -/
def Named (dbname : Bytes) (env : Env) : Prop :=
  ∀ f, env.files.lookup (currentFileName dbname) = some f → f.kept = f.data
    ∧ ∃ number m, f.data = descriptorBaseName number ++ text "\n"
      ∧ env.files.lookup (dbname ++ text "/" ++ descriptorBaseName number) = some m

theorem manifestPath_eq (dbname : Bytes) (number : U64) :
    manifestPath dbname (descriptorBaseName number ++ text "\n")
      = dbname ++ text "/" ++ descriptorBaseName number := by
  rw [manifestPath, show text "\n" = [10#8] from rfl, List.dropLast_concat]

/-- What an operation must do: `CURRENT` stays intact, and names a manifest that is there. -/
def Sound (dbname : Bytes) (env env' : Env) : Prop := Intact dbname env env' ∧ Named dbname env'

variable {dbname : Bytes} {names : List Bytes} {env env₀ env' : Env}

/-- The files that must not be touched: `CURRENT` and the manifest that it names. -/
structure Spared (dbname : Bytes) (names : List Bytes) (env : Env) : Prop where
  current : currentFileName dbname ∉ names
  manifest : ∀ c, env.current dbname = some c → manifestPath dbname c ∉ names

/-- What `CURRENT` contains, and what it names, when it is there. -/
theorem Named.exists_manifest (h : Named dbname env) {c : Bytes} (hc : env.current dbname = some c) :
    ∃ number m, c = descriptorBaseName number ++ text "\n"
      ∧ env.files.lookup (manifestPath dbname c) = some m := by
  obtain ⟨f, hf, rfl⟩ := Option.map_eq_some_iff.mp hc
  obtain ⟨-, number, m, hdata, hm⟩ := h f hf
  refine ⟨number, m, hdata, ?_⟩
  rw [hdata, manifestPath_eq]
  exact hm

/-- **Operations on other files** keep `CURRENT` intact. -/
theorem Named.others (h : Named dbname env) (hspared : Spared dbname names env)
    (ho : Env.Others names env env') : Sound dbname env env' := by
  have hcur := ho _ hspared.current
  have hcurrent : env'.current dbname = env.current dbname := congrArg (Option.map File.data) hcur
  constructor
  · refine .inl ⟨hcurrent, fun c hc => ?_⟩
    obtain ⟨number, m, -, hm⟩ := h.exists_manifest hc
    exact ⟨m, m, hm, (ho _ (hspared.manifest c hc)).trans hm, List.prefix_refl _⟩
  · intro f hf
    rw [hcur] at hf
    obtain ⟨hkept, number, m, hdata, hm⟩ := h f hf
    refine ⟨hkept, number, m, hdata, ?_⟩
    have hnot := hspared.manifest f.data (by rw [Env.current, hf]; rfl)
    rw [hdata, manifestPath_eq] at hnot
    rw [ho _ hnot, hm]

/-- **Writing to one file** other than `CURRENT` keeps it intact, also when it is the manifest that
`CURRENT` names. -/
theorem Named.grows (h : Named dbname env) {fname : Bytes} (hne : fname ≠ currentFileName dbname)
    (hg : Env.Grows fname env env') : Sound dbname env env' := by
  have hcur : env'.files.lookup (currentFileName dbname) = env.files.lookup (currentFileName dbname) :=
    hg.others _ fun hm => hne (List.mem_singleton.mp hm).symm
  have hfile : ∀ g m, env.files.lookup g = some m →
      ∃ m', env'.files.lookup g = some m' ∧ m.kept <+: m'.kept := by
    intro g m hm
    by_cases hgf : g = fname
    · subst hgf
      exact hg.file m hm
    · exact ⟨m, (hg.others g fun hmem => hgf (List.mem_singleton.mp hmem)).trans hm,
        List.prefix_refl _⟩
  constructor
  · refine .inl ⟨congrArg (Option.map File.data) hcur, fun c hc => ?_⟩
    obtain ⟨number, m, -, hm⟩ := h.exists_manifest hc
    obtain ⟨m', hm', hkept⟩ := hfile _ m hm
    exact ⟨m, m', hm, hm', hkept⟩
  · intro f hf
    rw [hcur] at hf
    obtain ⟨hkept, number, m, hdata, hm⟩ := h f hf
    obtain ⟨m', hm', -⟩ := hfile _ m hm
    exact ⟨hkept, number, m', hdata, hm'⟩

theorem Spared.others (h : Spared dbname names env) (ho : Env.Others names env env') :
    Spared dbname names env' where
  current := h.current
  manifest := fun c hc => by
    rw [Env.current, ho _ h.current] at hc
    exact h.manifest c hc

variable {α : Type} {p : Prog Fault Env α} {Q : α → Env → Prop}

/-- A program that changes other files only. -/
theorem Named.keeps_others (hnamed : Named dbname env) (hspared : Spared dbname names env)
    (h : Keeps (Env.Others names) p env Q) :
    Keeps (Sound dbname) p env fun a t => Q a t ∧ Named dbname t ∧ Spared dbname names t := by
  refine h.strengthen (fun t => Named dbname t ∧ Spared dbname names t) ⟨hnamed, hspared⟩ ?_
  rintro t u ⟨hnamed, hspared⟩ ho
  have hsound := hnamed.others hspared ho
  exact ⟨hsound, hsound.2, hspared.others ho⟩

/-- A program that writes to one file only. -/
theorem Named.keeps_grows (hnamed : Named dbname env) {fname : Bytes}
    (hne : fname ≠ currentFileName dbname) (h : Keeps (Env.Grows fname) p env Q) :
    Keeps (Sound dbname) p env fun a t => Q a t ∧ Named dbname t := by
  refine h.strengthen (Named dbname) hnamed fun t u hnamed hg => ?_
  have hsound := hnamed.grows hne hg
  exact ⟨hsound, hsound.2⟩

/-! ## The parts of a call -/

theorem Whole.nil : Whole [] [] := ⟨[], .nil, rfl⟩

theorem Whole.snoc {records : List Bytes} {data record bytes : Bytes} (h : Whole records data)
    (hr : Fragmented record bytes) : Whole (records ++ [record]) (data ++ bytes) := by
  obtain ⟨parts, hparts, rfl⟩ := h
  refine ⟨parts ++ [bytes], List.rel_append hparts (.cons hr .nil), ?_⟩
  rw [List.flatten_append, List.flatten_singleton]

/-- A manifest that is being made: it holds whole records. -/
def Holds (fname : Bytes) (records : List Bytes) (env : Env) : Prop :=
  ∃ f, env.files.lookup fname = some f ∧ Whole records f.data

namespace Steps

theorem keeps_addRecord_holds {w : Log.Writer} {uninit : U32}
    (hw : w.typeCrc = Log.initTypeCrc uninit) {records : List Bytes} (h : Holds w.dest records env)
    (sle : Bytes) :
    Keeps (Env.Others [w.dest]) (addRecord w sle) env fun r t =>
      (∃ o, r.2 = { w with blockOffset := o }) ∧ (r.1 = .ok → Holds w.dest (records ++ [sle]) t) := by
  refine (keeps_addRecord hw sle env).mono (fun _ _ hg => hg.others) fun r t hr => ?_
  obtain ⟨hwriter, -, hok⟩ := hr
  refine ⟨hwriter, fun hr => ?_⟩
  obtain ⟨f, hf, hwhole⟩ := h
  obtain ⟨bytes, hbytes, hadded⟩ := hok hr
  exact ⟨_, hadded.file f hf, hwhole.snoc hbytes⟩

/-- After a successful sync all bytes are synced. -/
theorem keeps_sync_holds {fname : Bytes} {records : List Bytes} (h : Holds fname records env) :
    Keeps (Env.Others [fname]) (op (Env.sync fname) : Prog Fault Env Status) env fun s t =>
      s = .ok → ∃ f, t.files.lookup fname = some f ∧ f.kept = f.data ∧ Whole records f.data := by
  refine Keeps.op (Env.others_sync _ _) fun hok => ?_
  obtain ⟨f, hf, hwhole⟩ := h
  refine ⟨{ f with synced := f.data.length }, ?_, List.take_length, hwhole⟩
  rw [Env.lookup_sync hok, hf, Option.map_some]

/-- **The switch of `CURRENT`** to another manifest, which is complete and synced. -/
theorem keeps_setCurrentFile_sound {number : U64} {f : File} {records : List Bytes}
    (hnamed : Named dbname env)
    (hf : env.files.lookup (dbname ++ text "/" ++ descriptorBaseName number) = some f)
    (hkept : f.kept = f.data) (hwritten : Written records) (hwhole : Whole records f.data) :
    Keeps (Sound dbname) (setCurrentFile dbname number) env fun s t => Named dbname t
      ∧ (s ≠ .ok → Env.Others [makeFileName dbname number "dbtmp"] env t) := by
  set m := dbname ++ text "/" ++ descriptorBaseName number with hm
  set tmp := makeFileName dbname number "dbtmp" with htmp
  have hmt : m ≠ tmp := (tempFile_ne_descriptorFile dbname number number).symm
  have hmc : m ≠ currentFileName dbname := descriptorFile_ne_current dbname number
  refine ((keeps_setCurrentFile dbname number env).strengthen
    (fun t => Named dbname t ∧ t.files.lookup m = some f) ⟨hnamed, hf⟩ ?_).mono
    (fun _ _ h => h) fun _ _ h => ⟨h.2.1, h.1.1⟩
  rintro t u ⟨hnamed, hf⟩ (ho | ⟨ho, c, hc, hdata, hckept⟩)
  · -- the temporary file is neither `CURRENT` nor a manifest
    have hspared : Spared dbname [tmp] t := by
      refine ⟨fun hmem => ?_, fun c hc hmem => ?_⟩
      · exact tempFile_ne_current dbname number (List.mem_singleton.mp hmem).symm
      · obtain ⟨n, -, rfl, -⟩ := hnamed.exists_manifest hc
        rw [manifestPath_eq] at hmem
        exact tempFile_ne_descriptorFile dbname number n (List.mem_singleton.mp hmem).symm
    have hsound := hnamed.others hspared ho
    exact ⟨hsound, hsound.2, (ho m fun hmem => hmt (List.mem_singleton.mp hmem)).trans hf⟩
  · have hfu : u.files.lookup m = some f := by
      refine (ho m fun hmem => ?_).trans hf
      rcases List.mem_cons.mp hmem with he | hmem
      · exact hmt he
      · exact hmc (List.mem_singleton.mp hmem)
    have hnamedu : Named dbname u := by
      intro c' hc'
      rw [hc] at hc'
      cases hc'
      exact ⟨hckept, number, f, hdata, hfu⟩
    have hcurrent : u.current dbname = some (descriptorBaseName number ++ text "\n") := by
      rw [Env.current, hc, Option.map_some, hdata]
    refine ⟨⟨?_, hnamedu⟩, hnamedu, hfu⟩
    by_cases hbefore : t.current dbname = some (descriptorBaseName number ++ text "\n")
    · refine .inl ⟨hcurrent.trans hbefore.symm, fun c' hc' => ⟨f, f, ?_, ?_, List.prefix_refl _⟩⟩
      all_goals
        cases hbefore.symm.trans hc'
        rwa [manifestPath_eq]
    · exact .inr ⟨_, number, f, records, hbefore, hcurrent, rfl, by rwa [manifestPath_eq], hkept,
        hwritten, hwhole⟩

theorem holds_new {fname : Bytes} (h : (env.newWritableFile fname).1 = .ok) :
    Holds fname [] (env.newWritableFile fname).2 :=
  ⟨_, Env.lookup_newWritableFile h, .nil⟩

/-- **`NewDB`**, called while `CURRENT` is absent. -/
theorem keeps_newDb (db : DbImpl) (uninit : U32) (hnamed : Named db.dbname env)
    (habsent : env.current db.dbname = none) :
    Keeps (Sound db.dbname) (newDb db uninit) env fun _ t => Named db.dbname t := by
  rw [newDb]
  refine Keeps.lift_bind fun m hm => ?_
  obtain ⟨_, -, hm⟩ := bind_eq_ok.mp hm
  cases hm
  set m := db.dbname ++ text "/" ++ descriptorBaseName 1 with hm
  have hspared : Spared db.dbname [m] env := by
    refine ⟨fun hmem => ?_, fun c hc => by rw [habsent] at hc; cases hc⟩
    exact descriptorFile_ne_current db.dbname 1 (List.mem_singleton.mp hmem).symm
  have hnew := Env.others_newWritableFile m env
  have hsound := hnamed.others hspared hnew
  refine Keeps.op_bind hsound ?_
  have hspared₁ := hspared.others hnew
  split_ifs with hok
  · exact Keeps.ret hsound.2
  have hholds : Holds m [] (env.newWritableFile m).2 :=
    holds_new ((Status.isOk_iff _).mp (by simpa using hok))
  refine Keeps.lift_bind fun record hrecord => ?_
  refine (hsound.2.keeps_others hspared₁ (keeps_addRecord_holds
    (w := Log.Writer.new m uninit) rfl hholds record)).bind ?_
  rintro ⟨s, w⟩ t ⟨⟨-, hadd⟩, hnamed, hspared⟩
  have hsync : Keeps (Env.Others [m]) (onOk s (op (Env.sync m))) t fun s u =>
      s = .ok → ∃ f, u.files.lookup m = some f ∧ f.kept = f.data ∧ Whole [record] f.data :=
    keeps_onOk (fun hs => keeps_sync_holds (hadd hs)) fun hne hs => absurd hs hne
  refine (hnamed.keeps_others hspared hsync).bind ?_
  rintro s t ⟨hsynced, hnamed, hspared⟩
  have hclose : Keeps (Env.Others [m]) (onOk s (op (Env.close m))) t fun s u =>
      s = .ok → ∃ f, u.files.lookup m = some f ∧ f.kept = f.data ∧ Whole [record] f.data := by
    have hsame := Env.others_close m t
    refine keeps_onOk (fun hs => Keeps.op (hsame.mono (List.nil_subset _)) fun _ => ?_)
      fun hne hs => absurd hs hne
    rw [hsame _ List.not_mem_nil]
    exact hsynced hs
  refine (hnamed.keeps_others hspared hclose).bind ?_
  rintro s t ⟨hclosed, hnamed, hspared⟩
  split_ifs with hs
  · obtain ⟨f, hf, hkept, hwhole⟩ := hclosed ((Status.isOk_iff s).mp hs)
    exact (keeps_setCurrentFile_sound hnamed hf hkept (.initial hrecord) hwhole).mono
      (fun _ _ h => h) fun _ _ h => h.1
  · refine (hnamed.keeps_others hspared (keeps_orRemove fun _ => Env.others_removeFile _ _)).mono
      (fun _ _ h => h) fun _ _ h => h.2.1

end Steps

/-! ## `log_any_apply` -/

/-- A version set of the database `dbname`: its manifest, when one is open, is not `CURRENT`. -/
structure VersionSet.Serves (dbname : Bytes) (vs : VersionSet) : Prop where
  dbname_eq : vs.dbname = dbname
  log : ∀ log, vs.descriptorLog = some log → log.dest ≠ currentFileName dbname
    ∧ ∃ uninit, log.typeCrc = Log.initTypeCrc uninit
  file : ∀ file, vs.descriptorFile = some file → file ≠ currentFileName dbname

/-- The manifest that the next call of `log_any_apply` creates, if it creates one, is not the one
that `CURRENT` names. -/
def VersionSet.CreatesAnother (vs : VersionSet) (env : Env) : Prop :=
  vs.descriptorLog = none →
    env.current vs.dbname ≠ some (descriptorBaseName vs.manifestFileNumber ++ text "\n")

instance (vs : VersionSet) (env : Env) : Decidable (vs.CreatesAnother env) :=
  inferInstanceAs (Decidable (vs.descriptorLog = none →
    env.current vs.dbname ≠ some (descriptorBaseName vs.manifestFileNumber ++ text "\n")))

/-- What a call has done to the version set when it comes to its writes. -/
theorem VersionSet.buildVersion_same {vs vs' : VersionSet} {edit : VersionEdit} {v : VersionPtr}
    (h : vs.buildVersion edit = .ok (v, vs')) :
    ∃ list cp, vs' = { vs with list := list, compactPointer := cp } := by
  unfold buildVersion at h
  obtain ⟨⟨b, list₁⟩, -, h⟩ := bind_eq_ok.mp h
  obtain ⟨⟨cp, b'⟩, -, h⟩ := bind_eq_ok.mp h
  obtain ⟨list₂, -, h⟩ := bind_eq_ok.mp h
  obtain ⟨list₃, -, h⟩ := bind_eq_ok.mp h
  cases h
  exact ⟨_, _, rfl⟩

namespace Steps

open VersionSet (Serves CreatesAnother)

/-- The record of the edit goes to the manifest that is open. -/
theorem keeps_appendEdit {vs : VersionSet} (hvs : vs.Serves dbname) (edit : VersionEdit)
    (hnamed : Named dbname env) :
    Keeps (Sound dbname) (appendEdit vs edit) env fun r t => Named dbname t
      ∧ r.2.Serves dbname ∧ r.2.list = vs.list := by
  rw [appendEdit]
  refine Keeps.lift_bind fun record _ => Keeps.lift_bind fun log hlog => ?_
  obtain ⟨hne, uninit, hcrc⟩ := hvs.log log (deref_eq_ok.mp hlog)
  refine (hnamed.keeps_grows hne (keeps_addRecord hcrc record env)).bind ?_
  rintro ⟨s, log₁⟩ t ⟨⟨⟨o, rfl⟩, -⟩, hnamed⟩
  have hserves : Serves dbname { vs with descriptorLog := some { log with blockOffset := o } } := by
    refine ⟨hvs.dbname_eq, fun l hl => ?_, hvs.file⟩
    cases hl
    exact ⟨hne, uninit, hcrc⟩
  simp only
  split_ifs
  · refine Keeps.lift_bind fun file hfile => ?_
    have hsound := hnamed.grows (hvs.file file (deref_eq_ok.mp hfile)) (Env.grows_sync file t)
    exact Keeps.op_bind hsound (Keeps.ret ⟨hsound.2, hserves, rfl⟩)
  · exact Keeps.ret ⟨hnamed, hserves, rfl⟩

/-- What `write_edit` leaves: with a status that is not OK, a manifest that was created is still not
the one that `CURRENT` names. -/
structure EditWritten (dbname : Bytes) (r : Status × Bytes × VersionSet) (env : Env) : Prop where
  named : Named dbname env
  serves : r.2.2.Serves dbname
  spared : r.1 ≠ .ok → r.2.1.isEmpty = false → Spared dbname [r.2.1] env

/-- With a manifest that is open. -/
theorem keeps_writeEdit_some {vs : VersionSet} {log : Log.Writer} (hlog : vs.descriptorLog = some log)
    (hvs : vs.Serves dbname) (edit : VersionEdit) (uninit : U32) (hnamed : Named dbname env) :
    Keeps (Sound dbname) (writeEdit vs edit uninit) env (EditWritten dbname) := by
  have hopen : openManifest vs uninit = pure (.ok, [], vs) := by
    rw [openManifest, hlog]
  rw [writeEdit, hopen]
  refine (Keeps.ret (Q := fun r t => r = (.ok, [], vs) ∧ t = env) ⟨rfl, rfl⟩).bind ?_
  rintro _ t ⟨rfl, rfl⟩
  simp only [Status.isOk_ok, Bool.not_true, Bool.false_eq_true, if_false]
  refine (keeps_appendEdit hvs edit hnamed).bind ?_
  rintro ⟨s, vs₁⟩ t ⟨hnamed, hserves, -⟩
  have hnil : ∀ s t, Named dbname t → EditWritten dbname (s, [], vs₁) t := by
    refine fun s t hnamed => ⟨hnamed, hserves, fun _ he => ?_⟩
    cases he
  simp only
  split_ifs
  · exact Keeps.ret (hnil _ _ hnamed)
  · have hswitch : switchCurrent vs₁ [] = pure .ok := by
      rw [switchCurrent, List.isEmpty_nil, if_pos rfl]
    rw [hswitch]
    exact Keeps.ret (hnil _ _ hnamed)

/-- A manifest that is being made by a version set. -/
structure Creating (dbname m : Bytes) (vs : VersionSet) (records : List Bytes) (env : Env) : Prop where
  named : Named dbname env
  spared : Spared dbname [m] env
  serves : vs.Serves dbname
  log : ∃ log uninit, vs.descriptorLog = some log ∧ log.dest = m
    ∧ log.typeCrc = Log.initTypeCrc uninit
  file : vs.descriptorFile = some m
  holds : Holds m records env

theorem keeps_writeSnapShot {vs : VersionSet} {log : Log.Writer} {uninit : U32}
    (hcrc : log.typeCrc = Log.initTypeCrc uninit) {records : List Bytes}
    (h : Holds log.dest records env) :
    Keeps (Env.Others [log.dest]) (writeSnapShot vs log) env fun r t =>
      (∃ o, r.2 = { log with blockOffset := o }) ∧ (r.1 = .ok → ∃ snap first,
        vs.snapShot = .ok snap ∧ snap.encodeTo = .ok first
          ∧ Holds log.dest (records ++ [first]) t) := by
  rw [writeSnapShot]
  refine Keeps.lift_bind fun snap hsnap => Keeps.lift_bind fun first hfirst => ?_
  refine (keeps_addRecord_holds hcrc h first).mono (fun _ _ h => h) fun r t hr => ?_
  exact ⟨hr.1, fun hok => ⟨snap, first, hsnap, hfirst, hr.2 hok⟩⟩

/-- A manifest is made, and begins with the snapshot. -/
theorem keeps_openManifest_none {vs : VersionSet} (hlog : vs.descriptorLog = none)
    (hvs : vs.Serves dbname) (hanother : vs.CreatesAnother env) (uninit : U32)
    (hnamed : Named dbname env) :
    Keeps (Sound dbname) (openManifest vs uninit) env fun r t =>
      r.2.1 = dbname ++ text "/" ++ descriptorBaseName vs.manifestFileNumber
        ∧ Named dbname t ∧ Spared dbname [r.2.1] t ∧ r.2.2.Serves dbname
        ∧ (r.1 = .ok → ∃ snap first log, vs.snapShot = .ok snap ∧ snap.encodeTo = .ok first
          ∧ r.2.2 = { vs with descriptorFile := some r.2.1, descriptorLog := some log }
          ∧ Creating dbname r.2.1 r.2.2 [first] t) := by
  obtain rfl := hvs.dbname_eq
  rw [openManifest, hlog]
  refine Keeps.lift_bind fun _ _ => Keeps.lift_bind fun m hm => ?_
  obtain ⟨_, -, hm⟩ := bind_eq_ok.mp hm
  cases hm
  set m := vs.dbname ++ text "/" ++ descriptorBaseName vs.manifestFileNumber with hm
  have hne : m ≠ currentFileName vs.dbname := descriptorFile_ne_current _ _
  have hspared : Spared vs.dbname [m] env := by
    refine ⟨fun hmem => hne (List.mem_singleton.mp hmem).symm, fun c hc hmem => ?_⟩
    obtain ⟨number, -, rfl, -⟩ := hnamed.exists_manifest hc
    rw [manifestPath_eq, List.mem_singleton, hm, inDirectory_inj] at hmem
    have := hanother hlog
    rw [hc, hmem] at this
    exact this rfl
  have hnew := Env.others_newWritableFile m env
  have hsound := hnamed.others hspared hnew
  refine Keeps.op_bind hsound ?_
  have hspared₁ := hspared.others hnew
  split_ifs with hok
  swap
  · exact Keeps.ret ⟨rfl, hsound.2, hspared₁, hvs, fun h => absurd ((Status.isOk_iff _).mpr h) hok⟩
  have hholds : Holds m [] (env.newWritableFile m).2 := holds_new ((Status.isOk_iff _).mp hok)
  have hserves : ∀ (log : Log.Writer) (uninit : U32), log.dest = m →
      log.typeCrc = Log.initTypeCrc uninit →
      Serves vs.dbname { vs with descriptorFile := some m, descriptorLog := some log } := by
    intro log uninit hdest hcrc
    refine ⟨rfl, fun l hl => ?_, fun f hf => ?_⟩
    · cases hl
      exact ⟨hdest ▸ hne, uninit, hcrc⟩
    · cases hf
      exact hne
  have hcrc : (Log.Writer.new m uninit).typeCrc = Log.initTypeCrc uninit := rfl
  refine (hsound.2.keeps_others hspared₁ (keeps_writeSnapShot hcrc hholds)).bind ?_
  rintro ⟨s, log⟩ t ⟨⟨⟨o, rfl⟩, hsnap⟩, hnamed, hspared⟩
  refine Keeps.ret ⟨rfl, hnamed, hspared, hserves _ uninit rfl rfl, fun hs => ?_⟩
  obtain ⟨snap, first, hsnap, hfirst, hholds⟩ := hsnap hs
  exact ⟨snap, first, _, hsnap, hfirst, rfl, hnamed, hspared, hserves _ uninit rfl rfl,
    ⟨_, uninit, rfl, rfl, rfl⟩, rfl, hholds⟩

/-- The record of the edit goes to the manifest that is being made. -/
theorem keeps_appendEdit_none {vs : VersionSet} {m : Bytes} {records : List Bytes}
    (h : Creating dbname m vs records env) (edit : VersionEdit) :
    Keeps (Sound dbname) (appendEdit vs edit) env fun r t =>
      (∃ log, r.2 = { vs with descriptorLog := log }) ∧ r.2.Serves dbname
        ∧ Named dbname t ∧ Spared dbname [m] t
        ∧ (r.1 = .ok → ∃ second f, edit.encodeTo = .ok second ∧ t.files.lookup m = some f
          ∧ f.kept = f.data ∧ Whole (records ++ [second]) f.data) := by
  obtain ⟨log, uninit, hlog, rfl, hcrc⟩ := h.log
  rw [appendEdit, hlog]
  refine Keeps.lift_bind fun second hsecond => Keeps.lift_bind fun log' hlog' => ?_
  cases hlog'
  refine (h.named.keeps_others h.spared (keeps_addRecord_holds hcrc h.holds second)).bind ?_
  rintro ⟨s, log₁⟩ t ⟨⟨⟨o, rfl⟩, hadd⟩, hnamed, hspared⟩
  have hserves : Serves dbname { vs with descriptorLog := some { log with blockOffset := o } } := by
    refine ⟨h.serves.dbname_eq, fun l hl => ?_, h.serves.file⟩
    cases hl
    exact h.serves.log log hlog
  simp only
  split_ifs with hs
  · refine Keeps.lift_bind fun file hfile => ?_
    obtain rfl : log.dest = file := Option.some.inj (h.file.symm.trans (deref_eq_ok.mp hfile))
    have hsync := keeps_sync_holds (hadd ((Status.isOk_iff s).mp hs))
    refine (hnamed.keeps_others hspared hsync).bind ?_
    rintro s t ⟨hsynced, hnamed, hspared⟩
    refine Keeps.ret ⟨⟨_, rfl⟩, hserves, hnamed, hspared, fun hok => ?_⟩
    obtain ⟨f, hf, hkept, hwhole⟩ := hsynced hok
    exact ⟨second, f, hsecond, hf, hkept, hwhole⟩
  · exact Keeps.ret ⟨⟨_, rfl⟩, hserves, hnamed, hspared,
      fun hok => absurd ((Status.isOk_iff s).mpr hok) hs⟩

/-- Without a manifest that is open. -/
theorem keeps_writeEdit_none {vs : VersionSet} (hlog : vs.descriptorLog = none)
    (hvs : vs.Serves dbname) (hanother : vs.CreatesAnother env) {vs₀ : VersionSet}
    {edit₀ edit : VersionEdit} {v : VersionPtr} (hedit : vs₀.completeEdit edit₀ = .ok edit)
    (hbuild : vs₀.buildVersion edit = .ok (v, vs)) (uninit : U32) (hnamed : Named dbname env) :
    Keeps (Sound dbname) (writeEdit vs edit uninit) env (EditWritten dbname) := by
  rw [writeEdit]
  refine (keeps_openManifest_none hlog hvs hanother uninit hnamed).bind ?_
  rintro ⟨s₁, m, vs₁⟩ t₁ ⟨hm, hnamed₁, hspared₁, hserves₁, hok₁⟩
  simp only at hm hspared₁ hserves₁ hok₁ ⊢
  split_ifs with hs₁
  · exact Keeps.ret ⟨hnamed₁, hserves₁, fun _ _ => hspared₁⟩
  obtain ⟨snap, first, log₁, hsnap, hfirst, hvs₁, hcreating⟩ :=
    hok₁ ((Status.isOk_iff s₁).mp (by simpa using hs₁))
  refine (keeps_appendEdit_none hcreating edit).bind ?_
  rintro ⟨s₂, vs₂⟩ t₂ ⟨⟨log₂, hvs₂⟩, hserves₂, hnamed₂, hspared₂, hok₂⟩
  simp only at hvs₂ hserves₂ hok₂ ⊢
  split_ifs with hs₂
  · exact Keeps.ret ⟨hnamed₂, hserves₂, fun _ _ => hspared₂⟩
  obtain ⟨second, f, hsecond, hf, hkept, hwhole⟩ :=
    hok₂ ((Status.isOk_iff s₂).mp (by simpa using hs₂))
  have hnumber : vs₂.manifestFileNumber = vs.manifestFileNumber := by rw [hvs₂, hvs₁]
  have hempty : m.isEmpty = false := by rw [hm]; simp [text]
  have hwritten : Written [first, second] := .snapshot hedit hbuild hsnap hfirst hsecond
  have hswitch : switchCurrent vs₂ m = setCurrentFile dbname vs.manifestFileNumber := by
    rw [switchCurrent, hempty, if_neg Bool.false_ne_true, hserves₂.dbname_eq, hnumber]
  rw [hm] at hf
  rw [hswitch]
  refine (keeps_setCurrentFile_sound hnamed₂ hf hkept hwritten hwhole).bind ?_
  rintro s₃ t₃ ⟨hnamed₃, ho⟩
  refine Keeps.ret ⟨hnamed₃, hserves₂, fun hne _ => ?_⟩
  -- a failed switch has left `CURRENT` alone
  refine ⟨hspared₂.current, fun c hc => hspared₂.manifest c ?_⟩
  have hcur := ho hne (currentFileName dbname) fun hmem =>
    tempFile_ne_current dbname _ (List.mem_singleton.mp hmem).symm
  rwa [Env.current, hcur] at hc

theorem keeps_writeEdit {vs : VersionSet} (hvs : vs.Serves dbname)
    (hanother : vs.CreatesAnother env) {vs₀ : VersionSet} {edit₀ edit : VersionEdit}
    {v : VersionPtr} (hedit : vs₀.completeEdit edit₀ = .ok edit)
    (hbuild : vs₀.buildVersion edit = .ok (v, vs)) (uninit : U32) (hnamed : Named dbname env) :
    Keeps (Sound dbname) (writeEdit vs edit uninit) env (EditWritten dbname) := by
  cases hlog : vs.descriptorLog with
  | none => exact keeps_writeEdit_none hlog hvs hanother hedit hbuild uninit hnamed
  | some log => exact keeps_writeEdit_some hlog hvs edit uninit hnamed

/-- A manifest that was created is removed again, while `CURRENT` does not name it. -/
theorem keeps_discardVersion {vs : VersionSet} (hvs : vs.Serves dbname) (v : VersionPtr) {m : Bytes}
    (hnamed : Named dbname env) (hspared : m.isEmpty = false → Spared dbname [m] env) :
    Keeps (Sound dbname) (discardVersion vs v m) env fun vs' t =>
      Named dbname t ∧ vs'.Serves dbname := by
  rw [discardVersion]
  refine Keeps.lift_bind fun list _ => ?_
  split_ifs with hm
  · exact Keeps.ret ⟨hnamed, hvs.dbname_eq, hvs.log, hvs.file⟩
  · have hsound := hnamed.others (hspared (Bool.eq_false_iff.mpr hm)) (Env.others_removeFile m env)
    refine Keeps.op_bind hsound (Keeps.ret ⟨hsound.2, hvs.dbname_eq, fun _ h => ?_, fun _ h => ?_⟩)
    · cases h
    · cases h

/-- **`log_any_apply`**, when the manifest that it creates, if it creates one, is another than the
one that `CURRENT` names. -/
theorem keeps_logAnyApply {vs : VersionSet} (hvs : vs.Serves dbname)
    (hanother : vs.CreatesAnother env) (edit : VersionEdit) (uninit : U32)
    (hnamed : Named dbname env) :
    Keeps (Sound dbname) (logAnyApply vs edit uninit) env fun r t =>
      Named dbname t ∧ r.2.2.Serves dbname := by
  rw [logAnyApply]
  refine Keeps.lift_bind fun edit₁ hedit => Keeps.lift_bind fun built hbuild => ?_
  obtain ⟨v, vs₁⟩ := built
  obtain ⟨list, cp, rfl⟩ := VersionSet.buildVersion_same hbuild
  have hvs₁ : Serves dbname { vs with list := list, compactPointer := cp } :=
    ⟨hvs.dbname_eq, hvs.log, hvs.file⟩
  refine (keeps_writeEdit hvs₁ hanother hedit hbuild uninit hnamed).bind ?_
  rintro ⟨s, m, vs₂⟩ t ⟨hnamed, hserves, hspared⟩
  simp only at hserves hspared ⊢
  split_ifs with hs
  · refine Keeps.lift_bind fun vs₃ hinstall => Keeps.ret ⟨hnamed, ?_⟩
    obtain ⟨list, -, h⟩ := bind_eq_ok.mp hinstall
    cases h
    exact ⟨hserves.dbname_eq, hserves.log, hserves.file⟩
  · have hne : s ≠ .ok := mt (Status.isOk_iff s).mpr hs
    exact (keeps_discardVersion hserves v hnamed (hspared hne)).bind fun vs₃ u h => Keeps.ret h

end Steps

/-! ## `recover` -/

theorem Named.same (h : Named dbname env) (ho : Env.Others [] env env') : Sound dbname env env' :=
  h.others ⟨List.not_mem_nil, fun _ _ => List.not_mem_nil⟩ ho

namespace VersionSet

/-- The records that are read change nothing in the version set but the compact pointers. -/
theorem recoverTurn_vs {st : RecoverState} {r : RecoverState ⊕ RecoverState}
    (h : recoverTurn st = .ok r) :
    ∃ cp, (r.elim id id).vs = { st.vs with compactPointer := cp } := by
  unfold recoverTurn at h
  obtain ⟨⟨more, record, reader⟩, -, h⟩ := bind_eq_ok.mp h
  have hreport : (RecoverState.report { st with reader := reader }).vs = st.vs := by
    unfold RecoverState.report
    split
    · split_ifs <;> rfl
    · rfl
  simp only at h
  generalize RecoverState.report { st with reader := reader } = st₁ at h hreport
  rw [← hreport]
  split_ifs at h
  · obtain ⟨st₂, hrecord, h⟩ := bind_eq_ok.mp h
    cases h
    obtain ⟨⟨s, edit⟩, -, hrecord⟩ := bind_eq_ok.mp hrecord
    obtain ⟨⟨cp, b⟩, -, hrecord⟩ := bind_eq_ok.mp hrecord
    cases hrecord
    have hfold : ∀ (st : RecoverState) (edit : VersionEdit), (st.fold edit).vs = st.vs := by
      intro st edit
      unfold RecoverState.fold
      split_ifs <;> rfl
    exact ⟨cp, hfold _ _⟩
  · cases h
    exact ⟨st₁.vs.compactPointer, rfl⟩

theorem run_recoverTurn_vs {n : Nat} {st st' : RecoverState}
    (h : Loop.run .endless recoverTurn n st = .ok st') :
    ∃ cp, st'.vs = { st.vs with compactPointer := cp } := by
  refine Loop.run_of_invariant Fault.endless
    (fun st₁ => ∃ cp, st₁.vs = { st.vs with compactPointer := cp })
    (fun st₁ => ∃ cp, st₁.vs = { st.vs with compactPointer := cp }) ?_ ?_ n st st'
    ⟨st.vs.compactPointer, rfl⟩ h
  all_goals
    rintro st₁ st₂ ⟨cp, hcp⟩ hturn
    obtain ⟨cp', hcp'⟩ := recoverTurn_vs hturn
    exact ⟨cp', hcp'.trans (by rw [hcp])⟩

end VersionSet

namespace Steps

open VersionSet (Serves)

/-- The manifest is opened again for appending, or it is not. -/
theorem keeps_reuseManifest {vs : VersionSet} (hvs : vs.Serves dbname) (current : Bytes)
    (uninit : U32) (hnamed : Named dbname env) :
    Keeps (Sound dbname) (reuseManifest vs (dbname ++ text "/" ++ current) current uninit) env
      fun r t => Named dbname t ∧ r.2.Serves dbname := by
  unfold reuseManifest
  split_ifs
  · exact Keeps.ret ⟨hnamed, hvs⟩
  rcases hparse : parseFileName current with _ | ⟨number, type⟩
  · exact Keeps.ret ⟨hnamed, hvs⟩
  cases type with
  | kDescriptorFile =>
      -- a name that parses as the name of a manifest is not `CURRENT`
      have hne : dbname ++ text "/" ++ current ≠ currentFileName dbname := by
        rw [currentFileName_eq, Ne, inDirectory_inj]
        rintro rfl
        cases hparse
      have hsize := hnamed.same (Env.others_getFileSize (dbname ++ text "/" ++ current) env)
      refine Keeps.op_bind hsize ?_
      simp only
      split_ifs
      · exact Keeps.ret ⟨hsize.2, hvs⟩
      refine Keeps.lift_bind fun _ _ => Keeps.lift_bind fun _ _ => ?_
      have hopen := hsize.2.grows hne (Env.grows_newAppendableFile _ _)
      refine Keeps.op_bind hopen ?_
      split_ifs
      · exact Keeps.lift_bind fun _ _ => Keeps.ret ⟨hopen.2, hvs⟩
      · refine Keeps.ret ⟨hopen.2, hvs.dbname_eq, fun log hlog => ?_, fun file hfile => ?_⟩
        · cases hlog
          exact ⟨hne, uninit, rfl⟩
        · cases hfile
          exact hne
  | _ => exact Keeps.ret ⟨hnamed, hvs⟩

theorem keeps_finishRecover {vs : VersionSet} (hvs : vs.Serves dbname)
    (st : VersionSet.RecoverState) (s : Status) (prevLogNumber : U64) (current : Bytes)
    (saveManifest : Bool) (uninit : U32) (hnamed : Named dbname env) :
    Keeps (Sound dbname) (finishRecover vs st s prevLogNumber (dbname ++ text "/" ++ current) current
      saveManifest uninit) env fun r t => Named dbname t ∧ r.2.Serves dbname := by
  unfold finishRecover
  split_ifs
  · rw [installRecovered]
    refine Keeps.lift_bind fun list _ => Keeps.lift_bind fun list' _ => ?_
    refine (keeps_reuseManifest ?_ current uninit hnamed).bind fun r t h => Keeps.ret h
    exact ⟨hvs.dbname_eq, hvs.log, hvs.file⟩
  · exact Keeps.ret ⟨hnamed, hvs⟩

theorem keeps_recoverFrom {vs : VersionSet} (hvs : vs.Serves dbname) (file : SequentialFile)
    (current : Bytes) (saveManifest : Bool) (uninit : U32) (hnamed : Named dbname env) :
    Keeps (Sound dbname) (recoverFrom vs file (dbname ++ text "/" ++ current) current saveManifest
      uninit) env fun r t => Named dbname t ∧ r.2.2.Serves dbname := by
  rw [recoverFrom]
  refine Keeps.lift_bind fun built _ => Keeps.lift_bind fun st hst => ?_
  obtain ⟨cp, hcp⟩ := VersionSet.run_recoverTurn_vs hst
  have hmark : ∀ (vs : VersionSet) (number : U64), vs.Serves dbname →
      (vs.markFileNumberUsed number).Serves dbname := by
    intro vs number hvs
    unfold VersionSet.markFileNumberUsed
    split_ifs
    · exact ⟨hvs.dbname_eq, hvs.log, hvs.file⟩
    · exact hvs
  have hst : st.vs.Serves dbname := by
    rw [hcp]
    exact ⟨hvs.dbname_eq, hvs.log, hvs.file⟩
  refine (keeps_finishRecover (hmark _ _ (hmark _ _ hst)) st _ _ current saveManifest uninit
    hnamed).bind ?_
  rintro ⟨save, vs'⟩ t ⟨hnamed, hserves⟩
  refine Keeps.lift_bind fun list _ => Keeps.ret ⟨hnamed, ?_⟩
  exact ⟨hserves.dbname_eq, hserves.log, hserves.file⟩

/-- **`recover`** -/
theorem keeps_recover {vs : VersionSet} (hvs : vs.Serves dbname) (saveManifest : Bool)
    (uninit : U32) (hnamed : Named dbname env) :
    Keeps (Sound dbname) (recover vs saveManifest uninit) env fun r t =>
      Named dbname t ∧ r.2.2.Serves dbname := by
  obtain rfl := hvs.dbname_eq
  have hopen : ∀ (fname : Bytes) (env : Env), Named vs.dbname env →
      Keeps (Sound vs.dbname) (newSequentialFile fname) env fun _ t => Named vs.dbname t := by
    intro fname env hnamed
    have hsound := hnamed.same (Env.others_newSequentialFile fname env)
    exact Keeps.op hsound hsound.2
  have hread : Keeps (Sound vs.dbname) (readFileToString (currentFileName vs.dbname)) env
      fun _ t => Named vs.dbname t := by
    rw [readFileToString]
    refine (hopen _ _ hnamed).bind ?_
    rintro ⟨s, file⟩ t hnamed
    simp only
    split_ifs
    · exact Keeps.ret hnamed
    · exact Keeps.lift fun _ _ => hnamed
  rw [recover]
  refine hread.bind ?_
  rintro ⟨s, current⟩ t hnamed
  simp only
  split_ifs
  · exact Keeps.ret ⟨hnamed, hvs⟩
  · exact Keeps.ret ⟨hnamed, hvs⟩
  refine (hopen _ _ hnamed).bind ?_
  rintro ⟨s, file⟩ t hnamed
  simp only
  split_ifs
  · exact Keeps.ret ⟨hnamed, hvs⟩
  · exact Keeps.ret ⟨hnamed, hvs⟩
  · exact keeps_recoverFrom hvs _ _ saveManifest uninit hnamed

end Steps

end SimpleLeveldb
