import SimpleLeveldb.Recovery
import SimpleLeveldb.Util.Fields
import SimpleLeveldb.Version.ReopenRuns

set_option autoImplicit false

/-! # Opening a database, and opening it again

In a directory without `CURRENT`, what `Open` does behind its constructor makes a database: a manifest
by `NewDB`, and a log with an edit that records its number. What it leaves cannot be opened a second
time, because the log that the first `Open` has made is one that the second would have to recover
(`openConstructed_once`).
-/

namespace SimpleLeveldb

open Log (AllFit)

/-! ## Records of short edits -/

namespace VersionEdit

/-- The record of an edit without files has the comparator's name and some numbers. -/
theorem length_encodeTo_le {e : VersionEdit} (hcp : e.compactPointers = []) (hnew : e.newFiles = [])
    {record : Bytes} (hrecord : e.encodeTo = .ok record) :
    record.length ≤ e.comparator.length + 70 := by
  rw [encodeTo, hcp, hnew] at hrecord
  cases hrecord
  have htag : ∀ v, (putVarint32 v).length ≤ 5 := encodeVarint32_length_le
  have hnumber : ∀ (b : Bool) (tag : U32) (n : U64),
      (if b then putVarint32 tag ++ putVarint64 n else []).length ≤ 15 := by
    intro b tag n
    have h₁ := htag tag
    have h₂ : (putVarint64 n).length ≤ 10 := encodeVarint64_length_le n
    cases b with
    | false => exact Nat.zero_le _
    | true =>
        rw [if_pos rfl, List.length_append]
        omega
  have hname : (if e.hasComparator then putVarint32 kComparator ++ putLengthPrefixedSlice e.comparator
      else []).length ≤ e.comparator.length + 10 := by
    have h₁ := htag kComparator
    have h₂ := htag (BitVec.ofNat 32 e.comparator.length)
    cases e.hasComparator with
    | false => exact Nat.zero_le _
    | true =>
        rw [if_pos rfl, putLengthPrefixedSlice, List.length_append, List.length_append]
        omega
  have h₁ := hnumber e.hasLogNumber kLogNumber e.logNumber
  have h₂ := hnumber e.hasPrevLogNumber kPrevLogNumber e.prevLogNumber
  have h₃ := hnumber e.hasNextFileNumber kNextFileNumber e.nextFileNumber
  have h₄ := hnumber e.hasLastSequence kLastSequence e.lastSequence
  simp only [encodeScalars, List.length_append, List.reverse_nil, List.flatten_nil, List.length_nil,
    Nat.add_zero]
  omega

end VersionEdit

/-- The name of a comparator that leaves room in the first block of a manifest. -/
def ShortName (name : Bytes) : Prop := name.length ≤ 32000

/-- The first edit of a manifest fits into a block. -/
theorem allFit_newDbEdit {name : Bytes} (hname : ShortName name) {record : Bytes}
    (hrecord : (DbImpl.newDbEdit name).encodeTo = .ok record) : AllFit 0 [record] := by
  have hlen : record.length ≤ name.length + 70 := VersionEdit.length_encodeTo_le rfl rfl hrecord
  have hblock : Log.start 0 + Log.kHeaderSize + record.length ≤ Log.kBlockSize := by
    unfold ShortName at hname
    have hstart : Log.start 0 = 0 := rfl
    have hheader : Log.kHeaderSize = 7 := rfl
    have hsize : Log.kBlockSize = 32768 := rfl
    omega
  exact ⟨hblock, trivial⟩

/-- A snapshot without files fits into a block, with an edit without files behind it. -/
theorem allFit_snapShot {name snap record : Bytes} (hname : ShortName name)
    (hsnap : (({} : VersionEdit).setComparatorName name).encodeTo = .ok snap) {e : VersionEdit}
    (hcp : e.compactPointers = []) (hnew : e.newFiles = []) (hcomparator : e.comparator = [])
    (hrecord : e.encodeTo = .ok record) : AllFit 0 [snap, record] := by
  have hlen : snap.length ≤ name.length + 70 := VersionEdit.length_encodeTo_le rfl rfl hsnap
  have hlen' := VersionEdit.length_encodeTo_le hcp hnew hrecord
  rw [hcomparator, List.length_nil] at hlen'
  unfold ShortName at hname
  have hstart : Log.start 0 = 0 := rfl
  have hheader : Log.kHeaderSize = 7 := rfl
  have hsize : Log.kBlockSize = 32768 := rfl
  have hstart' : Log.start (Log.start 0 + Log.kHeaderSize + snap.length)
      = Log.start 0 + Log.kHeaderSize + snap.length := by
    rw [Log.start, if_neg (by omega)]
  refine ⟨by omega, ?_, trivial⟩
  rw [hstart']
  omega

/-! ## What `Open` does, step by step -/

theorem Env.act_files {f : Env → Status × Env} (h : ∀ env : Env, (f env).2.files = env.files)
    (env : Env) : (env.act f).2.files = env.files := by
  unfold act
  split
  · rfl
  · exact h _

theorem Env.createDir_files (dirname : Bytes) (env : Env) :
    (env.createDir dirname).2.files = env.files :=
  Env.act_files (fun _ => rfl) env

theorem Env.lockFile_files (fname : Bytes) (env : Env) :
    (env.lockFile fname).2.files = env.files := by
  refine Env.act_files (fun env => ?_) { env with lockRequests := env.lockRequests + 1 }
  split_ifs <;> rfl

/-- `CURRENT` is switched, and nothing else changes but the temporary file. -/
theorem setCurrentFile_others {dbname : Bytes} {number : U64} {env env' : Env} {s : Status}
    (h : setCurrentFile dbname number env = .ok (s, env')) :
    Env.Others [makeFileName dbname number "dbtmp", currentFileName dbname] env env' := by
  rw [← Steps.outcome_setCurrentFile] at h
  set names := [makeFileName dbname number "dbtmp", currentFileName dbname]
  refine ((Steps.keeps_setCurrentFile dbname number env).strengthen (S := fun _ _ => True)
    (fun t => Env.Others names env t) (Env.Others.refl _ _) ?_).of_outcome h |>.2
  rintro t u ht (ho | ⟨ho, -⟩)
  · exact ⟨trivial, ht.trans (ho.mono (by simp [names]))⟩
  · exact ⟨trivial, ht.trans (ho.mono (by simp [names]))⟩

namespace DbImpl

variable {db db' : DbImpl} {uninit : U32} {env env' : Env} {saveManifest saveManifest' : Bool}

/-- What comes first: the lock, a database that is made when there is none, and the recovery. -/
theorem openVersions_steps
    (h : db.openVersions saveManifest uninit env = .ok (.ok, saveManifest', db', env')) :
    ∃ lock env₀ env₁, env₀.files = env.files ∧ db.ensureDb uninit env₀ = .ok (.ok, env₁)
      ∧ db.versions.recover saveManifest uninit env₁ = .ok (.ok, saveManifest', db'.versions, env')
      ∧ db' = { db with dbLock := some lock, versions := db'.versions } := by
  unfold openVersions at h
  rcases hcreate : env.createDir db.dbname with ⟨s₀, env₀⟩
  have hfiles₀ : env₀.files = env.files := by
    have hact := Env.createDir_files db.dbname env
    rwa [hcreate] at hact
  rw [hcreate] at h
  obtain ⟨_, -, h⟩ := bind_eq_ok.mp h
  rcases hrequest : env₀.lockFile (lockFileName db.dbname) with ⟨s, env₁⟩
  have hfiles₁ : env₁.files = env₀.files := by
    have hact := Env.lockFile_files (lockFileName db.dbname) env₀
    rwa [hrequest] at hact
  rw [hrequest] at h
  simp only at h
  split_ifs at h with hok
  · cases h
    simp at hok
  obtain ⟨⟨s₁, env₂⟩, hensure, h⟩ := bind_eq_ok.mp h
  simp only at h
  split_ifs at h with hok₁
  · cases h
    simp at hok₁
  obtain ⟨⟨s₂, save₂, versions, env₃⟩, hrecover, h⟩ := bind_eq_ok.mp h
  cases h
  obtain rfl : s₁ = .ok := (Status.isOk_iff s₁).mp (by simpa using hok₁)
  exact ⟨_, env₁, env₂, hfiles₁.trans hfiles₀, hensure, hrecover, rfl⟩

theorem fileExists_currentFileName {dbname : Bytes} :
    env.fileExists (currentFileName dbname) = (env.current dbname).isSome := by
  rw [Env.fileExists, Env.current, Option.isSome_map, Bool.eq_iff_iff, decide_eq_true_iff,
    AList.lookup_isSome]

/-- There is a database, or one is made. -/
theorem ensureDb_of_ok (h : db.ensureDb uninit env = .ok (.ok, env')) :
    (env.current db.dbname = none ∧ db.newDb uninit env = .ok (.ok, env'))
      ∨ (env.current db.dbname ≠ none ∧ env' = env) := by
  unfold ensureDb at h
  rw [fileExists_currentFileName] at h
  cases hfile : env.current db.dbname with
  | none =>
      rw [hfile] at h
      simp only [Option.isSome_none, Bool.not_false, if_true] at h
      split_ifs at h
      · exact .inl ⟨rfl, h⟩
      · cases h
  | some c =>
      rw [hfile] at h
      simp only [Option.isSome_some, Bool.not_true, Bool.false_eq_true, if_false] at h
      split_ifs at h
      · cases h
      · cases h
        exact .inr ⟨nofun, rfl⟩

end DbImpl

theorem logFile_ne_descriptorFile (dbname : Bytes) (number number' : U64) :
    dbname ++ text "/" ++ logBaseName number ≠ dbname ++ text "/" ++ descriptorBaseName number' := by
  rw [Ne, inDirectory_inj]
  exact decimal06_head_ne (show 57 < (77#8 : Byte).toNat by decide) rfl

theorem logFile_ne_tempFile (dbname : Bytes) (number number' : U64) :
    dbname ++ text "/" ++ logBaseName number ≠ makeFileName dbname number' "dbtmp" := by
  rw [makeFileName_eq, Ne, inDirectory_inj]
  intro h
  have hlast := congrArg List.getLast? h
  simp [logBaseName, text] at hlast

theorem Env.getChildren_of_ok {dir : Bytes} {env : Env} (h : (env.getChildren dir).1 = .ok) :
    (env.getChildren dir).2.1 = env.children dir := by
  have hfiles : (env.getChildren dir).2.2.files = env.files := Env.act_files (fun _ => rfl) env
  rw [Env.getChildren] at h hfiles ⊢
  simp only [(Status.isOk_iff _).mpr h, if_true]
  rw [Env.children, Env.children, hfiles]

theorem Env.mem_children_iff {dir name : Bytes} {env : Env} :
    name ∈ env.children dir ↔ dir ++ text "/" ++ name ∈ env.files := by
  refine Iff.trans ?_ AList.mem_keys.symm
  constructor
  · intro h
    obtain ⟨file, hfile, rfl⟩ := List.mem_map.mp h
    obtain ⟨hkey, hprefix⟩ := List.mem_filter.mp hfile
    obtain ⟨rest, rfl⟩ := List.isPrefixOf_iff_prefix.mp hprefix
    rwa [List.drop_left]
  · intro h
    refine List.mem_map.mpr ⟨_, List.mem_filter.mpr ⟨h, ?_⟩, List.drop_left⟩
    exact List.isPrefixOf_iff_prefix.mpr (List.prefix_append _ _)

/-! ## What is stored -/

namespace Journal

variable {failed : Prop} {dbname name : Bytes} {j : Journal}

/-- Files that are neither `CURRENT` nor the manifest that it names may change. -/
theorem Kept.others (h : Kept failed dbname name j) {names : List Bytes}
    (hspared : Spared dbname names j.env) {env' : Env} (ho : Env.Others names j.env env') :
    Kept failed dbname name ⟨env', j.versions, j.applied⟩ :=
  ⟨h.bare, h.stored.others hspared ho⟩

theorem Kept.same (h : Kept failed dbname name j) {env' : Env} (ho : Env.Others [] j.env env') :
    Kept failed dbname name ⟨env', j.versions, j.applied⟩ :=
  h.others ⟨List.not_mem_nil, fun _ _ => List.not_mem_nil⟩ ho

/-- The process ends. -/
theorem Kept.closed (h : Kept failed dbname name j) :
    Kept failed dbname name ⟨j.env, none, j.applied⟩ :=
  ⟨nofun, h.stored.closed⟩

/-- A directory without `CURRENT`. -/
theorem kept_nothing {env : Env} (habsent : env.current dbname = none) :
    Kept failed dbname name ⟨env, none, []⟩ :=
  ⟨nofun, .nothing rfl rfl habsent⟩

end Journal

open Journal (HasNumbers Readable)

namespace DbImpl

variable {db db' : DbImpl} {uninit : U32} {env env' : Env} {saveManifest saveManifest' : Bool}
  {name : Bytes}

/-- A version set that recovers opens no manifest, or uses the one again that `CURRENT` names. -/
theorem recover_manifest {vs vs' : VersionSet} (hclosed : vs.descriptorLog = none)
    (h : vs.recover false uninit env = .ok (.ok, saveManifest', vs', env')) :
    (saveManifest' = true ∧ vs'.descriptorLog = none
        ∧ vs'.nextFileNumber = vs'.manifestFileNumber + 1)
      ∨ saveManifest' = false ∧ ∃ current, env'.current vs.dbname = some (current ++ [10#8])
        ∧ parseFileName current = some (vs'.manifestFileNumber, .kDescriptorFile) := by
  obtain ⟨current, env₂, edits, hreads, hset⟩ := VersionSet.recovered_of_ok h
  have hsave := hset.saveManifest
  cases hreused : vs.reusedNumber (vs.dbname ++ text "/" ++ current) current env₂ with
  | none =>
      have hmanifest := hset.manifestFileNumber
      rw [hreused] at hsave hmanifest
      refine .inl ⟨hsave, (hset.descriptorLog hreused).trans hclosed, ?_⟩
      rw [hset.nextFileNumber, hmanifest, Option.getD_none]
  | some number =>
      have hmanifest := hset.manifestFileNumber
      rw [hreused] at hsave hmanifest
      have hparse := parseFileName_of_reusedNumber hreused
      obtain ⟨file, hopen, -⟩ := id hreads
      refine .inr ⟨hsave, current, ?_, by rw [hparse, hmanifest, Option.getD_some]⟩
      -- the file that is written to is not `CURRENT`
      have hother : currentFileName vs.dbname ∉ [vs.dbname ++ text "/" ++ current] := by
        intro hmem
        rw [currentFileName_eq, List.mem_singleton, inDirectory_inj] at hmem
        rw [← hmem, show parseFileName (text "CURRENT") = some (0, .kCurrentFile) by decide] at hparse
        cases hparse
      exact ((hreads.others h).content hother).trans hopen.current_eq.1

/-- **A database that is made** has the manifest of `NewDB`, and is recovered from it. -/
theorem kept_openVersions (hfresh : db.versions.Fresh db.dbname name)
    (hname : db.userComparator.name = name) (hshort : ShortName name)
    (habsent : env.current db.dbname = none)
    (h : db.openVersions saveManifest uninit env = .ok (.ok, saveManifest', db', env')) :
    Journal.Kept False db.dbname name ⟨env', some db'.versions, [newDbEdit name]⟩
      ∧ HasNumbers db'.versions (newDbEdit name) := by
  obtain ⟨lock, env₀, env₁, hfiles, hensure, hrecover, -⟩ := openVersions_steps h
  have habsent₀ : env₀.current db.dbname = none := by
    rw [Env.current, hfiles]
    exact habsent
  rcases ensureDb_of_ok hensure with ⟨-, hnew⟩ | ⟨hcurrent, -⟩
  swap
  · exact absurd habsent₀ hcurrent
  have hempty : Journal.Kept False db.dbname name ⟨env₀, none, []⟩ := Journal.kept_nothing habsent₀
  have hmade := hempty.newDb ⟨rfl, hname, habsent₀⟩
    (fun record hrecord => allFit_newDbEdit (hname ▸ hshort) hrecord) hnew
  simp only [Status.isOk_ok, if_true, List.nil_append, hname] at hmade
  have hstarted := hmade.restart hfresh
  obtain ⟨⟨last, hlast, hnumbers⟩, -⟩ := hmade.recovered hfresh hrecover
  obtain rfl : newDbEdit name = last := Option.some.inj hlast
  have hreturns : Journal.Call.returns ⟨env₁, some db.versions, [newDbEdit name]⟩
      (.recover saveManifest uninit) = .ok ⟨env', some db'.versions, [newDbEdit name]⟩ := by
    show (db.versions.recover saveManifest uninit env₁ >>= _) = _
    rw [hrecover]
    rfl
  have hallowed : Journal.Call.Allowed db.dbname name ⟨env₁, some db.versions, [newDbEdit name]⟩
      (.recover saveManifest uninit) := trivial
  exact ⟨hstarted.returns hallowed (fun _ _ _ => hstarted.stored.untorn) hreturns, hnumbers⟩

end DbImpl

/-! ## A manifest is made for an edit -/

/-- Operations whose statuses are all looked at -/
theorem Env.ignoresNone_of_looked {ops : List Bool} (h : ∀ looked ∈ ops, looked = true)
    (script : List Status) : Env.IgnoresNone ops script := by
  induction ops generalizing script with
  | nil => trivial
  | cons looked ops ih =>
      refine ⟨fun hfalse => ?_, fun _ => ih (fun b hb => h b (List.mem_cons_of_mem _ hb)) _⟩
      rw [h looked List.mem_cons_self] at hfalse
      cases hfalse

/-- A physical record for which there is room in the block -/
theorem Log.Writer.looked_turnOps {o : Nat} (ho : o + Log.kHeaderSize ≤ Log.kBlockSize) :
    ∀ looked ∈ Log.Writer.turnOps o, looked = true := by
  have hpadding : Log.padding o = 0 := by
    rw [Log.padding, if_neg (by omega)]
  rw [Log.Writer.turnOps, hpadding, if_neg (lt_irrefl 0)]
  decide

namespace VersionSet

variable {dbname name : Bytes} {vs vs' : VersionSet} {env env' : Env} {edit : VersionEdit}

/-- A call that makes a manifest changes this manifest, the temporary file and `CURRENT`. -/
theorem writeEdit_others {uninit : U32} {s : Status} {m : Bytes} (hlog : vs.descriptorLog = none)
    (h : vs.writeEdit edit uninit env = .ok (s, m, vs', env')) :
    Env.Others [vs.dbname ++ text "/" ++ descriptorBaseName vs.manifestFileNumber,
      makeFileName vs.dbname vs.manifestFileNumber "dbtmp", currentFileName vs.dbname] env env' := by
  unfold writeEdit at h
  obtain ⟨⟨s₁, m₁, vs₁, env₁⟩, hopen, h⟩ := bind_eq_ok.mp h
  obtain ⟨hm, hothers₁, hcreated⟩ := openManifest_others hlog hopen
  simp only at h
  rw [← hm]
  set names := [m₁, makeFileName vs.dbname vs.manifestFileNumber "dbtmp", currentFileName vs.dbname]
    with hnames
  have hsub : ([m₁] : List Bytes) ⊆ names := by simp [hnames]
  split_ifs at h with hs₁
  · cases h
    exact hothers₁.mono hsub
  obtain ⟨log, hdest, hcrc, rfl⟩ := hcreated ((Status.isOk_iff s₁).mp (by simpa using hs₁))
  obtain ⟨⟨s₂, vs₂, env₂⟩, happend, h⟩ := bind_eq_ok.mp h
  have hothers₂ := appendEdit_others rfl hcrc (congrArg some hdest.symm) happend
  rw [hdest] at hothers₂
  obtain ⟨log₂, file₂, rfl⟩ := appendEdit_same happend
  simp only at h
  split_ifs at h
  · cases h
    exact (hothers₁.trans hothers₂).mono hsub
  obtain ⟨⟨s₃, env₃⟩, hswitch, h⟩ := bind_eq_ok.mp h
  cases h
  unfold switchCurrent at hswitch
  rw [if_neg (by rw [hm]; simp [text])] at hswitch
  exact ((hothers₁.trans hothers₂).mono hsub).trans
    ((setCurrentFile_others hswitch).mono (by simp [hnames]))

/-- **A short edit**, for which a manifest is made, is within what a manifest can record. -/
theorem Bare.writable_of_short (h : Bare dbname name vs) (hshort : ShortName name)
    (hlog : vs.descriptorLog = none) (hcp : edit.compactPointers = []) (hnew : edit.newFiles = [])
    (hcomparator : edit.comparator = []) (env : Env) : vs.Writable edit env := by
  obtain ⟨snap, hsnap⟩ : ∃ snap, (({} : VersionEdit).setComparatorName name).encodeTo = .ok snap :=
    ⟨_, rfl⟩
  obtain ⟨l, hl⟩ := h.list
  -- the records are the snapshot and the edit
  have hrecords : ∀ edit' v vs₁ record, vs.completeEdit edit = .ok edit' →
      vs.buildVersion edit' = .ok (v, vs₁) → edit'.encodeTo = .ok record →
      Bare dbname name vs₁ ∧ vs₁.descriptorLog = none ∧ AllFit 0 [snap, record] := by
    intro edit' v vs₁ record hcomplete hbuild hrecord
    have hcompleted := completed_of_ok hcomplete
    have hcp' := hcompleted.compactPointers.trans hcp
    obtain ⟨built, -, rfl, hbare⟩ := h.buildVersion hl hcp' hbuild
    exact ⟨hbare, hlog, allFit_snapShot hshort hsnap hcp' (hcompleted.newFiles.trans hnew)
      (hcompleted.comparator.trans hcomparator) hrecord⟩
  refine ⟨hcp, fun o records hcall => ?_, fun ops hops => ?_⟩
  · obtain ⟨edit', hcomplete, hcall⟩ := bind_eq_ok.mp hcall
    obtain ⟨⟨v, vs₁⟩, hbuild, hcall⟩ := bind_eq_ok.mp hcall
    obtain ⟨record, hrecord, hcall⟩ := bind_eq_ok.mp hcall
    obtain ⟨hbare, hlog₁, hfit⟩ := hrecords edit' v vs₁ record hcomplete hbuild hrecord
    rw [hlog₁, hbare.snapShot, ok_bind, hsnap] at hcall
    cases hcall
    exact hfit
  · obtain ⟨edit', hcomplete, hops⟩ := bind_eq_ok.mp hops
    obtain ⟨⟨v, vs₁⟩, hbuild, hops⟩ := bind_eq_ok.mp hops
    obtain ⟨record, hrecord, -⟩ := bind_eq_ok.mp hops
    obtain ⟨hbare, hlog₁, hfit⟩ := hrecords edit' v vs₁ record hcomplete hbuild hrecord
    obtain rfl := hbare.writeOps_of_none hlog₁ hsnap hrecord hfit hops
    refine Env.ignoresNone_of_looked (fun looked hlooked => ?_) _
    have hroom : Log.next 0 ⟨.kFullType, snap⟩ + Log.kHeaderSize ≤ Log.kBlockSize := by
      have hlen : snap.length ≤ name.length + 70 := VersionEdit.length_encodeTo_le rfl rfl hsnap
      unfold ShortName at hshort
      show 0 + 7 + snap.length + 7 ≤ 32768
      omega
    simp only [List.mem_append, List.mem_cons, List.not_mem_nil, or_false, or_self] at hlooked
    rcases hlooked with (rfl | hlooked) | hlooked | rfl
    · rfl
    · exact Log.Writer.looked_turnOps (by decide) looked hlooked
    · exact Log.Writer.looked_turnOps hroom looked hlooked
    · rfl

/-- A call that has made a manifest has left the logs alone. -/
theorem Bare.logAnyApply_log (h : Bare dbname name vs) (hlog : vs.descriptorLog = none)
    (hcp : edit.compactPointers = []) {uninit : U32} {s : Status} {edit' : VersionEdit}
    (hrun : vs.logAnyApply edit uninit env = .ok (s, edit', vs', env')) (number : U64) :
    env'.content (dbname ++ text "/" ++ logBaseName number)
      = env.content (dbname ++ text "/" ++ logBaseName number) := by
  obtain ⟨-, happlied⟩ := h.applied_of_ok hcp hrun
  obtain ⟨v, vs₁, m, vs₂, -, hbare, hsame, hwrite, -⟩ := happlied.writes
  have hothers := writeEdit_others (hsame.trans hlog) hwrite
  rw [hbare.dbname_eq] at hothers
  refine hothers.content fun hmem => ?_
  simp only [List.mem_cons, List.not_mem_nil, or_false] at hmem
  rcases hmem with he | he | he
  · exact logFile_ne_descriptorFile _ _ _ he
  · exact logFile_ne_tempFile _ _ _ he
  · exact logFile_ne_current _ _ he

end VersionSet

namespace Opening

variable {db : DbImpl} {st : Opening} {uninit : U32} {env env' : Env} {saveManifest : Bool}
  {dbname name : Bytes}

/-- The edit that records the number of a new log -/
def logUpdates (number : U64) : List VersionEdit.Update :=
  [.setLogNumber number, .setPrevLogNumber 0, .setLogNumber number]

/-- A log is created, and then an edit records its number, unless the manifest is used again. -/
theorem prepare_steps (h : Opening.prepare { db := db, saveManifest := saveManifest } uninit env
      = .ok (.ok, st, env')) :
    ∃ env₁, env.newWritableFile
        (db.dbname ++ text "/" ++ logBaseName db.versions.nextFileNumber) = (.ok, env₁)
      ∧ st.db = { db with versions := st.db.versions }
      ∧ (saveManifest = false → st.db.versions = db.versions.newFileNumber.2 ∧ env' = env₁)
      ∧ (saveManifest = true → ∃ edit', db.versions.newFileNumber.2.logAnyApply
        (VersionEdit.built (logUpdates db.versions.nextFileNumber)) uninit env₁
          = .ok (.ok, edit', st.db.versions, env')) := by
  unfold prepare at h
  obtain ⟨⟨s, st₁, env₁⟩, hcreate, h⟩ := bind_eq_ok.mp h
  obtain ⟨file, hfile, hcreate⟩ := bind_eq_ok.mp hcreate
  obtain ⟨_, -, hfile⟩ := bind_eq_ok.mp hfile
  cases hfile
  have hlog : makeFileName db.dbname db.versions.nextFileNumber "log"
      = db.dbname ++ text "/" ++ logBaseName db.versions.nextFileNumber := makeFileName_eq _ _ _
  rcases hnew : env.newWritableFile
    (db.dbname ++ text "/" ++ logBaseName db.versions.nextFileNumber) with ⟨s₁, env₂⟩
  simp only at h hcreate
  rw [hlog, hnew] at hcreate
  simp only at hcreate
  split_ifs at hcreate with hok
  · cases hcreate
    obtain rfl := (Status.isOk_iff _).mp hok
    rw [if_neg (by simp)] at h
    refine ⟨_, rfl, ?_⟩
    unfold saveEdit at h
    cases saveManifest with
    | false =>
        cases h
        exact ⟨rfl, fun _ => ⟨rfl, rfl⟩, nofun⟩
    | true =>
        obtain ⟨⟨s₂, edit', versions, env₃⟩, happly, h⟩ := bind_eq_ok.mp h
        cases h
        exact ⟨rfl, nofun, fun _ => ⟨edit', happly⟩⟩
  · cases hcreate
    rw [if_pos (by simpa using hok)] at h
    exact absurd ((Status.isOk_iff _).mpr (congrArg Prod.fst (Except.ok.inj h))) hok

end Opening

namespace DbImpl

variable {db db' : DbImpl} {st : Opening} {uninit : U32} {env env' : Env}
  {saveManifest : Bool} {dbname name : Bytes}

/-- What a directory holds in which a database has been made and opened: the manifest, and a log
with the number 3, which is not below the one that the manifest records. -/
structure HasLog (dbname name : Bytes) (env : Env) : Prop where
  kept : ∃ applied last, Journal.Kept False dbname name ⟨env, none, applied⟩
    ∧ applied.getLast? = some last ∧ last.logNumber ≤ 3 ∧ ∀ e ∈ applied, Readable name e
  log : env.content (dbname ++ text "/" ++ logBaseName 3) = some []

/-- The manifest that `CURRENT` names is not older than the one that the version set has. -/
def NamesManifest (db : DbImpl) (env : Env) : Prop :=
  ∃ current manifest, env.current db.dbname = some (current ++ [10#8])
    ∧ parseFileName current = some (manifest, .kDescriptorFile)
    ∧ db.versions.manifestFileNumber ≤ manifest

/-- Between the recovery and the clean-up the log is made. -/
theorem hasLog_prepare
    (hkept : Journal.Kept False db.dbname name ⟨env, some db.versions, [newDbEdit name]⟩)
    (hnumbers : HasNumbers db.versions (newDbEdit name)) (hshort : ShortName name)
    (hmanifest : (saveManifest = true ∧ db.versions.descriptorLog = none)
      ∨ saveManifest = false ∧ NamesManifest db env)
    (h : Opening.prepare { db := db, saveManifest := saveManifest } uninit env
      = .ok (.ok, st, env')) :
    HasLog db.dbname name env' ∧ NamesManifest st.db env' ∧ st.db.versions.logNumber ≤ 3
      ∧ st.db = { db with versions := st.db.versions } := by
  obtain ⟨env₁, hnew, hdb, hreused, hsaved⟩ := Opening.prepare_steps h
  have hdbname : st.db.dbname = db.dbname := by rw [hdb]
  have hthree : db.versions.nextFileNumber = 3 := hnumbers.nextFileNumber
  rw [hthree] at hnew hsaved
  have hlookup := Env.lookup_newWritableFile (congrArg Prod.fst hnew)
  have hothers := Env.others_newWritableFile (db.dbname ++ text "/" ++ logBaseName 3) env
  rw [hnew] at hlookup hothers
  have hlog : env₁.content (db.dbname ++ text "/" ++ logBaseName 3) = some [] := by
    rw [Env.content, hlookup]
    rfl
  -- a log is not a file that a recovery reads
  have hcurrent : currentFileName db.dbname ∉ [db.dbname ++ text "/" ++ logBaseName 3] :=
    fun hmem => logFile_ne_current _ _ (List.mem_singleton.mp hmem).symm
  have hspared : Spared db.dbname [db.dbname ++ text "/" ++ logBaseName 3] env := by
    refine ⟨hcurrent, fun c hc hmem => ?_⟩
    cases hkept.stored with
    | nothing hnil _ _ => cases hnil
    | manifest number _ _ _ hdisk _ _ _ _ =>
        obtain rfl := Option.some.inj (hc.symm.trans hdisk.current)
        rw [manifestPath_eq] at hmem
        exact logFile_ne_descriptorFile _ _ _ (List.mem_singleton.mp hmem).symm
  have hkept₁ := hkept.others hspared hothers
  have hnumbered : Journal.Kept False db.dbname name
      ⟨env₁, some db.versions.newFileNumber.2, [newDbEdit name]⟩ := hkept₁.numbers rfl rfl
  have hall : ∀ e ∈ [newDbEdit name], Readable name e := by
    simpa using Journal.readable_newDbEdit name
  rcases hmanifest with ⟨rfl, hnone⟩ | ⟨rfl, current, manifest, hc, hparse, hle⟩
  · obtain ⟨edit', happly⟩ := hsaved rfl
    have hbare := hnumbered.bare _ rfl
    have hnone : db.versions.newFileNumber.2.descriptorLog = none := hnone
    have hwritable : VersionSet.Writable _ (VersionEdit.built (Opening.logUpdates 3)) env₁ :=
      hbare.writable_of_short hshort hnone rfl rfl rfl env₁
    have happlied := hnumbered.logAnyApply (by simp [Opening.logUpdates, VersionEdit.Update.Ok])
      rfl hwritable happly
    have hsame := hbare.logAnyApply_log hnone rfl happly 3
    obtain ⟨hnumber, hman, f, hf, hdata⟩ := VersionSet.logAnyApply_switches hnone rfl happly
    obtain ⟨-, happlied'⟩ := hbare.applied_of_ok rfl happly
    refine ⟨⟨⟨_, edit', happlied.closed, rfl, ?_, ?_⟩, hsame.trans hlog⟩, ?_,
      BitVec.le_of_eq hnumber, hdb⟩
    · obtain ⟨v, vs₁, m, vs₂, -, -, -, -, hvs⟩ := happlied'.writes
      rw [hvs] at hnumber
      exact BitVec.le_of_eq hnumber
    · have hcompleted := VersionSet.completed_of_ok happlied'.completed
      have hreadable : Readable name edit' := by
        refine ⟨?_, ?_, ?_⟩
        · rw [VersionSet.LongKeys, hcompleted.newFiles]
          exact List.forall_mem_nil _
        · rw [VersionEdit.Accepted, hcompleted.hasComparator]
          intro hfalse
          cases hfalse
        · rw [hcompleted.nextFileNumber]
          show (db.versions.nextFileNumber + 1).toNat < 2 ^ 64 - 1
          rw [hthree]
          decide
      exact List.forall_mem_append.mpr ⟨hall, by simpa using hreadable⟩
    · refine ⟨_, _, ?_, parseFileName_descriptorBaseName _, BitVec.le_of_eq hman⟩
      rw [hbare.dbname_eq] at hf
      rw [hdbname, Env.current, hf, Option.map_some, hdata]
      rfl
  · obtain ⟨hversions, rfl⟩ := hreused rfl
    refine ⟨⟨⟨_, newDbEdit name, hnumbered.closed, rfl, ?_, hall⟩, hlog⟩,
      ⟨current, manifest, ?_, hparse, by rw [hversions]; exact hle⟩, ?_, hdb⟩
    · show (0 : U64) ≤ 3
      decide
    · rw [hdbname]
      exact (hothers.content hcurrent).trans hc
    · rw [hversions]
      show db.versions.logNumber ≤ 3
      rw [hnumbers.logNumber]
      show (0 : U64) ≤ 3
      decide

/-- The clean-up leaves the manifest and the log. -/
theorem HasLog.cleanUp (h : HasLog db.dbname name env) (hmanifest : NamesManifest db env)
    (hnumber : db.versions.logNumber ≤ 3) (hclean : db.removeObsoleteFiles env = .ok env') :
    HasLog db.dbname name env' := by
  obtain ⟨live, filenames, hothers⟩ := removeObsoleteFiles_others hclean
  obtain ⟨current, manifest, hc, hparse, hle⟩ := hmanifest
  have hspared : Spared db.dbname (db.removed live filenames) env := by
    refine ⟨?_, fun c hc' => ?_⟩
    · rw [currentFileName_eq]
      exact not_mem_removed
        (show parseFileName (text "CURRENT") = some (0, .kCurrentFile) by decide) rfl
    · obtain rfl := Option.some.inj (hc'.symm.trans hc)
      rw [manifestPath, List.dropLast_concat]
      exact not_mem_removed hparse (decide_eq_true hle)
  have hlog : db.dbname ++ text "/" ++ logBaseName 3 ∉ db.removed live filenames :=
    not_mem_removed (parseFileName_logBaseName 3) (by rw [keep, decide_eq_true hnumber, Bool.true_or])
  obtain ⟨applied, last, hkept, hlast⟩ := h.kept
  exact ⟨⟨applied, last, hkept.others hspared hothers, hlast⟩,
    (hothers.content hlog).trans h.log⟩

/-! ## Opening it again -/

/-- **The log is found** by a recovery, which cannot go on from there. -/
theorem HasLog.logsToHandle_ne_nil (h : HasLog db.dbname name env)
    (hfresh : db.versions.Fresh db.dbname name)
    (hopened : Opened db false uninit env saveManifest db' env') : db'.logsToHandle env' ≠ [] := by
  obtain ⟨lock, env₀, env₁, hfiles, hensure, hrecover, hdb⟩ := openVersions_steps hopened.versions
  have hdbname : db'.dbname = db.dbname := by rw [hdb]
  obtain ⟨applied, last, hkept, hlast, hle, -⟩ := h.kept
  have hkept₀ : Journal.Kept False db.dbname name ⟨env₀, none, applied⟩ :=
    hkept.same fun g _ => congrArg (AList.lookup g) hfiles
  cases hkept₀.stored with
  | nothing hnil _ _ =>
      obtain rfl : applied = [] := hnil
      cases hlast
  | manifest number records tail read hdisk _ _ _ _ =>
      rcases ensureDb_of_ok hensure with ⟨hnone, -⟩ | ⟨-, rfl⟩
      · cases hnone.symm.trans hdisk.current
      obtain ⟨⟨last', hlast', hnumbers⟩, -⟩ := hkept₀.recovered hfresh hrecover
      obtain rfl := Option.some.inj (hlast'.symm.trans hlast)
      obtain ⟨current, env₂, edits, hreads, -⟩ := VersionSet.recovered_of_ok hrecover
      have hothers := hreads.others hrecover
      obtain ⟨file, hopen, -⟩ := hreads
      have hcurrent := hopen.current_eq.1
      rw [hfresh.dbname_eq] at hcurrent hothers
      obtain rfl : current = descriptorBaseName number := List.append_cancel_right
        (Option.some.inj (hcurrent.symm.trans hdisk.current))
      have hlog : env'.content (db.dbname ++ text "/" ++ logBaseName 3) = some [] := by
        rw [hothers.content fun hmem => logFile_ne_descriptorFile _ _ _ (List.mem_singleton.mp hmem),
          Env.content, hfiles]
        exact h.log
      -- its name is in the listing, and its number is not below the recorded one
      rw [Ne, logsToHandle_eq_nil_iff, Env.getChildren_of_ok hopened.listing, hdbname]
      intro hall
      obtain ⟨f, hf, -⟩ := Option.map_eq_some_iff.mp hlog
      have hnone := hall _ (Env.mem_children_iff.mpr (Env.mem_of_lookup hf))
      rw [relevantLog, parseFileName_logBaseName] at hnone
      simp only [hnumbers.logNumber, hle, true_or, if_true] at hnone
      cases hnone

/-- What has been opened cannot be opened again. -/
theorem HasLog.not_ok (h : HasLog db.dbname name env) (hfresh : db.versions.Fresh db.dbname name)
    {depth : Nat} {s : Status} (hrun : db.openConstructed uninit depth env = .ok (s, db', env')) :
    s ≠ .ok := by
  rintro rfl
  obtain ⟨⟨s, saveManifest, db₁, env₁, handled⟩, hrecover, hrun⟩ := bind_eq_ok.mp hrun
  simp only at hrun
  split_ifs at hrun with hok
  · cases hrun
    simp at hok
  obtain rfl : s = .ok := (Status.isOk_iff s).mp (by simpa using hok)
  obtain ⟨save₂, db₂, env₂, hopened⟩ := opened_of_recover hrecover
  have hlogs := h.logsToHandle_ne_nil hfresh hopened
  cases depth with
  | zero =>
      obtain ⟨log, logs, hcons⟩ := List.exists_cons_of_ne_nil hlogs
      rw [hopened.recover_eq, hcons, recoverLogs, recoverLogFile] at hrecover
      cases hrecover
  | succ depth =>
      rw [hopened.recover_of_log hlogs] at hrecover
      cases hrecover

theorem HasLog.sameFiles {dbname : Bytes} (h : HasLog dbname name env) (hsame : env.SameFiles env') :
    HasLog dbname name env' := by
  obtain ⟨applied, last, hkept, hlast⟩ := h.kept
  refine ⟨⟨applied, last, hkept.sameFiles hsame, hlast⟩, ?_⟩
  have hg := congrArg (Option.map Prod.fst) (hsame (dbname ++ text "/" ++ logBaseName 3))
  simp only [Option.map_map] at hg
  exact hg.trans h.log

/-- **What `Open` leaves** behind its constructor, in a directory in which there was no database. -/
theorem hasLog_openConstructed (hfresh : db.versions.Fresh db.dbname name)
    (hname : db.userComparator.name = name) (hshort : ShortName name)
    (habsent : env.current db.dbname = none) {depth : Nat}
    (hrun : db.openConstructed uninit depth env = .ok (.ok, db', env')) :
    HasLog db.dbname name env' := by
  unfold openConstructed at hrun
  obtain ⟨⟨s, saveManifest, db₁, env₁, handled⟩, hrecover, hrun⟩ := bind_eq_ok.mp hrun
  simp only at hrun
  split_ifs at hrun with hok
  · cases hrun
    simp at hok
  obtain ⟨⟨s₁, st, env₂⟩, hprepare, hrun⟩ := bind_eq_ok.mp hrun
  simp only at hrun
  split_ifs at hrun with hok₁
  · cases hrun
    simp at hok₁
  obtain ⟨env₃, hclean, hrun⟩ := bind_eq_ok.mp hrun
  cases hrun
  simp only [Bool.not_eq_true', Bool.not_eq_false, Status.isOk_iff] at hok hok₁
  subst hok hok₁
  obtain ⟨env₀, hopen, rfl⟩ := recover_eq_of_ok hrecover
  obtain ⟨hkept, hnumbers⟩ := kept_openVersions hfresh hname hshort habsent hopen
  obtain ⟨lock, _, env₄, -, -, hrec, hdb⟩ := openVersions_steps hopen
  have hdbname : db₁.dbname = db.dbname := by rw [hdb]
  have hlisted : Env.Others [] env₀ (env₀.getChildren db₁.dbname).2.2 :=
    fun g _ => Env.lookup_getChildren db₁.dbname g env₀
  have hmanifest : (saveManifest = true ∧ db₁.versions.descriptorLog = none)
      ∨ saveManifest = false ∧ NamesManifest db₁ (env₀.getChildren db₁.dbname).2.2 := by
    refine (recover_manifest hfresh.closed hrec).imp (fun h => ⟨h.1, h.2.1⟩)
      fun ⟨hsave, current, hc, hparse⟩ => ?_
    refine ⟨hsave, current, _, ?_, hparse, BitVec.le_refl _⟩
    rw [hfresh.dbname_eq, ← hdbname] at hc
    exact (hlisted.content List.not_mem_nil).trans hc
  rw [← hdbname] at hkept ⊢
  obtain ⟨hlog, hnames, hnumber, hst⟩ :=
    hasLog_prepare (hkept.same hlisted) hnumbers hshort hmanifest hprepare
  have hstname : st.db.dbname = db₁.dbname := by rw [hst]
  rw [← hstname] at hlog ⊢
  exact hlog.cleanUp hnames hnumber hclean

/-- **A database is opened once.** When `Open`, behind its constructor, has made a database, no later
`Open` of the directory returns OK, whatever fails and whatever does not. -/
theorem openConstructed_once (hfresh : db.versions.Fresh db.dbname name)
    (hname : db.userComparator.name = name) (hshort : ShortName name)
    (habsent : env.current db.dbname = none) {depth : Nat}
    (hrun : db.openConstructed uninit depth env = .ok (.ok, db', env')) {env₂ env₃ : Env}
    (hsame : env'.SameFiles env₂) {db₂ db₃ : DbImpl} (hdbname : db₂.dbname = db.dbname)
    (hfresh₂ : db₂.versions.Fresh db.dbname name) {uninit₂ : U32} {depth₂ : Nat} {s : Status}
    (hrun₂ : db₂.openConstructed uninit₂ depth₂ env₂ = .ok (s, db₃, env₃)) : s ≠ .ok := by
  have hlog := (hasLog_openConstructed hfresh hname hshort habsent hrun).sameFiles hsame
  rw [← hdbname] at hlog hfresh₂
  exact hlog.not_ok hfresh₂ hrun₂

/-- A process that opens the database `db`, which does not exist yet. -/
def makingDb : DbImpl := { Journal.freshDb with options := { createIfMissing := true } }

/-- What `Open` returns in an empty directory, behind its constructor. -/
def madeResult : Except Fault (Status × DbImpl × Env) := makingDb.openConstructed 0 1 { files := ∅ }

/-- The files of the database, with the outcomes `script` of the operations to come. -/
def madeFiles (script : List Status) : Env where
  files := (madeResult.toOption.map fun r => r.2.2.files).getD ∅
  script := script

/-- The lock is not acquired. -/
def lockFails : List Status := [.ok, .error .kIOError (text "lock")]

theorem madeResult_evaluated :
    madeResult.toOption.map (fun r => r.1.isOk) = some true
      ∧ (makingDb.openConstructed 0 1 (madeFiles lockFails)).toOption.isSome = true := by
  decide +kernel

theorem exists_madeResult : ∃ db' env',
    makingDb.openConstructed 0 1 { files := ∅ } = .ok (.ok, db', env')
    ∧ ∀ script, env'.SameFiles (madeFiles script) := by
  obtain ⟨⟨s, db', env'⟩, hrun, hs⟩ := Option.map_eq_some_iff.mp madeResult_evaluated.1
  obtain rfl : s = .ok := (Status.isOk_iff s).mp hs
  refine ⟨db', env', toOption_eq_some.mp hrun, fun script g => ?_⟩
  rw [madeFiles, hrun]
  rfl

/-- The database of an empty directory, and a process that does not get its lock. -/
theorem openConstructed_once_making : ∃ db' env' s db₃ env₃,
    makingDb.openConstructed 0 1 { files := ∅ } = .ok (.ok, db', env')
      ∧ env'.SameFiles (madeFiles lockFails)
      ∧ makingDb.openConstructed 0 1 (madeFiles lockFails) = .ok (s, db₃, env₃) ∧ s ≠ .ok := by
  obtain ⟨db', env', hrun, hsame⟩ := exists_madeResult
  obtain ⟨⟨s, db₃, env₃⟩, hrun₂⟩ := Option.isSome_iff_exists.mp madeResult_evaluated.2
  have hrun₂ := toOption_eq_some.mp hrun₂
  have hfresh := Journal.freshVersionSet_fresh
  exact ⟨db', env', s, db₃, env₃, hrun, hsame _, hrun₂, openConstructed_once hfresh rfl
    (show _ ≤ _ by decide) (by decide) hrun (hsame _) rfl hfresh hrun₂⟩

end DbImpl

end SimpleLeveldb
