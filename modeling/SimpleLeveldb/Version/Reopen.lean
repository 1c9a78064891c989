import SimpleLeveldb.Version.Stored

set_option autoImplicit false

/-! # Making and opening a database

What `recover` and `NewDB` do to the manifest on disk: `recover` leaves what is stored, and may open
the manifest to write on behind its records (`Bare.recover`), and `NewDB` stores the first edit
(`stored_of_newDb`).
-/

namespace SimpleLeveldb

open Log (AllFit fulls layout)

/-! ## `recover` -/

theorem readFileToString_others {fname data : Bytes} {env env' : Env} {s : Status}
    (h : env.readFileToString fname = .ok (s, data, env')) : Env.Others [] env env' := by
  have hopen := Env.others_newSequentialFile fname env
  unfold Env.readFileToString at h
  simp only at h
  split_ifs at h
  · cases h
    exact hopen
  · obtain ⟨_, -, h⟩ := bind_eq_ok.mp h
    cases h
    exact hopen

/-- The size of a file, and a file that is opened for appending while it is there. -/
theorem content_getFileSize {fname data : Bytes} {env : Env} (h : env.content fname = some data) :
    (env.getFileSize fname).2.1 = data.length := by
  have hsame : (env.getFileSize fname).2.2.content fname = env.content fname :=
    (Env.others_getFileSize fname env).content List.not_mem_nil
  rw [h] at hsame
  obtain ⟨f, hf, hdata⟩ := Option.map_eq_some_iff.mp hsame
  have hsize : (env.getFileSize fname).2.1
      = (((env.getFileSize fname).2.2.files.lookup fname).map fun f => f.data.length).getD 0 := rfl
  rw [hsize, hf, Option.map_some, Option.getD_some, hdata]

theorem content_newAppendableFile {fname data : Bytes} {env : Env} (h : env.content fname = some data)
    (g : Bytes) : (env.newAppendableFile fname).2.content g = env.content g := by
  have hmem : fname ∈ env.files := by
    obtain ⟨f, hf, -⟩ := Option.map_eq_some_iff.mp h
    exact Env.mem_of_lookup hf
  rcases Env.act_cases env fun env => (Status.ok, if fname ∈ env.files then env
    else { env with files := env.files.insert fname { data := [] } }) with ⟨-, hfiles⟩ | ⟨script, hact⟩
  · exact congrArg (fun files => (files.lookup g).map File.data) hfiles
  · rw [Env.newAppendableFile, hact]
    simp only [if_pos hmem]
    rfl

/-- The manifest that `CURRENT` names consists of whole records. -/
def Untorn (dbname : Bytes) (env : Env) : Prop :=
  ∀ c, env.current dbname = some c → ∃ records, AllFit 0 records
    ∧ env.content (manifestPath dbname c) = some (layout 0 (fulls records))

theorem OnDisk.tail_eq_nil {dbname : Bytes} {env : Env} {number : U64} {records : List Bytes}
    {tail : Bytes} (h : OnDisk dbname env number records tail) (huntorn : Untorn dbname env) :
    tail = [] := by
  obtain ⟨records', hfit, hcontent⟩ := huntorn _ h.current
  rw [manifestPath_eq, h.content, Option.some.injEq] at hcontent
  -- both are read, and what is read is the same
  obtain ⟨rd, hread, -⟩ := Log.Reader.readAll_fulls h.fits h.torn
  obtain ⟨rd', hread', -⟩ := Log.Reader.readAll_fulls hfit
    (Log.torn_nil (Log.endOffset_le (Nat.zero_le _) (Log.fits_fulls.mpr hfit)))
  rw [hcontent] at hread
  rw [List.append_nil, hread] at hread'
  obtain rfl : records = records' := congrArg Prod.fst (Except.ok.inj hread')
  exact List.append_right_eq_self.mp hcontent

namespace VersionSet

variable {failed : Prop} {dbname name : Bytes} {vs vs' : VersionSet} {env env' : Env}
  {applied : List VersionEdit} {s : Status} {saveManifest saveManifest' : Bool} {uninit : U32}

/-- A call that has opened no manifest has changed no file. -/
theorem recover_others (h : vs.recover saveManifest uninit env = .ok (s, saveManifest', vs', env'))
    (hnot : ∀ current file env₂, ¬ vs.Opens env current file env₂) : Env.Others [] env env' := by
  unfold recover at h
  obtain ⟨⟨s₁, data, env₁⟩, hread, h⟩ := bind_eq_ok.mp h
  have hothers := readFileToString_others hread
  have hopen := hothers.trans
    (Env.others_newSequentialFile (vs.dbname ++ text "/" ++ data.dropLast) env₁)
  simp only at h
  split_ifs at h with hs₁ hlast hs₂ hfound
  · cases h
    exact hothers
  · cases h
    exact hothers
  · cases h
    exact hopen
  · cases h
    exact hopen
  · obtain rfl : s₁ = .ok := (Status.isOk_iff s₁).mp (by simpa using hs₁)
    obtain ⟨current, rfl⟩ := List.getLast?_eq_some_iff.mp (not_not.mp hlast)
    rw [List.dropLast_concat] at hs₂ h
    rcases hnew : env₁.newSequentialFile (vs.dbname ++ text "/" ++ current) with ⟨s₂, file, env₂⟩
    rw [hnew] at hs₂
    obtain rfl : s₂ = .ok := (Status.isOk_iff s₂).mp (by simpa using hs₂)
    exact absurd ⟨env₁, hread, hnew⟩ (hnot current file env₂)

/-- What the end of `recover` does: nothing after an error, and otherwise it installs a version and
perhaps opens the manifest again. -/
theorem finishRecover_cases {st : RecoverState} {prevLogNumber : U64} {dscname current : Bytes}
    (h : vs.finishRecover st s prevLogNumber dscname current saveManifest uninit env
      = .ok (saveManifest', vs', env')) :
    (vs' = vs ∧ env' = env)
      ∨ ∃ vl₁ vl₂ vs₁ reused, finalize vs.list.newVersion.2 vs.list.nextVersion = .ok vl₁
        ∧ vl₁.appendVersion vs.list.nextVersion = .ok vl₂
        ∧ vs₁ = { vs with
          list := vl₂, manifestFileNumber := st.nextFile, nextFileNumber := st.nextFile + 1,
          lastSequence := st.lastSequence, logNumber := st.logNumber, prevLogNumber := prevLogNumber }
        ∧ vs₁.reuseManifest dscname current uninit env = .ok (reused, vs', env') := by
  unfold finishRecover at h
  split_ifs at h
  · unfold installRecovered at h
    obtain ⟨vl₁, hfinalize, h⟩ := bind_eq_ok.mp h
    obtain ⟨vl₂, happend, h⟩ := bind_eq_ok.mp h
    obtain ⟨⟨reused, vs₁, env₁⟩, hreuse, h⟩ := bind_eq_ok.mp h
    cases h
    exact .inr ⟨vl₁, vl₂, _, reused, hfinalize, happend, rfl, hreuse⟩
  · cases h
    exact .inl ⟨rfl, rfl⟩

/-- A manifest that is opened again is written to behind its records. -/
theorem Bare.reuseManifest (failed : Prop) (applied : List VersionEdit) (h : Bare dbname name vs) {current data : Bytes}
    (hcurrent : env.current dbname = some (current ++ [10#8]))
    (hdata : env.content (dbname ++ text "/" ++ current) = some data) {reused : Bool}
    (hrun : vs.reuseManifest (dbname ++ text "/" ++ current) current uninit env
      = .ok (reused, vs', env')) :
    Bare dbname name vs' ∧ vs'.list = vs.list
      ∧ (Stored failed dbname name env vs.descriptorLog applied →
        (vs.options.reuseLogs = true → Untorn dbname env) →
        Stored failed dbname name env' vs'.descriptorLog applied) := by
  set m := dbname ++ text "/" ++ current with hm
  have hsize : ∀ g, (env.getFileSize m).2.2.content g = env.content g := fun g =>
    (Env.others_getFileSize m env).content List.not_mem_nil
  rcases reuseManifest_cases hrun with ⟨-, rfl, -, henv⟩ | ⟨n, -, -, hreuse, rfl, rfl⟩
  · refine ⟨h, rfl, fun hstored _ => hstored.congr fun g => ?_⟩
    rcases henv with rfl | rfl
    · rfl
    · exact hsize g
  · have hsame : ∀ g, ((env.getFileSize m).2.2.newAppendableFile m).2.content g = env.content g :=
      fun g => (content_newAppendableFile ((hsize m).trans hdata) g).trans (hsize g)
    refine ⟨⟨h.dbname_eq, h.comparator, h.compactPointer, h.list, rfl, fun log hlog => ?_⟩, rfl,
      fun hstored huntorn => ?_⟩
    · cases hlog
      exact ⟨(Nat.mod_lt _ (by decide)).le, uninit, rfl⟩
    · cases hstored with
      | nothing _ _ habsent => cases hcurrent.symm.trans habsent
      | manifest number records tail read hdisk hdecode hreflects htail _ =>
          obtain rfl := hdisk.tail_eq_nil (huntorn hreuse)
          obtain rfl : current = descriptorBaseName number := List.append_cancel_right
            (Option.some.inj (hcurrent.symm.trans hdisk.current))
          refine .manifest number records [] read (hdisk.congr hsame) hdecode hreflects htail
            fun w hw => ⟨rfl, ?_⟩
          cases hw
          refine ⟨rfl, ?_⟩
          -- the offset is the length of the manifest, up to whole blocks
          have hfits := Log.fits_fulls.mpr hdisk.fits
          have hplace := Log.samePlace_mod (Log.endOffset_le (Nat.zero_le _) hfits)
          rw [Log.endOffset_mod (Nat.zero_le _) hfits, Nat.zero_add] at hplace
          have hlength : (env.getFileSize m).2.1 = (layout 0 (fulls records)).length := by
            rw [content_getFileSize hdisk.content, List.append_nil]
          rw [hlength]
          exact ⟨hplace.1.symm, hplace.2.symm⟩

/-- **`recover`** leaves what is stored, also when it fails. -/
theorem Bare.recover (failed : Prop) (applied : List VersionEdit) (h : Bare dbname name vs)
    (hrun : vs.recover saveManifest uninit env = .ok (s, saveManifest', vs', env')) :
    Bare dbname name vs' ∧ (Stored failed dbname name env vs.descriptorLog applied →
      (vs.options.reuseLogs = true → Untorn dbname env) →
      Stored failed dbname name env' vs'.descriptorLog applied) := by
  rcases recover_cases hrun with ⟨-, -, rfl, hnot⟩ | ⟨current, env₂, edits, st, hfin⟩
  · refine ⟨h, fun hstored _ => hstored.congr fun g => ?_⟩
    exact (recover_others hrun hnot).content List.not_mem_nil
  obtain rfl := h.dbname_eq
  obtain ⟨file, hopen, -⟩ := hfin.reads
  obtain ⟨hcurrent, hothers⟩ := hopen.current_eq
  have hsame : ∀ g, env₂.content g = env.content g := fun g => hothers.content List.not_mem_nil
  obtain ⟨l, hl⟩ := h.list
  obtain ⟨b, list, vs₁, list', hbuilder, hbase, hfinish, hdelete, rfl⟩ := hfin.rest
  obtain ⟨hl₁, hlast, hrefs⟩ := hl.newBuilder hbuilder
  have hmarked : ∀ vs : VersionSet, ∃ n, marked vs st = { vs with nextFileNumber := n } := by
    intro vs
    rw [marked]
    simp only [markFileNumberUsed_eq]
    exact ⟨_, rfl⟩
  obtain ⟨n, hmarked⟩ := hmarked { vs with list := list }
  rw [hmarked] at hfinish
  rw [deleteBuilder, hbase] at hdelete
  rcases finishRecover_cases hfinish with ⟨rfl, rfl⟩ | ⟨vl₁, vl₂, vs₂, reused, hfinalize, happend, hvs₂, hreuse⟩
  · have hl' := hl₁.unRef (List.mem_of_getLast? hlast) (fun _ => by omega) hdelete
    exact ⟨⟨rfl, h.comparator, h.compactPointer, hl', h.file, h.log⟩,
      fun hstored _ => hstored.congr hsame⟩
  · obtain ⟨l', hl', hmem, hnotLast⟩ := hl₁.recovered hlast hrefs hfinalize happend
    have hbare₂ : Bare vs.dbname name vs₂ := by
      rw [hvs₂]
      exact ⟨rfl, h.comparator, h.compactPointer, ⟨l', hl'⟩, h.file, h.log⟩
    obtain ⟨data, hdata⟩ : ∃ data, env₂.content (vs.dbname ++ text "/" ++ current) = some data := by
      obtain ⟨env₁, -, hnew⟩ := hopen
      obtain ⟨hfiles, f, hf, -⟩ := Env.newSequentialFile_ok hnew
      exact ⟨f.data, by rw [Env.content, hfiles, hf, Option.map_some]⟩
    obtain ⟨hbare₁, hlist₁, hstored₁⟩ := hbare₂.reuseManifest failed applied
      ((hsame _).trans hcurrent) hdata hreuse
    have hlist₂ : vs₁.list = vl₂ := by rw [hlist₁, hvs₂]
    rw [hlist₂] at hdelete
    have hl'' := hl'.unRef hmem (fun he => absurd he hnotLast) hdelete
    refine ⟨⟨hbare₁.dbname_eq, hbare₁.comparator, hbare₁.compactPointer, hl'', hbare₁.file,
      hbare₁.log⟩, fun hstored huntorn => hstored₁ ?_ fun hreuse c hc => ?_⟩
    · rw [hvs₂]
      exact hstored.congr hsame
    · obtain ⟨records, hfit, hcontent⟩ := huntorn (by rw [hvs₂] at hreuse; exact hreuse) c
        ((hsame _).symm.trans hc)
      exact ⟨records, hfit, (hsame _).trans hcontent⟩

end VersionSet

/-! ## `NewDB` -/

namespace DbImpl

variable {failed : Prop} {db : DbImpl} {uninit : U32} {env env' : Env} {s : Status}

/-- After the record of a new manifest, `sync` and `close` change no bytes. -/
theorem content_syncClose (m g : Bytes) (r : Status × Env) :
    (Env.andThen (Env.andThen r (Env.sync m)) (Env.close m)).2.content g = r.2.content g := by
  have hsync : (Env.andThen r (Env.sync m)).2.content g = r.2.content g := by
    unfold Env.andThen
    split_ifs
    · exact Env.content_sync m g r.2
    · rfl
  rw [← hsync, Env.andThen]
  split_ifs
  · exact (Env.others_close m _).content List.not_mem_nil
  · rfl

theorem ok_of_andThen {r : Status × Env} {next : Env → Status × Env}
    (h : (Env.andThen r next).1 = .ok) : r.1 = .ok := by
  by_contra hne
  rw [Env.andThen, if_neg (mt (Status.isOk_iff _).mp hne)] at h
  exact hne h

/-- **`NewDB`** either makes a manifest with the first edit, or leaves `CURRENT` absent. -/
theorem stored_of_newDb (habsent : env.content (currentFileName db.dbname) = none)
    (hfit : ∀ record, (newDbEdit db.userComparator.name).encodeTo = .ok record → AllFit 0 [record])
    (hrun : db.newDb uninit env = .ok (s, env')) :
    Stored failed db.dbname db.userComparator.name env' none
      (if s.isOk then [newDbEdit db.userComparator.name] else []) := by
  unfold newDb at hrun
  obtain ⟨m, hm, hrun⟩ := bind_eq_ok.mp hrun
  obtain ⟨_, -, hm⟩ := bind_eq_ok.mp hm
  cases hm
  set m := db.dbname ++ text "/" ++ descriptorBaseName 1 with hm
  have hne : currentFileName db.dbname ∉ [m] := fun hmem =>
    descriptorFile_ne_current db.dbname 1 (List.mem_singleton.mp hmem).symm
  have hnothing : ∀ {s : Status} {env' : Env}, s ≠ .ok →
      env'.content (currentFileName db.dbname) = none →
      Stored failed db.dbname db.userComparator.name env' none
        (if s.isOk then [newDbEdit db.userComparator.name] else []) := by
    intro s env' hs habsent
    rw [if_neg (mt (Status.isOk_iff s).mp hs)]
    exact .nothing rfl rfl habsent
  have hnew := (Env.others_newWritableFile m env).content hne
  simp only at hrun
  split_ifs at hrun with hok
  · cases hrun
    exact hnothing (mt (Status.isOk_iff _).mpr (by simpa using hok)) (hnew.trans habsent)
  obtain ⟨record, hrecord, hrun⟩ := bind_eq_ok.mp hrun
  have hfit := hfit record hrecord
  obtain ⟨⟨s₁, env₁⟩, hadd, hr, hcontent⟩ := newWritableFile_record m uninit
    (VersionEdit.encodeTo_ne_nil hrecord (.inl rfl)) hfit.1 ((Status.isOk_iff _).mp (by simpa using hok))
  have hadded := ((Log.Writer.addRecord_others rfl hadd).1.content hne).trans hnew
  rw [hadd, ok_bind] at hrun
  simp only at hrun
  have hsame := content_syncClose m (r := (s₁, env₁))
  set r := Env.andThen (Env.andThen (s₁, env₁) (Env.sync m)) (Env.close m) with hrdef
  split_ifs at hrun with hs
  · have hs₁ : s₁ = .ok := ok_of_andThen (ok_of_andThen ((Status.isOk_iff r.1).mp hs))
    by_cases hswitched : s = .ok
    · subst hswitched
      obtain ⟨hcurrent, hmanifests⟩ := setCurrentFile_content hrun
      have hfits : Log.Fits 0 (fulls [record]) := Log.fits_fulls.mpr hfit
      have hlength : db.userComparator.name.length < 2 ^ 32 := by
        have hle : db.userComparator.name.length ≤ record.length :=
          VersionEdit.comparator_length_le hrecord rfl
        have hle' : Log.start 0 + Log.kHeaderSize + record.length ≤ Log.kBlockSize := hfit.1
        have : Log.kBlockSize = 32768 := rfl
        omega
      have hwf : (newDbEdit db.userComparator.name).WellFormed := by
        have hbuilt : newDbEdit db.userComparator.name = VersionEdit.built
            [.setComparatorName db.userComparator.name, .setLogNumber 0, .setNextFile 2,
              .setLastSequence 0] := rfl
        rw [hbuilt]
        refine VersionEdit.wellFormed_built fun u hu => ?_
        simp only [List.mem_cons, List.not_mem_nil, or_false] at hu
        rcases hu with rfl | rfl | rfl | rfl
        · exact hlength
        all_goals trivial
      refine .manifest 1 [record] [] [newDbEdit db.userComparator.name] ⟨hcurrent, ?_, hfit,
        Log.torn_nil (Log.endOffset_le (Nat.zero_le _) hfits)⟩
        (.cons (hwf.decodeFrom_record rfl hrecord) .nil) (VersionSet.reflects_newDbEdit _)
        (fun hne => absurd rfl hne) nofun
      rw [hmanifests, ← hm, hsame, hcontent hs₁, List.append_nil]
      rfl
    · refine hnothing hswitched ?_
      rw [← Steps.outcome_setCurrentFile] at hrun
      have hothers := ((Steps.keeps_setCurrentFile _ _ _).of_outcome hrun).1 hswitched
      rw [hothers.content fun hmem => tempFile_ne_current db.dbname 1 (List.mem_singleton.mp hmem).symm,
        hsame, hadded, habsent]
  · cases hrun
    refine hnothing (mt (Status.isOk_iff r.1).mpr hs) ?_
    rw [(Env.others_removeFile m r.2).content hne, hsame, hadded, habsent]

end DbImpl

end SimpleLeveldb
