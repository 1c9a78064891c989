import SimpleLeveldb.Disk
import SimpleLeveldb.FileGrammar
import SimpleLeveldb.Outcomes
import SimpleLeveldb.Posix.SequentialFile

set_option autoImplicit false

/-! # The handshake over `CURRENT` (`filename.cc`, `env.cc`, `version_set.cc`)

`set_current_file` writes what `recover` reads: the name of a manifest without its directory, and a
newline. When one of its operations fails, `CURRENT` is as it was, and the temporary file is removed.
-/

namespace SimpleLeveldb

open Prog (Keeps Traces)

namespace Env

/-! ## Files that are not made -/

/-- The file is there only if it was there before. -/
def NotMade (fname : Bytes) (env env' : Env) : Prop := fname ∈ env'.files → fname ∈ env.files

variable {fname : Bytes}

theorem act_notMade {f : Env → Status × Env} (h : ∀ env, NotMade fname env (f env).2) (env : Env) :
    NotMade fname env (env.act f).2 := by
  rcases act_cases env f with ⟨-, hfiles⟩ | ⟨script, hact⟩
  · intro hmem
    rwa [hfiles] at hmem
  · rw [hact]
    exact h { env with script := script }

theorem modify_notMade (g : Bytes) (f : File → File) (env : Env) :
    NotMade fname env (env.modify g f) := by
  intro hmem
  unfold modify at hmem
  cases hg : env.files.lookup g with
  | none => rwa [hg] at hmem
  | some file =>
      rw [hg, AList.mem_insert] at hmem
      rcases hmem with rfl | hmem
      · exact mem_of_lookup hg
      · exact hmem

theorem append_notMade (g data : Bytes) (env : Env) : NotMade fname env (env.append g data).2 :=
  act_notMade (modify_notMade _ _) env

theorem sync_notMade (g : Bytes) (env : Env) : NotMade fname env (env.sync g).2 :=
  act_notMade (modify_notMade _ _) env

theorem close_notMade (g : Bytes) (env : Env) : NotMade fname env (env.close g).2 :=
  act_notMade (fun _ hmem => hmem) env

theorem removeFile_notMade (g : Bytes) (env : Env) : NotMade fname env (env.removeFile g).2 :=
  act_notMade (fun _ hmem => (AList.mem_erase.mp hmem).2) env

theorem renameFile_notMade (src : Bytes) {target : Bytes} (h : fname ≠ target) (env : Env) :
    NotMade fname env (env.renameFile src target).2 := by
  refine act_notMade (fun env hmem => ?_) env
  cases hsrc : env.files.lookup src with
  | none => rwa [hsrc] at hmem
  | some file =>
      rw [hsrc, AList.mem_insert] at hmem
      exact (AList.mem_erase.mp (hmem.resolve_left h)).2

/-- A file that has been removed is not there. -/
theorem not_mem_of_removeFile {env env' : Env} (h : env.removeFile fname = (.ok, env')) :
    fname ∉ env'.files := by
  rcases act_cases env fun env => (if fname ∈ env.files then .ok else .notFound fname,
      { env with files := env.files.erase fname }) with ⟨hne, -⟩ | ⟨script, hact⟩
  · exact absurd (congrArg Prod.fst h) hne
  · rw [removeFile, hact] at h
    rw [← (Prod.mk.inj h).2]
    exact fun hmem => (AList.mem_erase.mp hmem).1 rfl

/-- Once it is gone, such operations do not bring it back. -/
theorem not_mem_last {e e' : Env} {l : List Env} (hchain : List.IsChain (NotMade fname) (e :: l))
    (hmem : e' ∈ e :: l) (hgone : fname ∉ e'.files) : fname ∉ (l.getLastD e).files := by
  induction l generalizing e e' with
  | nil =>
      cases List.mem_singleton.mp hmem
      exact hgone
  | cons t l ih =>
      obtain ⟨hstep, hrest⟩ := List.isChain_cons_cons.mp hchain
      rw [List.getLastD_cons]
      rcases List.mem_cons.mp hmem with rfl | hmem
      · exact ih hrest List.mem_cons_self fun ht => hgone (hstep ht)
      · exact ih hrest hmem hgone

end Env

namespace Steps

open Prog (op)
open Env (NotMade)

/-! ## The operations of `set_current_file` -/

variable {tmp : Bytes}

/-- Only the first operation makes the file. -/
theorem traces_writeStringToFileSync (data tmp : Bytes) (env : Env) :
    Traces (writeStringToFileSync data tmp) env fun _ l =>
      ∃ t l', l = t :: l' ∧ List.IsChain (NotMade tmp) (t :: l') := by
  rw [writeStringToFileSync]
  refine Traces.bind (T := fun s l => l = [(env.newWritableFile tmp).2]) (fun _ _ => rfl) ?_
  rintro s _ rfl
  -- no operation behind the first makes a file
  have hrest : ∀ e : Env, Keeps (NotMade tmp) (if s.isOk then do
        let s ← op (Env.append tmp data)
        let s ← onOk s (op (Env.sync tmp))
        let s ← onOk s (op (Env.close tmp))
        orRemove s tmp
      else return s) e fun _ _ => True := by
    intro e
    split_ifs
    · refine Keeps.op_bind (Env.append_notMade _ _ _) ?_
      have hsync : ∀ (s : Status) (e : Env), Keeps (NotMade tmp) (onOk s (op (Env.sync tmp))) e
          fun _ _ => True := fun s e =>
        keeps_onOk (fun _ => Keeps.op (Env.sync_notMade _ _) trivial) fun _ => trivial
      have hclose : ∀ (s : Status) (e : Env), Keeps (NotMade tmp) (onOk s (op (Env.close tmp))) e
          fun _ _ => True := fun s e =>
        keeps_onOk (fun _ => Keeps.op (Env.close_notMade _ _) trivial) fun _ => trivial
      refine (hsync _ _).bind fun s t _ => (hclose _ _).bind fun s t _ => ?_
      exact (keeps_orRemove fun _ => Env.removeFile_notMade _ _).mono (fun _ _ h => h)
        fun _ _ _ => trivial
    · exact Keeps.ret trivial
  exact (hrest _).traces.mono fun _ l' h => ⟨_, l', rfl, h.1⟩

theorem traces_orRemove (s : Status) (env : Env) :
    Traces (orRemove s tmp) env fun s' l => List.IsChain (NotMade tmp) (env :: l)
      ∧ (s' ≠ .ok → l = [(env.removeFile tmp).2]) := by
  intro s' hs'
  unfold orRemove at hs' ⊢
  split_ifs at hs' ⊢ with hok
  · cases hs'
    exact ⟨List.isChain_singleton _, fun hne => absurd ((Status.isOk_iff _).mp hok) hne⟩
  · exact ⟨List.isChain_pair.mpr (Env.removeFile_notMade _ _), fun _ => rfl⟩

theorem exists_eq_append_getLastD {α : Type} (a : α) (l : List α) :
    ∃ l', a :: l = l' ++ [l.getLastD a] := by
  cases l using List.reverseRecOn with
  | nil => exact ⟨[], rfl⟩
  | append_singleton l b =>
      rw [List.getLastD_concat]
      exact ⟨a :: l, rfl⟩

/-- Only the first operation makes the temporary file, and after an error the last one removes it. -/
theorem traces_setCurrentFile (dbname : Bytes) (number : U64) (env : Env) :
    Traces (setCurrentFile dbname number) env fun s l =>
      (∃ t l', l = t :: l' ∧ List.IsChain (NotMade (makeFileName dbname number "dbtmp")) (t :: l'))
        ∧ (s ≠ .ok → ∃ l' e,
          env :: l = l' ++ [e, (e.removeFile (makeFileName dbname number "dbtmp")).2]) := by
  rw [setCurrentFile]
  refine Traces.lift_bind fun manifest _ => Traces.lift_bind fun _ _ =>
    Traces.lift_bind fun tmp htmp => ?_
  obtain ⟨_, -, htmp⟩ := bind_eq_ok.mp htmp
  cases htmp
  set tmp := makeFileName dbname number "dbtmp"
  refine (traces_writeStringToFileSync _ tmp env).bind ?_
  rintro s _ ⟨t, l₁, rfl, hchain₁⟩
  rw [List.getLastD_cons]
  set e₁ := l₁.getLastD t
  have hrename : Keeps (NotMade tmp) (onOk s (op (Env.renameFile tmp (currentFileName dbname)))) e₁
      fun _ _ => True :=
    keeps_onOk (fun _ => Keeps.op (Env.renameFile_notMade _ (tempFile_ne_current _ _) _) trivial)
      fun _ => trivial
  refine hrename.traces.bind fun s l₂ hrenamed => (traces_orRemove s _).mono ?_
  rintro s' l₃ ⟨hchain₃, hremoved⟩
  have hchain₂ := hrenamed.1
  refine ⟨⟨t, l₁ ++ (l₂ ++ l₃), rfl, Prog.isChain_join hchain₁ (Prog.isChain_join hchain₂ hchain₃)⟩,
    fun hne => ?_⟩
  -- the states up to the removal end with the one that it starts from
  obtain ⟨l', hl'⟩ := exists_eq_append_getLastD e₁ l₂
  obtain ⟨l'', hl''⟩ := exists_eq_append_getLastD env (t :: l₁)
  refine ⟨l'' ++ l', l₂.getLastD e₁, ?_⟩
  rw [List.getLastD_cons] at hl''
  calc env :: t :: l₁ ++ (l₂ ++ l₃)
      = l'' ++ (e₁ :: l₂) ++ l₃ := by
        rw [hl'']
        simp only [List.append_assoc, List.cons_append, List.nil_append, e₁]
    _ = l'' ++ l' ++ [l₂.getLastD e₁, ((l₂.getLastD e₁).removeFile tmp).2] := by
        rw [hl', hremoved hne]
        simp only [List.append_assoc, List.singleton_append]

end Steps

/-! ## The handshake -/

/-- **What `set_current_file` leaves behind.** After OK, `CURRENT` reads as the name of the manifest
and a newline, in whatever pieces it is read. After an error `CURRENT` is as it was; the last operation
removes the temporary file, and when this or an earlier removal succeeds, the file is gone. -/
theorem setCurrentFile_handshake (dbname : Bytes) {number : U64} (hnumber : 0 < number) (env : Env) :
    ∃ s env', setCurrentFile dbname number env = .ok (s, env')
      ∧ (s = .ok → ∃ f name, env'.files.lookup (currentFileName dbname) = some f
        ∧ f.data = name ++ text "\n"
        ∧ descriptorFileName dbname number = .ok (dbname ++ text "/" ++ name)
        ∧ parseFileName name = some (number, .kDescriptorFile)
        ∧ (∀ answers, ∃ s' data,
          PosixSequentialFile.readToString ⟨currentFileName dbname, f.data, answers⟩ = .ok (s', data)
            ∧ (s' = .ok → data = name ++ text "\n")
            ∧ ((∀ a ∈ answers, a.sound) → s' = .ok))
        ∧ ∀ (env₁ env₂ : Env) (data : Bytes), env₁.files = env'.files →
          env₁.readFileToString (currentFileName dbname) = .ok (.ok, data, env₂) →
          data = name ++ text "\n")
      ∧ (s ≠ .ok →
        env'.files.lookup (currentFileName dbname) = env.files.lookup (currentFileName dbname)
        ∧ (∃ l e, env :: (Steps.setCurrentFile dbname number env).2 = l ++ [e, env']
          ∧ env' = (e.removeFile (makeFileName dbname number "dbtmp")).2)
        ∧ ∀ e e', [e, e'] <:+: env :: (Steps.setCurrentFile dbname number env).2 →
          e.removeFile (makeFileName dbname number "dbtmp") = (.ok, e') →
          makeFileName dbname number "dbtmp" ∉ env'.files) := by
  obtain ⟨⟨s, env'⟩, hrun, -⟩ := setCurrentFile_performs dbname hnumber env
  have hout := hrun
  rw [← Steps.outcome_setCurrentFile] at hout
  obtain ⟨herror, hswitched⟩ := (Steps.keeps_setCurrentFile dbname number env).of_outcome hout
  obtain ⟨⟨⟨t, l, hstates, hchain⟩, hlast⟩, henv'⟩ :=
    (Steps.traces_setCurrentFile dbname number env).of_outcome hout
  refine ⟨s, env', hrun, fun hok => ?_, fun hne => ⟨?_, ?_, ?_⟩⟩
  · obtain ⟨f, hf, hdata⟩ := hswitched hok
    refine ⟨f, descriptorBaseName number, hf, hdata, ?_, parseFileName_descriptorBaseName number,
      fun answers => ?_, fun env₁ env₂ data hfiles hread => ?_⟩
    · rw [descriptorFileName, require_of hnumber]
      rfl
    · obtain ⟨s', data, hread, hall, hsound⟩ :=
        PosixSequentialFile.readToString_spec ⟨currentFileName dbname, f.data, answers⟩
      exact ⟨s', data, hread, fun hs' => (hall hs').trans hdata, hsound⟩
    · obtain ⟨-, f₁, hf₁, rfl⟩ := Env.readFileToString_ok hread
      rw [hfiles, hf] at hf₁
      cases hf₁
      exact hdata
  · exact herror hne _ fun hmem => tempFile_ne_current dbname number (List.mem_singleton.mp hmem).symm
  · obtain ⟨l', e, hl'⟩ := hlast hne
    have hend : env' = (e.removeFile (makeFileName dbname number "dbtmp")).2 := by
      rw [henv', ← List.getLastD_cons (a := env), hl', List.append_cons]
      exact List.getLastD_concat
    exact ⟨l', e, by rw [hend]; exact hl', hend⟩
  · intro e e' hpair hremoved
    rw [henv', hstates, List.getLastD_cons]
    refine Env.not_mem_last hchain ?_ (Env.not_mem_of_removeFile hremoved)
    rw [hstates, List.infix_cons_iff] at hpair
    rcases hpair with hfirst | hlater
    · exact (List.cons_prefix_cons.mp hfirst).2.subset List.mem_cons_self
    · exact hlater.subset (List.mem_cons_of_mem _ List.mem_cons_self)

/-- A directory in which `CURRENT` names the manifest 5, with the outcomes of the operations to come. -/
def currentFive (script : List Status) : Env where
  files := AList.insert (text "db/CURRENT") { data := text "MANIFEST-000005\n" } ∅
  script := script

/-- The fifth operation fails, which is the renaming. -/
def renamingFails : List Status := [.ok, .ok, .ok, .ok, .ioError (text "rename")]

/-- What can be evaluated of the states of a call whose renaming fails. -/
theorem renamingFails_evaluated :
    (setCurrentFile (text "db") 7 (currentFive renamingFails)).toOption.map (fun r => r.1.isOk)
        = some false
      ∧ (currentFive renamingFails
          :: (Steps.setCurrentFile (text "db") 7 (currentFive renamingFails)).2).dropLast.getLast?.map
            (fun e => (e.removeFile (makeFileName (text "db") 7 "dbtmp")).1.isOk) = some true := by
  decide +kernel

/-- The manifest 7 takes the place of the manifest 5, or the renaming fails. -/
theorem setCurrentFile_handshake_seven :
    (∃ env' f, setCurrentFile (text "db") 7 (currentFive []) = .ok (.ok, env')
      ∧ env'.files.lookup (text "db/CURRENT") = some f ∧ f.data = text "MANIFEST-000007\n")
    ∧ ∃ s env', setCurrentFile (text "db") 7 (currentFive renamingFails) = .ok (s, env') ∧ s ≠ .ok
      ∧ env'.files.lookup (text "db/CURRENT") = some { data := text "MANIFEST-000005\n" }
      ∧ makeFileName (text "db") 7 "dbtmp" ∉ env'.files := by
  have hseven : 0 < (7 : U64) := by decide
  constructor
  · obtain ⟨s, env', hrun, hok, -⟩ := setCurrentFile_handshake (text "db") hseven (currentFive [])
    have hs : (setCurrentFile (text "db") 7 (currentFive [])).map Prod.fst = .ok .ok := rfl
    rw [hrun] at hs
    cases hs
    obtain ⟨f, name, hf, hdata, hname, -⟩ := hok rfl
    have hname' : descriptorFileName (text "db") 7
        = .ok (text "db" ++ text "/" ++ text "MANIFEST-000007") := rfl
    rw [hname', Except.ok.injEq, inDirectory_inj] at hname
    exact ⟨env', f, hrun, hf, by rw [hdata, ← hname]; rfl⟩
  · obtain ⟨s, env', hrun, -, herror⟩ :=
      setCurrentFile_handshake (text "db") hseven (currentFive renamingFails)
    obtain ⟨hstatus, hremoves⟩ := renamingFails_evaluated
    rw [hrun] at hstatus
    have hne : s ≠ .ok := by
      rintro rfl
      cases hstatus
    obtain ⟨hcurrent, ⟨l, e, hl, henv'⟩, hgone⟩ := herror hne
    rw [hl, List.append_cons, List.dropLast_concat, List.getLast?_concat] at hremoves
    have hremoved : (e.removeFile (makeFileName (text "db") 7 "dbtmp")).1 = .ok :=
      (Status.isOk_iff _).mp (Option.some.inj hremoves)
    have hlast : [e, env'] <:+: l ++ [e, env'] := (List.suffix_append l [e, env']).isInfix
    rw [← hl] at hlast
    refine ⟨s, env', hrun, hne, hcurrent, hgone e env' hlast ?_⟩
    rw [henv']
    exact Prod.ext hremoved rfl

end SimpleLeveldb
