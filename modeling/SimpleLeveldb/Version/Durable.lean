import SimpleLeveldb.Version.JournalRuns
import SimpleLeveldb.Log.TornTail

set_option autoImplicit false

/-! # What a crash leaves of a manifest

A crash keeps of every file at least the synced bytes, and perhaps more of them (`Env.Survives`).
`Durable` says that whatever it keeps of the manifest that `CURRENT` names ends in an edit behind
which no call has been acknowledged. It outlives a crash (`Durable.survives`), and it is what the
operations of the calls keep.
-/

namespace SimpleLeveldb

open Log (AllFit fulls layout endOffset)
open Log.Reader (Torn)
open VersionSet (Decode EndsWith)

/-! ## A manifest that is cut off -/

theorem Log.Reader.Torn.of_shorter {o : Nat} {data data' : Bytes} (h : Torn o data)
    (hshorter : data' <+: data) : Torn o data' := by
  obtain ⟨f, n, hfit, hn, rfl⟩ := h
  refine ⟨f, min data'.length n, hfit, by omega, ?_⟩
  rw [← List.take_take]
  exact List.prefix_iff_eq_take.mp hshorter

/-- The beginning of a physical record that is not all of it. -/
theorem Log.Reader.torn_of_prefix {o : Nat} {f : Log.Fragment} (hfit : Log.next o f ≤ Log.kBlockSize)
    {done : Bytes} (hdone : done <+: layout o [f]) (hne : done ≠ layout o [f]) : Torn o done := by
  have hlt : done.length < (layout o [f]).length :=
    lt_of_le_of_ne hdone.length_le fun he => hne (hdone.eq_of_length he)
  rw [Log.layout, Log.layout, List.append_nil] at hlt hdone
  refine ⟨f, done.length, hfit, ?_, List.prefix_iff_eq_take.mp hdone⟩
  rwa [List.length_append, zeros_length] at hlt

theorem Log.allFit_take {records : List Bytes} (h : AllFit 0 records) (k : Nat) :
    AllFit 0 (records.take k) := by
  rw [← Log.fits_fulls, ← List.take_append_drop k records, fulls, List.map_append,
    Log.fits_append] at h
  exact Log.fits_fulls.mp h.1

theorem Log.length_layout_take_le (records : List Bytes) (k : Nat) :
    (layout 0 (fulls (records.take k))).length ≤ (layout 0 (fulls records)).length := by
  refine Log.length_layout_mono ?_
  rw [fulls, fulls, List.map_take]
  exact List.take_prefix _ _

/-- **Whole records that are cut off** behind the first `k` of them are at least `k` whole records and
a torn one. -/
theorem Log.cut_fulls {records : List Bytes} {tail data : Bytes} (hfit : AllFit 0 records)
    (htorn : Torn (endOffset 0 (fulls records)) tail) {k : Nat} (hk : k ≤ records.length)
    (hle : (layout 0 (fulls (records.take k))).length ≤ data.length)
    (hdata : data <+: layout 0 (fulls records) ++ tail) :
    ∃ j tail', k ≤ j ∧ j ≤ records.length ∧ data = layout 0 (fulls (records.take j)) ++ tail'
      ∧ Torn (endOffset 0 (fulls (records.take j))) tail' := by
  rcases Nat.lt_or_ge data.length (layout 0 (fulls records)).length with hlt | hge
  · have hcut : data = (layout 0 (fulls records) ++ zeros 0).take data.length := by
      rw [show zeros 0 = [] from rfl, List.append_nil]
      rw [List.prefix_iff_eq_take, List.take_append_of_le_length hlt.le] at hdata
      exact hdata
    obtain ⟨gs, hs, tail', hfulls, htake, htorn', -, hnext⟩ := cut_layout (fulls records) data.length
      (Nat.zero_le _) (fits_fulls.mpr hfit) (Nat.zero_le _)
    have hsplit : ∀ n, fulls (records.take n) = (gs ++ hs).take n := fun n => by
      rw [← hfulls, fulls, fulls, List.map_take]
    have hgs : fulls (records.take gs.length) = gs := by rw [hsplit, List.take_left]
    refine ⟨gs.length, tail', ?_, ?_, ?_, ?_⟩
    · by_contra hj
      -- the next record is among the first `k`, and it is not complete
      have hlen : records.length = gs.length + hs.length := by
        rw [← List.length_append, ← hfulls, fulls, List.length_map]
      cases hs with
      | nil =>
          rw [List.length_nil] at hlen
          omega
      | cons f hs' =>
          have hshort := hnext f hs' rfl
          have hshorter : gs ++ [f] <+: fulls (records.take k) := by
            rw [hsplit, List.take_append, List.take_of_length_le (by omega)]
            obtain ⟨n, hn⟩ : ∃ n, k - gs.length = n + 1 := ⟨k - gs.length - 1, by omega⟩
            rw [hn, List.take_succ_cons]
            exact List.prefix_append_right_inj gs |>.mpr ⟨hs'.take n, rfl⟩
          have := length_layout_mono (o := 0) hshorter
          omega
    · have := congrArg List.length hfulls
      rw [fulls, List.length_map, List.length_append] at this
      omega
    · rw [hgs, ← htake]
      exact hcut
    · rwa [hgs]
  · obtain ⟨tail', rfl⟩ : layout 0 (fulls records) <+: data :=
      List.prefix_of_prefix_length_le (List.prefix_append _ _) hdata hge
    refine ⟨records.length, tail', hk, le_rfl, by rw [List.take_length], ?_⟩
    rw [List.take_length]
    exact htorn.of_shorter (List.prefix_append_right_inj _ |>.mp hdata)

/-! ## What a crash leaves -/

/-- What may be left of the files behind a crash: every file is still there, with at least its synced
bytes, which are still synced, and with no bytes that it did not have. -/
def Env.Survives (env env' : Env) : Prop :=
  ∀ g, Option.Rel (fun f f' : File => f.kept <+: f'.kept ∧ f'.data <+: f.data)
    (env.files.lookup g) (env'.files.lookup g)

theorem Env.Crash.survives {env env' : Env} (h : env.Crash env') : env.Survives env' := by
  intro g
  rw [h g]
  cases env.files.lookup g with
  | none => exact .none
  | some f => exact .some ⟨by rw [f.kept_crash], f.kept_prefix⟩

/-- One file loses what has not been synced. -/
theorem Env.survives_modify (env : Env) (fname : Bytes) :
    env.Survives (env.modify fname File.crash) := by
  intro g
  by_cases hg : g = fname
  · subst hg
    rw [Env.lookup_modify]
    cases env.files.lookup g with
    | none => exact .none
    | some f => exact .some ⟨by rw [f.kept_crash], f.kept_prefix⟩
  · rw [Env.lookup_modify_ne _ hg]
    cases env.files.lookup g with
    | none => exact .none
    | some f => exact .some ⟨List.prefix_refl _, List.prefix_refl _⟩

theorem Env.Survives.exists_lookup {env env' : Env} (h : env.Survives env') {g : Bytes} {f : File}
    (hf : env.files.lookup g = some f) :
    ∃ f', env'.files.lookup g = some f' ∧ f.kept <+: f'.kept ∧ f'.data <+: f.data := by
  have hg := h g
  rw [hf] at hg
  cases hf' : env'.files.lookup g with
  | none =>
      rw [hf'] at hg
      cases hg
  | some f' =>
      rw [hf'] at hg
      cases hg with
      | some hrel => exact ⟨f', rfl, hrel⟩

/-! ## Edits that may be the last one -/

/-- The calls that have begun are recorded with their edits, in this order, and with whether they have
returned OK. An edit may be the last one if no call that began later has. -/
def MayBeLast (entries : List (VersionEdit × Bool)) (e : VersionEdit) : Prop :=
  ∃ before b after, entries = before ++ (e, b) :: after ∧ ∀ p ∈ after, p.2 = false

theorem MayBeLast.append {entries doubts : List (VersionEdit × Bool)} {e : VersionEdit}
    (h : MayBeLast entries e) (hdoubts : ∀ p ∈ doubts, p.2 = false) :
    MayBeLast (entries ++ doubts) e := by
  obtain ⟨before, b, after, rfl, hafter⟩ := h
  refine ⟨before, b, after ++ doubts, ?_, List.forall_mem_append.mpr ⟨hafter, hdoubts⟩⟩
  rw [List.append_assoc, List.cons_append]

theorem MayBeLast.exists_mem {entries : List (VersionEdit × Bool)} {e : VersionEdit}
    (h : MayBeLast entries e) : ∃ p ∈ entries, p.1 = e := by
  obtain ⟨before, b, after, rfl, -⟩ := h
  exact ⟨(e, b), by simp, rfl⟩

theorem mayBeLast_concat (entries : List (VersionEdit × Bool)) (e : VersionEdit) (b : Bool) :
    MayBeLast (entries ++ [(e, b)]) e :=
  ⟨entries, b, [], rfl, List.forall_mem_nil _⟩

/-! ## Manifests that outlive a crash -/

/-- `CURRENT` is synced, and so are the first `n` bytes of the manifest `number`. -/
structure Secured (dbname : Bytes) (env : Env) (number : U64) (n : Nat) : Prop where
  current : ∀ c, env.files.lookup (currentFileName dbname) = some c → c.kept = c.data
  manifest : ∀ m, env.files.lookup (dbname ++ text "/" ++ descriptorBaseName number) = some m →
    n ≤ m.synced

/-- The manifest that `CURRENT` names, to which the process writes with `log`, holds the edits `read`.
Its first `k` records are synced, and wherever it may be cut off behind them, it ends in an edit that
may be the last one. Before the first call is acknowledged, there may be no manifest. -/
inductive Durable (dbname name : Bytes) (env : Env) (log : Option Log.Writer)
    (entries : List (VersionEdit × Bool)) : Prop
  | nothing : (∀ p ∈ entries, p.2 = false) → log = none →
      env.content (currentFileName dbname) = none → Durable dbname name env log entries
  | manifest (number : U64) (records : List Bytes) (tail : Bytes) (read : List VersionEdit) (k : Nat) :
      OnDisk dbname env number records tail → Decode records read →
      (∀ e ∈ read, e = ({} : VersionEdit).setComparatorName name
        ∨ ∃ p ∈ entries, e = p.1.written) →
      k ≤ records.length → Secured dbname env number (layout 0 (fulls (records.take k))).length →
      (∀ j, k ≤ j → j ≤ records.length →
        ∃ last, MayBeLast entries last ∧ EndsWith (read.take j) last) →
      (∀ w, log = some w → tail = [] ∧ w.Continues dbname number records) →
      Durable dbname name env log entries

namespace Durable

variable {dbname name : Bytes} {env env' : Env} {log : Option Log.Writer}
  {entries : List (VersionEdit × Bool)}

/-- What `CURRENT` contains. -/
theorem exists_number (h : Durable dbname name env log entries) {c : Bytes}
    (hc : env.current dbname = some c) : ∃ number, c = descriptorBaseName number ++ text "\n" := by
  cases h with
  | nothing _ _ habsent => cases hc.symm.trans habsent
  | manifest number _ _ _ _ hdisk _ _ _ _ _ _ =>
      exact ⟨number, Option.some.inj (hc.symm.trans hdisk.current)⟩

theorem kept_current (h : Durable dbname name env log entries) {c : File}
    (hc : env.files.lookup (currentFileName dbname) = some c) : c.kept = c.data := by
  cases h with
  | nothing _ _ habsent =>
      rw [Env.content, hc] at habsent
      cases habsent
  | manifest _ _ _ _ _ _ _ _ _ hsecured _ _ => exact hsecured.current c hc

/-- The process ends. -/
theorem closed (h : Durable dbname name env log entries) : Durable dbname name env none entries := by
  cases h with
  | nothing hentries _ habsent => exact .nothing hentries rfl habsent
  | manifest number records tail read k hdisk hdecode hmem hk hsecured hlast _ =>
      exact .manifest number records tail read k hdisk hdecode hmem hk hsecured hlast
        fun _ hlog => by cases hlog

/-- Calls begin that have not been acknowledged. -/
theorem doubt (h : Durable dbname name env log entries) {doubts : List (VersionEdit × Bool)}
    (hdoubts : ∀ p ∈ doubts, p.2 = false) : Durable dbname name env log (entries ++ doubts) := by
  cases h with
  | nothing hentries hlog habsent =>
      exact .nothing (List.forall_mem_append.mpr ⟨hentries, hdoubts⟩) hlog habsent
  | manifest number records tail read k hdisk hdecode hmem hk hsecured hlast hlog =>
      refine .manifest number records tail read k hdisk hdecode (fun e he => ?_) hk hsecured
        (fun j hj hj' => ?_) hlog
      · refine (hmem e he).imp id ?_
        rintro ⟨p, hp, heq⟩
        exact ⟨p, List.mem_append_left _ hp, heq⟩
      · obtain ⟨last, hlast, hends⟩ := hlast j hj hj'
        exact ⟨last, hlast.append hdoubts, hends⟩

/-- The operations to come have other outcomes. -/
theorem sameFiles (h : Durable dbname name env log entries) (hsame : env.SameFiles env') :
    Durable dbname name env' log entries := by
  have hcontent : ∀ g, env'.content g = env.content g := fun g => by
    have hg := congrArg (Option.map Prod.fst) (hsame g)
    simp only [Option.map_map] at hg
    exact hg
  have hfile : ∀ g f', env'.files.lookup g = some f' →
      ∃ f, env.files.lookup g = some f ∧ f'.data = f.data ∧ f'.synced = f.synced := by
    intro g f' hf'
    have hg := hsame g
    rw [hf', Option.map_some] at hg
    obtain ⟨f, hf, he⟩ := Option.map_eq_some_iff.mp hg.symm
    exact ⟨f, hf, (congrArg Prod.fst he).symm, (congrArg Prod.snd he).symm⟩
  cases h with
  | nothing hentries hlog habsent => exact .nothing hentries hlog ((hcontent _).trans habsent)
  | manifest number records tail read k hdisk hdecode hmem hk hsecured hlast hlog =>
      refine .manifest number records tail read k (hdisk.congr hcontent) hdecode hmem hk
        ⟨fun c hc => ?_, fun m hm => ?_⟩ hlast hlog
      · obtain ⟨c₀, hc₀, hdata, hsynced⟩ := hfile _ c hc
        have hkept := hsecured.current c₀ hc₀
        rw [File.kept] at hkept ⊢
        rw [hdata, hsynced, hkept]
      · obtain ⟨m₀, hm₀, -, hsynced⟩ := hfile _ m hm
        rw [hsynced]
        exact hsecured.manifest m₀ hm₀

/-- Files that are neither `CURRENT` nor the manifest that it names may change. -/
theorem others (h : Durable dbname name env log entries) {names : List Bytes}
    (hspared : Spared dbname names env) (ho : Env.Others names env env') :
    Durable dbname name env' log entries := by
  have hcurrent := ho.content hspared.current
  cases h with
  | nothing hentries hlog habsent => exact .nothing hentries hlog (hcurrent.trans habsent)
  | manifest number records tail read k hdisk hdecode hmem hk hsecured hlast hlog =>
      have hmanifest := hspared.manifest _ hdisk.current
      rw [manifestPath_eq] at hmanifest
      refine .manifest number records tail read k ⟨hcurrent.trans hdisk.current,
        (ho.content hmanifest).trans hdisk.content, hdisk.fits, hdisk.torn⟩ hdecode hmem hk
        ⟨fun c hc => hsecured.current c ?_, fun m hm => hsecured.manifest m ?_⟩ hlast hlog
      · rwa [ho _ hspared.current] at hc
      · rwa [ho _ hmanifest] at hm

/-- **A crash** leaves a manifest that ends in an edit that may be the last one. -/
theorem survives (h : Durable dbname name env log entries) (hs : env.Survives env') :
    Durable dbname name env' none entries := by
  cases h with
  | nothing hentries _ habsent =>
      refine .nothing hentries rfl ?_
      have hcurrent := hs (currentFileName dbname)
      rw [Env.content, Option.map_eq_none_iff] at habsent ⊢
      rw [habsent] at hcurrent
      cases hf' : env'.files.lookup (currentFileName dbname) with
      | none => rfl
      | some f' =>
          rw [hf'] at hcurrent
          cases hcurrent
  | manifest number records tail read k hdisk hdecode hmem hk hsecured hlast _ =>
      obtain ⟨c, hc, hcdata⟩ := Option.map_eq_some_iff.mp hdisk.current
      obtain ⟨m, hm, hmdata⟩ := Option.map_eq_some_iff.mp hdisk.content
      obtain ⟨c', hc', hckept, hcshorter⟩ := hs.exists_lookup hc
      obtain ⟨m', hm', hmkept, hmshorter⟩ := hs.exists_lookup hm
      -- all of `CURRENT` is synced
      have hcurrent : c'.kept = c'.data ∧ c'.data = c.data := by
        rw [hsecured.current c hc] at hckept
        have hle := (hckept.trans c'.kept_prefix).length_le
        have hdata := hcshorter.eq_of_length_le hle
        have hkept : c'.kept = c'.data := c'.kept_prefix.eq_of_length_le (by
          rw [hdata]
          exact hckept.length_le)
        exact ⟨hkept, hdata⟩
      -- the synced records are there, and still synced
      have hsynced := hsecured.manifest m hm
      have hlen : (layout 0 (fulls (records.take k))).length ≤ m.kept.length := by
        have hle := Log.length_layout_take_le records k
        have hmlen := congrArg List.length hmdata
        rw [List.length_append] at hmlen
        rw [File.kept, List.length_take]
        omega
      have hlen' := hlen.trans hmkept.length_le
      rw [hmdata] at hmshorter
      obtain ⟨j, tail', hkj, hj, hdata, htorn⟩ := Log.cut_fulls hdisk.fits hdisk.torn hk
        (hlen'.trans m'.kept_prefix.length_le) hmshorter
      refine .manifest number (records.take j) tail' (read.take j) k
        ⟨?_, ?_, Log.allFit_take hdisk.fits j, htorn⟩ (List.forall₂_take j hdecode)
        (fun e he => hmem e (List.mem_of_mem_take he)) ?_ ⟨fun c₁ hc₁ => ?_, fun m₁ hm₁ => ?_⟩
        (fun i hki hi => ?_) fun _ hlog => by cases hlog
      · rw [Env.content, hc', Option.map_some, hcurrent.2, hcdata]
      · rw [Env.content, hm', Option.map_some, hdata]
      · rw [List.length_take]
        omega
      · cases hc'.symm.trans hc₁
        exact hcurrent.1
      · cases hm'.symm.trans hm₁
        rw [List.take_take, Nat.min_eq_left hkj]
        rw [File.kept, List.length_take] at hlen'
        omega
      · rw [List.length_take] at hi
        rw [List.take_take, Nat.min_eq_left (by omega)]
        exact hlast i hki (by omega)

/-! ## What is stored, and what a recovering version set shows -/

/-- What is on disk, as `Stored` says it of the edits that may be there. -/
theorem stored (h : Durable dbname name env log entries) :
    ∃ applied, Stored True dbname name env log applied
      ∧ (∀ last, applied.getLast? = some last → MayBeLast entries last)
      ∧ (∀ e ∈ applied, ∃ p ∈ entries, p.1 = e)
      ∧ (applied = [] → ∀ p ∈ entries, p.2 = false) := by
  cases h with
  | nothing hentries hlog habsent =>
      exact ⟨[], .nothing rfl hlog habsent, nofun, List.forall_mem_nil _, fun _ => hentries⟩
  | manifest number records tail read k hdisk hdecode hmem hk _ hlast hlog =>
      obtain ⟨last, hlast, hends⟩ := hlast records.length hk le_rfl
      rw [hdecode.length_eq, List.take_length] at hends
      -- the last one again at the end: `Stored` asks only for the edit that the manifest ends in
      refine ⟨entries.map Prod.fst ++ [last], .manifest number records tail read hdisk hdecode
        ⟨⟨last, List.getLast?_concat, hends⟩, fun e he => (hmem e he).imp id ?_⟩
        (fun _ => trivial) hlog, fun last' hlast' => ?_, fun e he => ?_,
        fun hnil => absurd hnil (List.append_ne_nil_of_right_ne_nil _ (List.cons_ne_nil _ _))⟩
      · rintro ⟨p, hp, heq⟩
        exact ⟨p.1, List.mem_append_left _ (List.mem_map_of_mem hp), heq⟩
      · rw [List.getLast?_concat] at hlast'
        cases hlast'
        exact hlast
      · rcases List.mem_append.mp he with he | he
        · exact List.mem_map.mp he
        · obtain rfl := List.mem_singleton.mp he
          exact hlast.exists_mem

/-- **What a version set shows that recovers** is an edit that may be the last one. -/
theorem recovered (h : Durable dbname name env log entries) {vs vs' : VersionSet}
    (hvs : vs.Fresh dbname name) {saveManifest saveManifest' : Bool} {uninit : U32} {env' : Env}
    (hrec : vs.recover saveManifest uninit env = .ok (.ok, saveManifest', vs', env')) :
    ∃ last, MayBeLast entries last ∧ Journal.HasNumbers vs' last := by
  obtain ⟨applied, hstored, hlast, -⟩ := h.closed.stored
  have hkept : Journal.Kept True dbname name ⟨env, none, applied⟩ :=
    ⟨fun _ hvs => (by cases hvs), hstored⟩
  obtain ⟨⟨last, hget, hnumbers⟩, -⟩ := hkept.recovered hvs hrec
  exact ⟨last, hlast last hget, hnumbers⟩

end Durable

/-- What a manifest holds is determined by its bytes. -/
theorem OnDisk.unique {dbname : Bytes} {env : Env} {number number' : U64} {records records' : List Bytes}
    {tail tail' : Bytes} (h : OnDisk dbname env number records tail)
    (h' : OnDisk dbname env number' records' tail') :
    descriptorBaseName number' = descriptorBaseName number ∧ records' = records ∧ tail' = tail := by
  have hnumber : descriptorBaseName number' = descriptorBaseName number := List.append_cancel_right
    (Option.some.inj (h'.current.symm.trans h.current))
  have hcontent := h'.content
  rw [hnumber, h.content, Option.some.injEq] at hcontent
  -- the reader gives the same records for the same bytes
  obtain ⟨rd, hread, -⟩ := Log.Reader.readAll_fulls h.fits h.torn
  obtain ⟨rd', hread', -⟩ := Log.Reader.readAll_fulls h'.fits h'.torn
  rw [hcontent, hread'] at hread
  obtain rfl : records' = records := congrArg Prod.fst (Except.ok.inj hread)
  exact ⟨hnumber, rfl, (List.append_cancel_left hcontent).symm⟩

namespace Durable

variable {dbname name : Bytes} {env env' : Env} {log : Option Log.Writer}
  {entries : List (VersionEdit × Bool)} {applied : List VersionEdit}

/-- A process writes on, with a writer that stands behind the records. -/
theorem reopen (h : Durable dbname name env none entries)
    (hstored : Stored True dbname name env log applied) : Durable dbname name env log entries := by
  cases hstored with
  | nothing _ hlog _ =>
      rw [hlog]
      exact h
  | manifest number' records' tail' read' hdisk' _ _ _ hlog =>
      cases h with
      | nothing _ _ habsent => cases habsent.symm.trans hdisk'.current
      | manifest number records tail read k hdisk hdecode hmem hk hsecured hlast _ =>
          obtain ⟨hnumber, rfl, rfl⟩ := hdisk.unique hdisk'
          refine .manifest number records' tail' read k hdisk hdecode hmem hk hsecured hlast
            fun w hw => ?_
          obtain ⟨htail, hcontinues⟩ := hlog w hw
          exact ⟨htail, ⟨by rw [← hnumber]; exact hcontinues.dest, hcontinues.place⟩⟩

end Durable

/-! ## Writing to a manifest -/

namespace OnDisk

variable {dbname name : Bytes} {env env' : Env} {number : U64} {records : List Bytes}
  {read : List VersionEdit} {last : VersionEdit} {entries : List (VersionEdit × Bool)}

/-- **A manifest all of whose records are synced**, and whose last edit may be the last one. -/
theorem durable (h : OnDisk dbname env number records []) (hdecode : Decode records read)
    (hmem : ∀ e ∈ read, e = ({} : VersionEdit).setComparatorName name
      ∨ ∃ p ∈ entries, e = p.1.written)
    (hsecured : Secured dbname env number (layout 0 (fulls records)).length)
    (hlast : MayBeLast entries last) (hends : EndsWith read last) :
    Durable dbname name env none entries := by
  refine .manifest number records [] read records.length h hdecode hmem le_rfl ?_
    (fun j hj hj' => ⟨last, hlast, ?_⟩) fun _ hlog => by cases hlog
  · rwa [List.take_length]
  · rwa [List.take_of_length_le (by rw [← hdecode.length_eq]; exact hj)]

/-- Behind whole records there are all bytes of another one, or only some of them. -/
theorem added (h : OnDisk dbname env number records []) {w : Log.Writer}
    (hw : w.Continues dbname number records) {record done : Bytes}
    (hfit : Log.start w.blockOffset + Log.kHeaderSize + record.length ≤ Log.kBlockSize)
    (hdone : done <+: layout w.blockOffset [⟨.kFullType, record⟩])
    (hadded : Steps.Added env w.dest done env') :
    (done = layout w.blockOffset [⟨.kFullType, record⟩] →
        OnDisk dbname env' number (records ++ [record]) [])
      ∧ (done ≠ layout w.blockOffset [⟨.kFullType, record⟩] →
        OnDisk dbname env' number records done) := by
  set bytes := layout w.blockOffset [⟨.kFullType, record⟩] with hbytes
  have hcurrent : env'.content (currentFileName dbname) = env.content (currentFileName dbname) := by
    refine hadded.others.content fun hmem => ?_
    rw [hw.dest] at hmem
    exact descriptorFile_ne_current dbname number (List.mem_singleton.mp hmem).symm
  have hcontent : env'.content w.dest = (env.content w.dest).map (· ++ done) := by
    have hold := h.content
    rw [← hw.dest] at hold
    obtain ⟨f, hf, -⟩ := Option.map_eq_some_iff.mp hold
    rw [Env.content, hadded.file f hf, Env.content, hf]
    rfl
  constructor
  · intro hall
    have hadds : Env.Adds w.dest bytes [] env env' := by
      refine ⟨hadded.others, fun _ => ?_, fun hp => absurd trivial hp⟩
      rw [hcontent, hall]
    exact (h.append hw hfit hadds).1 trivial
  · intro hne
    have htorn : Torn (endOffset 0 (fulls records)) done := by
      rw [hbytes, hw.place.layout] at hdone hne
      refine Log.Reader.torn_of_prefix ?_ hdone hne
      rw [Log.next, ← hw.place.1]
      exact hfit
    refine ⟨hcurrent.trans h.current, ?_, h.fits, htorn⟩
    rw [← hw.dest, hcontent, hw.dest, h.content, List.append_nil, Option.map_some]

end OnDisk

namespace Durable

variable {dbname name : Bytes} {env env' : Env} {entries : List (VersionEdit × Bool)}
  {w : Log.Writer} {record : Bytes} {e : VersionEdit}

/-- **Bytes of a record** are appended, but not synced. -/
theorem written (h : Durable dbname name env (some w) entries)
    (hfit : Log.start w.blockOffset + Log.kHeaderSize + record.length ≤ Log.kBlockSize)
    (hdecode : VersionEdit.decodeFrom record = .ok (.ok, e.written))
    (hends : ∀ before, EndsWith (before ++ [e.written]) e) {done : Bytes}
    (hdone : done <+: layout w.blockOffset [⟨.kFullType, record⟩])
    (hadded : Steps.Added env w.dest done env') :
    Durable dbname name env' none (entries ++ [(e, false)]) := by
  have hdoubt : ∀ p ∈ [(e, false)], p.2 = false := by simp
  have hdurable := (h.doubt hdoubt).closed
  cases h with
  | nothing _ hlog _ => cases hlog
  | manifest number records tail read k hdisk hdecodes hmem hk hsecured hlast hlog =>
      obtain ⟨rfl, hcontinues⟩ := hlog w rfl
      have hdest := hcontinues.dest
      -- appending takes nothing from what is synced
      have hsecured' : Secured dbname env' number (layout 0 (fulls (records.take k))).length := by
        refine ⟨fun c hc => hsecured.current c ?_, fun m hm => ?_⟩
        · rwa [hadded.others _ fun hmem => ?_] at hc
          rw [hdest] at hmem
          exact descriptorFile_ne_current dbname number (List.mem_singleton.mp hmem).symm
        · obtain ⟨m₀, hm₀, -⟩ := Option.map_eq_some_iff.mp hdisk.content
          have hm' := hadded.file m₀ (by rw [hdest]; exact hm₀)
          rw [hdest] at hm'
          cases hm'.symm.trans hm
          exact hsecured.manifest m₀ hm₀
      have hmem' : ∀ d ∈ read, d = ({} : VersionEdit).setComparatorName name
          ∨ ∃ p ∈ entries ++ [(e, false)], d = p.1.written := by
        intro d hd
        obtain heq | ⟨p, hp, heq⟩ := hmem d hd
        · exact .inl heq
        · exact .inr ⟨p, List.mem_append_left _ hp, heq⟩
      obtain ⟨hwhole, htorn⟩ := hdisk.added hcontinues hfit hdone hadded
      by_cases hall : done = layout w.blockOffset [⟨.kFullType, record⟩]
      · have hdisk' := hwhole hall
        have hlen := hdecodes.length_eq
        refine .manifest number (records ++ [record]) [] (read ++ [e.written]) k hdisk'
          (List.rel_append hdecodes (.cons hdecode .nil)) (fun d hd => ?_) ?_ ?_ (fun j hj hj' => ?_)
          fun _ hlog => by cases hlog
        · rcases List.mem_append.mp hd with hd | hd
          · exact hmem' d hd
          · exact .inr ⟨(e, false), by simp, List.mem_singleton.mp hd⟩
        · rw [List.length_append]
          omega
        · rwa [List.take_append_of_le_length hk]
        · -- cut off before the new record, or behind it
          by_cases hle : j ≤ records.length
          · obtain ⟨last, hlast, hends⟩ := hlast j hj hle
            refine ⟨last, hlast.append hdoubt, ?_⟩
            rwa [List.take_append_of_le_length (by omega)]
          · rw [List.length_append, List.length_singleton] at hj'
            refine ⟨e, mayBeLast_concat entries e false, ?_⟩
            rw [List.take_of_length_le (by rw [List.length_append, List.length_singleton]; omega)]
            exact hends read
      · refine .manifest number records done read k (htorn hall) hdecodes hmem' hk hsecured'
          (fun j hj hj' => ?_) fun _ hlog => by cases hlog
        obtain ⟨last, hlast, hends⟩ := hlast j hj hj'
        exact ⟨last, hlast.append hdoubt, hends⟩

/-- **The record is synced**: whatever becomes of the call, its edit is there. -/
theorem synced (h : Durable dbname name env (some w) entries)
    (hfit : Log.start w.blockOffset + Log.kHeaderSize + record.length ≤ Log.kBlockSize)
    (hdecode : VersionEdit.decodeFrom record = .ok (.ok, e.written))
    (hends : ∀ before, EndsWith (before ++ [e.written]) e)
    (hadded : Steps.Added env w.dest (layout w.blockOffset [⟨.kFullType, record⟩]) env')
    (hok : (env'.sync w.dest).1 = .ok) (b : Bool) :
    Durable dbname name (env'.sync w.dest).2 none (entries ++ [(e, b)]) := by
  cases h with
  | nothing _ hlog _ => cases hlog
  | manifest number records tail read k hdisk hdecodes hmem hk hsecured hlast hlog =>
      obtain ⟨rfl, hcontinues⟩ := hlog w rfl
      have hdest := hcontinues.dest
      have hdisk' := (hdisk.added hcontinues hfit (List.prefix_refl _) hadded).1 rfl
      refine (hdisk'.congr fun g => Env.content_sync w.dest g env').durable
        (List.rel_append hdecodes (.cons hdecode .nil)) (fun d hd => ?_)
        ⟨fun c hc => ?_, fun m hm => ?_⟩ (mayBeLast_concat entries e b) (hends read)
      · rcases List.mem_append.mp hd with hd | hd
        · refine (hmem d hd).imp id ?_
          rintro ⟨p, hp, heq⟩
          exact ⟨p, List.mem_append_left _ hp, heq⟩
        · exact .inr ⟨(e, b), by simp, List.mem_singleton.mp hd⟩
      · have hne : currentFileName dbname ∉ [w.dest] := fun hmem => by
          rw [hdest] at hmem
          exact descriptorFile_ne_current dbname number (List.mem_singleton.mp hmem).symm
        rw [Env.others_sync _ _ _ hne, hadded.others _ hne] at hc
        exact hsecured.current c hc
      · obtain ⟨m', hm', hdata⟩ := Option.map_eq_some_iff.mp hdisk'.content
        rw [← hdest] at hm hm'
        rw [Env.lookup_sync hok, hm', Option.map_some] at hm
        cases hm
        rw [hdata, List.append_nil]

end Durable

end SimpleLeveldb
