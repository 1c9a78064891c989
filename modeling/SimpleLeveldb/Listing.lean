import SimpleLeveldb.Recovery

set_option autoImplicit false

/-! # The check for missing table files

`Recover` and `RecoverLogFile` go through the names in the directory, take the number of each out of
the numbers of the live table files, and report the files that are left as missing.
`RecoverLogFile` looks at what is left behind the loop. `Recover` looks in the loop, so that its
verdict hangs on the name that comes first.
-/

namespace SimpleLeveldb.DbImpl

/-- A live number is not the number of any recognised name. -/
def Missing (live : List U64) (listing : List Bytes) : Prop :=
  ∃ number ∈ live, ∀ name ∈ listing, ∀ type, parseFileName name ≠ some (number, type)

/-- The scan reports a corruption. -/
def Reports (r : Except Fault (Status × List U64)) : Prop :=
  ∃ msg msg2 logs, r = .ok (.corruption msg msg2, logs)

/-- The scan finds nothing wrong, and returns these logs in order. -/
def FindsLogs (r : Except Fault (Status × List U64)) (sorted : List U64) : Prop :=
  ∃ logs, r = .ok (.ok, logs) ∧ logs.mergeSort (fun a b => decide (a ≤ b)) = sorted

/-- A scan reports a corruption when a live file is missing, and finds the logs otherwise. -/
structure Decides (scan : List Bytes → Except Fault (Status × List U64)) (live : List U64)
    (listing : List Bytes) : Prop where
  reports : Missing live listing → Reports (scan listing)
  finds : ¬ Missing live listing → ∃ sorted, FindsLogs (scan listing) sorted

/-- The scan of `Recover`, with the numbers of the live table files. -/
def scanOf (db : DbImpl) (minLog prevLog : U64) (live : List U64) (listing : List Bytes) :
    Except Fault (Status × List U64) :=
  db.scanListing minLog prevLog listing live []

/-- For two orders of the same listing, the scan decides rightly, and decides the same. -/
structure OrderFree (db : DbImpl) (minLog prevLog : U64) (live : List U64)
    (listing listing' : List Bytes) : Prop where
  decides : Decides (db.scanOf minLog prevLog live) live listing
  decides' : Decides (db.scanOf minLog prevLog live) live listing'
  verdict : Reports (db.scanOf minLog prevLog live listing)
    ↔ Reports (db.scanOf minLog prevLog live listing')
  logs : ∀ sorted, FindsLogs (db.scanOf minLog prevLog live listing) sorted
    ↔ FindsLogs (db.scanOf minLog prevLog live listing') sorted

/-- What decides the verdict: after the first name no number is left, or a file is missing and its
name can be made. -/
def FirstDecides (live : List U64) (listing : List Bytes) : Prop :=
  live = [] ∨ ∃ name rest, listing = name :: rest ∧ (eraseNumber live name = []
    ∨ Missing live listing ∧ 0 ∉ eraseNumber live name)

/-! ## The report -/

/-- The lowest of some numbers. -/
theorem foldl_min_spec (l : List U64) (a : U64) :
    l.foldl (fun a b => if b < a then b else a) a ∈ a :: l
      ∧ ∀ b ∈ a :: l, l.foldl (fun a b => if b < a then b else a) a ≤ b := by
  induction l generalizing a with
  | nil => exact ⟨List.mem_singleton.mpr rfl, fun b hb => by simp at hb; exact hb ▸ BitVec.le_refl _⟩
  | cons c l ih =>
      obtain ⟨hmem, hle⟩ := ih (if c < a then c else a)
      rw [List.foldl_cons]
      constructor
      · rcases List.mem_cons.mp hmem with he | hmem
        · rw [he]
          split_ifs <;> simp
        · exact List.mem_cons_of_mem _ (List.mem_cons_of_mem _ hmem)
      · intro b hb
        have hfirst := hle _ List.mem_cons_self
        rcases List.mem_cons.mp hb with rfl | hb
        · refine BitVec.le_trans hfirst ?_
          split_ifs <;> bv_omega
        rcases List.mem_cons.mp hb with rfl | hb
        · refine BitVec.le_trans hfirst ?_
          split_ifs <;> bv_omega
        · exact hle b (List.mem_cons_of_mem _ hb)

/-- The report can be made when the lowest number is not 0. -/
theorem missingFiles_cases (db : DbImpl) {expected : List U64} (hne : expected ≠ []) :
    (0 ∉ expected ∧ ∃ msg msg2, db.missingFiles expected = .ok (.corruption msg msg2))
      ∨ (0 ∈ expected ∧ ∃ e, db.missingFiles expected = .error e) := by
  obtain ⟨a, l, rfl⟩ := List.exists_cons_of_ne_nil hne
  obtain ⟨hmem, hle⟩ := foldl_min_spec l a
  have hfold : (a :: l).foldl (fun a b => if b < a then b else a) ((a :: l).headD 0)
      = l.foldl (fun a b => if b < a then b else a) a := by
    rw [List.headD_cons, List.foldl_cons]
    simp
  rw [missingFiles]
  simp only [hfold]
  set first := l.foldl (fun a b => if b < a then b else a) a
  by_cases hpos : 0 < first
  · refine .inl ⟨fun h0 => ?_, ?_⟩
    · have := hle 0 h0
      bv_omega
    · rw [tableFileName, require_of hpos]
      exact ⟨_, _, rfl⟩
  · have hzero : first = 0 := by bv_omega
    refine .inr ⟨hzero ▸ hmem, ?_⟩
    rw [tableFileName, require, if_neg hpos]
    exact ⟨_, rfl⟩

/-! ## What is left of the live numbers -/

theorem mem_eraseNumber {live : List U64} {name : Bytes} {number : U64} :
    number ∈ eraseNumber live name
      ↔ number ∈ live ∧ ∀ type, parseFileName name ≠ some (number, type) := by
  unfold eraseNumber
  rcases parseFileName name with _ | ⟨n, type⟩
  · simp
  · simp only [List.mem_filter, decide_eq_true_eq, Option.some.injEq, Prod.mk.injEq, ne_eq,
      not_and]
    refine and_congr_right fun _ => ⟨fun h _ he => absurd he.symm h, fun h he => h type he.symm rfl⟩

theorem missing_cons {live : List U64} {name : Bytes} {listing : List Bytes} :
    Missing live (name :: listing) ↔ Missing (eraseNumber live name) listing := by
  simp only [Missing, mem_eraseNumber, List.forall_mem_cons, and_assoc]

theorem missing_nil {live : List U64} : Missing live [] ↔ live ≠ [] := by
  constructor
  · rintro ⟨number, hmem, -⟩
    exact List.ne_nil_of_mem hmem
  · intro hne
    obtain ⟨number, hmem⟩ := List.exists_mem_of_ne_nil live hne
    exact ⟨number, hmem, nofun⟩

theorem not_missing_of_nil (listing : List Bytes) : ¬ Missing [] listing := by
  rintro ⟨_, hmem, -⟩
  cases hmem

theorem Missing.perm {live : List U64} {listing listing' : List Bytes}
    (hperm : listing.Perm listing') : Missing live listing ↔ Missing live listing' := by
  simp only [Missing, hperm.mem_iff]

/-! ## The scan -/

theorem not_reports_of_finds {r : Except Fault (Status × List U64)} {sorted : List U64}
    (h : FindsLogs r sorted) : ¬ Reports r := by
  obtain ⟨logs, rfl, -⟩ := h
  rintro ⟨msg, msg2, logs', he⟩
  cases he

/-- When no number is left, the scan finds nothing wrong. -/
theorem scanListing_nil (db : DbImpl) (minLog prevLog : U64) (listing : List Bytes)
    (logs : List U64) : ∃ logs', db.scanListing minLog prevLog listing [] logs = .ok (.ok, logs') := by
  induction listing generalizing logs with
  | nil => exact ⟨logs, rfl⟩
  | cons name listing ih =>
      have hnil : eraseNumber [] name = [] := by
        unfold eraseNumber
        rcases parseFileName name with _ | ⟨n, type⟩ <;> rfl
      rw [scanListing, hnil]
      exact ih _

/-- **The verdict of `Recover`** is right exactly when the first name decides it. -/
theorem decides_scanOf_iff (db : DbImpl) (minLog prevLog : U64) (live : List U64)
    (listing : List Bytes) :
    Decides (db.scanOf minLog prevLog live) live listing ↔ FirstDecides live listing := by
  cases listing with
  | nil =>
      have hscan : FindsLogs (db.scanOf minLog prevLog live []) [] := ⟨[], rfl, List.mergeSort_nil⟩
      constructor
      · intro h
        by_contra hne
        rw [FirstDecides, not_or] at hne
        exact not_reports_of_finds hscan (h.reports (missing_nil.mpr hne.1))
      · rintro (rfl | ⟨name, rest, he, -⟩)
        · exact ⟨fun hmissing => absurd hmissing (not_missing_of_nil _), fun _ => ⟨_, hscan⟩⟩
        · cases he
  | cons name rest =>
      have hfirst : FirstDecides live (name :: rest) ↔ eraseNumber live name = []
          ∨ Missing live (name :: rest) ∧ 0 ∉ eraseNumber live name := by
        constructor
        · rintro (rfl | ⟨name', rest', he, h⟩)
          · left
            exact List.eq_nil_iff_forall_not_mem.mpr fun n hn => by
              cases (mem_eraseNumber.mp hn).1
          · obtain ⟨rfl, rfl⟩ := List.cons.inj he
            exact h
        · exact fun h => .inr ⟨name, rest, rfl, h⟩
      rw [hfirst]
      by_cases hempty : eraseNumber live name = []
      · -- nothing is missing, and nothing is reported
        obtain ⟨logs, hscan⟩ := scanListing_nil db minLog prevLog rest
          ([] ++ (relevantLog minLog prevLog name).toList)
        have hall : db.scanOf minLog prevLog live (name :: rest) = .ok (.ok, logs) := by
          rw [scanOf, scanListing, hempty, if_pos List.isEmpty_nil]
          exact hscan
        refine iff_of_true ⟨fun hmissing => ?_, fun _ => ⟨_, logs, hall, rfl⟩⟩ (.inl hempty)
        rw [missing_cons, hempty] at hmissing
        exact absurd hmissing (not_missing_of_nil _)
      · have hscan : db.scanOf minLog prevLog live (name :: rest)
            = do return (← db.missingFiles (eraseNumber live name),
                [] ++ (relevantLog minLog prevLog name).toList) := by
          rw [scanOf, scanListing, if_neg (by simpa using hempty)]
        rcases missingFiles_cases db hempty with ⟨h0, msg, msg2, hreport⟩ | ⟨h0, e, hreport⟩
        · rw [hreport] at hscan
          have hreports : Reports (db.scanOf minLog prevLog live (name :: rest)) :=
            ⟨msg, msg2, _, hscan⟩
          constructor
          · intro h
            by_contra hnot
            obtain ⟨sorted, hfinds⟩ := h.finds fun hmissing => hnot (.inr ⟨hmissing, h0⟩)
            exact not_reports_of_finds hfinds hreports
          · rintro (he | ⟨hmissing, -⟩)
            · exact absurd he hempty
            · exact ⟨fun _ => hreports, fun hnot => absurd hmissing hnot⟩
        · rw [hreport] at hscan
          refine iff_of_false (fun h => ?_) ?_
          · by_cases hmissing : Missing live (name :: rest)
            · obtain ⟨msg, msg2, logs, he⟩ := h.reports hmissing
              rw [hscan] at he
              cases he
            · obtain ⟨sorted, logs, he, -⟩ := h.finds hmissing
              rw [hscan] at he
              cases he
          · rintro (he | ⟨-, hnot⟩)
            · exact hempty he
            · exact hnot h0

/-- The logs found in two orders of a listing are the same. -/
theorem FindsLogs.perm {db : DbImpl} {minLog prevLog : U64} {live : List U64}
    {listing listing' : List Bytes} (hperm : listing.Perm listing') {sorted sorted' : List U64}
    (h : FindsLogs (db.scanOf minLog prevLog live listing) sorted)
    (h' : FindsLogs (db.scanOf minLog prevLog live listing') sorted') : sorted = sorted' := by
  obtain ⟨logs, hscan, rfl⟩ := h
  obtain ⟨logs', hscan', rfl⟩ := h'
  rw [scanListing_ok _ hscan, scanListing_ok _ hscan', List.nil_append, List.nil_append]
  have hlogs := hperm.filterMap (relevantLog minLog prevLog)
  have htotal : ∀ a b : U64, (decide (a ≤ b) || decide (b ≤ a)) = true := by
    intro a b
    rw [← Bool.decide_or, decide_eq_true_iff]
    bv_omega
  have htrans : ∀ a b c : U64, decide (a ≤ b) = true → decide (b ≤ c) = true →
      decide (a ≤ c) = true := by
    intro a b c hab hbc
    rw [decide_eq_true_iff] at hab hbc ⊢
    exact BitVec.le_trans hab hbc
  refine List.Perm.eq_of_pairwise ?_ (List.pairwise_mergeSort htrans htotal _)
    (List.pairwise_mergeSort htrans htotal _)
    (((List.mergeSort_perm _ _).trans hlogs).trans (List.mergeSort_perm _ _).symm)
  intro a b _ _ hab hba
  rw [decide_eq_true_iff] at hab hba
  exact BitVec.le_antisymm hab hba

/-- **The check for missing files does not depend on the order** of the listing exactly when the
first name of either order decides it. -/
theorem orderFree_iff (db : DbImpl) (minLog prevLog : U64) (live : List U64)
    {listing listing' : List Bytes} (hperm : listing.Perm listing') :
    OrderFree db minLog prevLog live listing listing'
      ↔ FirstDecides live listing ∧ FirstDecides live listing' := by
  rw [← decides_scanOf_iff db minLog prevLog, ← decides_scanOf_iff db minLog prevLog]
  refine ⟨fun h => ⟨h.decides, h.decides'⟩, fun ⟨h, h'⟩ => ⟨h, h', ?_, ?_⟩⟩
  · by_cases hmissing : Missing live listing
    · exact iff_of_true (h.reports hmissing) (h'.reports ((Missing.perm hperm).mp hmissing))
    · obtain ⟨sorted, hfinds⟩ := h.finds hmissing
      obtain ⟨sorted', hfinds'⟩ := h'.finds fun hm => hmissing ((Missing.perm hperm).mpr hm)
      exact iff_of_false (not_reports_of_finds hfinds) (not_reports_of_finds hfinds')
  · intro sorted
    by_cases hmissing : Missing live listing
    · exact iff_of_false (fun hfinds => not_reports_of_finds hfinds (h.reports hmissing))
        fun hfinds => not_reports_of_finds hfinds (h'.reports ((Missing.perm hperm).mp hmissing))
    · obtain ⟨sorted₁, hfinds⟩ := h.finds hmissing
      obtain ⟨sorted₂, hfinds'⟩ := h'.finds fun hm => hmissing ((Missing.perm hperm).mpr hm)
      obtain rfl := hfinds.perm hperm hfinds'
      constructor
      · intro hs
        rwa [hs.perm hperm hfinds']
      · intro hs
        rwa [← hfinds.perm hperm hs]

/-- Two live table files, and both are there. -/
def twoTables : List Bytes := [text "000005.ldb", text "000007.ldb"]

def twoTablesDb : DbImpl where
  dbname := text "db"
  options := {}
  userComparator := VersionSet.oneVersionSet.icmp.userComparator
  dbLock := none
  versions := VersionSet.oneVersionSet
  pendingOutputs := []
  bgError := .ok

theorem orderFree_iff_twoTables :
    OrderFree twoTablesDb 0 0 [5] twoTables twoTables.reverse
      ↔ FirstDecides [5] twoTables ∧ FirstDecides [5] twoTables.reverse :=
  orderFree_iff twoTablesDb 0 0 [5] (List.reverse_perm twoTables).symm

/-- With both files live, the first name leaves one of them over, which is reported as missing. -/
theorem not_orderFree_twoTables :
    ¬ OrderFree twoTablesDb 0 0 [5, 7] twoTables twoTables.reverse := by
  intro h
  have hfive : parseFileName (text "000005.ldb") = some (5, .kTableFile) := by decide +kernel
  have hseven : parseFileName (text "000007.ldb") = some (7, .kTableFile) := by decide +kernel
  have hmissing : ¬ Missing [5, 7] twoTables := by
    rintro ⟨number, hmem, hnone⟩
    rcases List.mem_cons.mp hmem with rfl | hmem
    · exact hnone _ List.mem_cons_self _ hfive
    · obtain rfl := List.mem_singleton.mp hmem
      exact hnone _ (List.mem_cons_of_mem _ List.mem_cons_self) _ hseven
  rcases (decides_scanOf_iff _ _ _ _ _).mp h.decides with hlive | ⟨name, rest, he, hfirst⟩
  · cases hlive
  · obtain ⟨rfl, rfl⟩ := List.cons.inj he
    rcases hfirst with hempty | ⟨hm, -⟩
    · have hleft : (7 : U64) ∈ eraseNumber [5, 7] (text "000005.ldb") := by decide +kernel
      rw [hempty] at hleft
      cases hleft
    · exact hmissing hm

/-! ## The scan of `RecoverLogFile` -/

/-- Behind the loop of `RecoverLogFile` the numbers that no name carries are left. -/
theorem mem_foldl_eraseNumber {listing : List Bytes} {live : List U64} {number : U64} :
    number ∈ listing.foldl eraseNumber live
      ↔ number ∈ live ∧ ∀ name ∈ listing, ∀ type, parseFileName name ≠ some (number, type) := by
  induction listing generalizing live with
  | nil => simp
  | cons name listing ih => rw [List.foldl_cons, ih, mem_eraseNumber, List.forall_mem_cons, and_assoc]

/-- `RecoverLogFile` decides rightly for every listing, as long as its report can be made. -/
theorem decides_scanListingOnce (db : DbImpl) (minLog prevLog : U64) {live : List U64}
    (h0 : 0 ∉ live) (listing : List Bytes) :
    Decides (fun listing => db.scanListingOnce minLog prevLog listing live) live listing := by
  have hleft : listing.foldl eraseNumber live ≠ [] ↔ Missing live listing := by
    constructor
    · intro hne
      obtain ⟨number, hmem⟩ := List.exists_mem_of_ne_nil _ hne
      exact ⟨number, mem_foldl_eraseNumber.mp hmem⟩
    · rintro ⟨number, hmem⟩
      exact List.ne_nil_of_mem (mem_foldl_eraseNumber.mpr hmem)
  constructor
  · intro hmissing
    have hne := hleft.mpr hmissing
    rcases missingFiles_cases db hne with ⟨-, msg, msg2, hreport⟩ | ⟨hmem, -⟩
    · refine ⟨msg, msg2, listing.filterMap (relevantLog minLog prevLog), ?_⟩
      simp only [scanListingOnce]
      rw [if_neg (by simpa using hne), hreport]
      rfl
    · exact absurd (mem_foldl_eraseNumber.mp hmem).1 h0
  · intro hmissing
    have hnil : listing.foldl eraseNumber live = [] := not_not.mp (mt hleft.mp hmissing)
    refine ⟨_, listing.filterMap (relevantLog minLog prevLog), ?_, rfl⟩
    simp only [scanListingOnce]
    rw [hnil, if_pos List.isEmpty_nil]

end SimpleLeveldb.DbImpl
