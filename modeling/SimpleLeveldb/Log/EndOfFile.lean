import SimpleLeveldb.Log.Soundness

set_option autoImplicit false

/-! # When the reader says that there are no more records

`read_record` returns false at the end of the file, and reports physical records of unknown types
on the way. But the sentinels `kEof` and `kBadRecord` of `read_physical_record` are the type bytes
5 and 6: a physical record with one of these on disk is taken for the sentinel.
-/

namespace SimpleLeveldb.Log

namespace Reader

/-! ## Reports of unknown types -/

/-- The report that a physical record with a type byte other than those of the record types
should get. -/
def unknownReport : Item → Option Status
  | .record _ type _ =>
      if type = 1#8 ∨ type = 2#8 ∨ type = 3#8 ∨ type = 4#8 then none else some (unknownType type)
  | .bad _ _ => none

/-- The type byte is that of a sentinel. -/
def Reserved (i : Item) : Prop := i.type? = some 5#8 ∨ i.type? = some 6#8

theorem unknownType_injective : Function.Injective unknownType := by
  intro c c' h
  have htext : text "unknown record type " ++ decimal (charToU32 c).toNat
      = text "unknown record type " ++ decimal (charToU32 c').toNat := (Status.error.inj h).2
  exact charToU32_inj.mp (BitVec.eq_of_toNat_eq (decimal_injective (List.append_cancel_left htext)))

/-- A text that does not begin like the report of an unknown type. -/
theorem ne_unknownType {reason : Bytes} (h : reason.head? ≠ some 117#8) (type : Byte) :
    Status.corruption reason ≠ unknownType type := by
  intro heq
  have htext : reason = text "unknown record type " ++ decimal (charToU32 type).toNat :=
    (Status.error.inj heq).2
  rw [htext] at h
  exact h rfl

/-- None of the calls reports a physical record whose type byte is that of a sentinel. -/
def Silent (calls : List (Nat × Status)) : Prop :=
  ∀ c ∈ calls, c.2 ≠ unknownType 5#8 ∧ c.2 ≠ unknownType 6#8

theorem silent_nil : Silent [] := by
  intro c hc
  cases hc

theorem silent_append {calls calls' : List (Nat × Status)} :
    Silent (calls ++ calls') ↔ Silent calls ∧ Silent calls' := List.forall_mem_append

theorem silent_singleton {n : Nat} {reason : Bytes} (h : reason.head? ≠ some 117#8) :
    Silent [(n, .corruption reason)] := by
  intro c hc
  rw [List.mem_singleton.mp hc]
  exact ⟨ne_unknownType h _, ne_unknownType h _⟩

theorem silent_partialCalls (pending : Option Bytes) {reason : Bytes}
    (h : reason.head? ≠ some 117#8) : Silent (partialCalls pending reason) := by
  unfold partialCalls
  split_ifs
  · exact silent_nil
  · exact silent_singleton h

theorem silent_middleCalls (pending : Option Bytes) : Silent (middleCalls pending) := by
  cases pending with
  | none => exact silent_nil
  | some s => exact silent_singleton (by decide)

/-- The reports for the rest of a block. -/
theorem silent_parse {pos n : Nat} {b : Bytes} {last : Bool} {i : Item}
    (h : parse pos b last = some (i, n)) : Silent (itemReports i) := by
  unfold parse at h
  split_ifs at h with hlen hlast hzero hcrc
  · cases h
    exact silent_singleton (by decide)
  · cases h
    exact silent_nil
  · cases h
    exact silent_nil
  · cases h
    exact silent_singleton (by decide)

/-- The reports that `read_record` makes for an item. -/
theorem silent_take {pending : Option Bytes} {i : Item} (h : Silent (itemReports i)) :
    Silent (take pending i).2 := by
  cases i with
  | bad p cs => exact silent_append.mpr ⟨h, silent_middleCalls pending⟩
  | record p type payload =>
      unfold take
      simp only
      split_ifs with h1 h2 h3 h4 h5 h6
      · exact silent_partialCalls pending (by decide)
      · exact silent_partialCalls pending (by decide)
      · cases pending with
        | none => exact silent_singleton (by decide)
        | some s => exact silent_nil
      · cases pending with
        | none => exact silent_singleton (by decide)
        | some s => exact silent_nil
      · exact silent_nil
      · exact silent_middleCalls pending
      · intro c hc
        rw [List.mem_singleton.mp hc]
        exact ⟨fun he => h5 (unknownType_injective he), fun he => h6 (unknownType_injective he)⟩

/-- The reports that a call of `read_record` makes, by induction on the items in front of it. -/
theorem silent_nextRecord {pos : Nat} {data : Bytes} {is : List Item} (hw : Walk pos data is)
    (pending : Option Bytes) : Silent (nextRecord pending is).1 := by
  induction hw generalizing pending with
  | done => exact silent_nil
  | @item pos pos' data data' i is hs _ ih =>
      obtain ⟨n, -, hparse, -, -⟩ := step_eq_some hs
      have htake := @silent_take pending i (silent_parse hparse)
      rcases ht : take pending i with ⟨p | r, calls⟩
      · rw [ht] at htake
        rw [nextRecord_inl ht]
        exact silent_append.mpr ⟨htake, ih p⟩
      · rw [ht] at htake
        rw [nextRecord_inr ht]
        exact htake

/-- A report for every physical record of an unknown type that is not taken for a sentinel. -/
theorem unknownReport_sublist_take {i : Item} (h : ¬ Reserved i) (pending : Option Bytes) :
    (unknownReport i).toList.Sublist ((take pending i).2.map Prod.snd) := by
  cases i with
  | bad p cs => exact List.nil_sublist _
  | record p type payload =>
      unfold unknownReport
      simp only
      split_ifs with hknown
      · exact List.nil_sublist _
      · have h1 : type ≠ 1#8 := fun he => hknown (.inl he)
        have h2 : type ≠ 2#8 := fun he => hknown (.inr (.inl he))
        have h3 : type ≠ 3#8 := fun he => hknown (.inr (.inr (.inl he)))
        have h4 : type ≠ 4#8 := fun he => hknown (.inr (.inr (.inr he)))
        have h5 : type ≠ 5#8 := fun he => h (.inl (congrArg some he))
        have h6 : type ≠ 6#8 := fun he => h (.inr (congrArg some he))
        unfold take
        simp only [if_neg h1, if_neg h2, if_neg h3, if_neg h4, if_neg h5, if_neg h6]
        exact List.Sublist.refl _

/-- **A call** reports all physical records of unknown types that it passes. -/
theorem nextRecord_sublist (pending : Option Bytes) (is : List Item) (h : ∀ i ∈ is, ¬ Reserved i) :
    ∃ js, is = js ++ (nextRecord pending is).2.2
      ∧ (js.filterMap unknownReport).Sublist ((nextRecord pending is).1.map Prod.snd)
      ∧ ((nextRecord pending is).2.1 = none → (nextRecord pending is).2.2 = []) := by
  induction is generalizing pending with
  | nil => exact ⟨[], rfl, List.nil_sublist _, fun _ => rfl⟩
  | cons i is ih =>
      have hi := unknownReport_sublist_take (h i List.mem_cons_self) pending
      have hfilter : ∀ js, (i :: js).filterMap unknownReport
          = (unknownReport i).toList ++ js.filterMap unknownReport := by
        intro js
        cases hu : unknownReport i with
        | none => rw [List.filterMap_cons_none hu, Option.toList_none, List.nil_append]
        | some u => rw [List.filterMap_cons_some hu, Option.toList_some, List.singleton_append]
      rcases ht : take pending i with ⟨p | r, calls⟩
      · rw [ht] at hi
        obtain ⟨js, his, hjs, hend⟩ := ih p fun j hj => h j (List.mem_cons_of_mem _ hj)
        rw [nextRecord_inl ht]
        refine ⟨i :: js, ?_, ?_, hend⟩
        · rw [List.cons_append, ← his]
        · rw [hfilter, List.map_append]
          exact hi.append hjs
      · rw [ht] at hi
        rw [nextRecord_inr ht]
        refine ⟨[i], rfl, ?_, ?_⟩
        · rw [hfilter, List.filterMap_nil, List.append_nil]
          exact hi
        · rintro (rfl : r = none)
          exact absurd (.inl (take_inr_none ht)) (h i List.mem_cons_self)

/-! ## The end of the file -/

/-- **The end means the end** of a file: when a call of `read_record` returns false, the whole file
has been consumed, no later call returns a record, and all complete physical records of unknown
types have been reported. -/
def EndMeansEnd (data : Bytes) : Prop :=
  ∀ rd d rd', Called (Reader.new ⟨data, []⟩ (some []) true 0) rd →
    rd.readRecord = .ok (false, d, rd') →
      (rd'.eof = true ∧ ¬ kHeaderSize + lengthField rd'.buffer ≤ rd'.buffer.length)
        ∧ (∀ rd₁ more d' rd₂, Called rd' rd₁ → rd₁.readRecord = .ok (more, d', rd₂) → more = false)
        ∧ ∃ calls, rd'.reporter = some calls
          ∧ ((fileItems data).filterMap unknownReport).Sublist (calls.map Prod.snd)

/-- After any calls the reader has reported all physical records of unknown types behind it. -/
theorem Called.reported {data : Bytes} {rd : Reader}
    (hres : ∀ i ∈ fileItems data, ¬ Reserved i)
    (h : Called (Reader.new ⟨data, []⟩ (some []) true 0) rd) :
    ∃ pos pre is calls, Stands pos (data.drop pos) rd ∧ Walk pos (data.drop pos) is
      ∧ fileItems data = pre ++ is ∧ rd.reporter = some calls
      ∧ (pre.filterMap unknownReport).Sublist (calls.map Prod.snd) := by
  induction h with
  | start =>
      exact ⟨0, [], _, [], stands_new data (some []), walk_fileItems data, rfl, rfl,
        List.nil_sublist _⟩
  | call _ hread ih =>
      obtain ⟨pos, pre, is, calls, hstands, hw, hitems, hrep, hsub⟩ := ih
      obtain ⟨r, hread', hfollows⟩ := readRecord_walk hstands hw
      rw [hread] at hread'
      cases hread'
      have his : ∀ i ∈ is, ¬ Reserved i := by
        intro i hi
        refine hres i ?_
        rw [hitems]
        exact List.mem_append_right pre hi
      obtain ⟨js, hjs, hsub', -⟩ := nextRecord_sublist none is his
      obtain ⟨pos', hstands', hw'⟩ := hfollows.stands
      refine ⟨pos', pre ++ js, _, calls ++ (nextRecord none is).1, hstands', hw', ?_, ?_, ?_⟩
      · rw [List.append_assoc, ← hjs]
        exact hitems
      · rw [hfollows.reports, hrep]
        rfl
      · rw [List.filterMap_append, List.map_append]
        exact hsub.append hsub'

/-- A reader at the end of the file stays there. -/
theorem Called.atEnd {data : Bytes} {pos : Nat} {rd rd' : Reader}
    (hstands : Stands pos (data.drop pos) rd) (hw : Walk pos (data.drop pos) [])
    (h : Called rd rd') : ∃ pos', Stands pos' (data.drop pos') rd' ∧ Walk pos' (data.drop pos') [] := by
  induction h with
  | start => exact ⟨pos, hstands, hw⟩
  | call _ hread ih =>
      obtain ⟨pos', hstands', hw'⟩ := ih
      obtain ⟨r, hread', hfollows⟩ := readRecord_walk hstands' hw'
      rw [hread] at hread'
      cases hread'
      exact hfollows.stands

/-- Without a type byte of a sentinel the end is the end. -/
theorem endMeansEnd_of_not_reserved {data : Bytes} (hres : ∀ i ∈ fileItems data, ¬ Reserved i) :
    EndMeansEnd data := by
  intro rd d rd' hcalled hread
  obtain ⟨pos, pre, is, calls, hstands, hw, hitems, hrep, hsub⟩ := hcalled.reported hres
  have his : ∀ i ∈ is, ¬ Reserved i := by
    intro i hi
    refine hres i ?_
    rw [hitems]
    exact List.mem_append_right pre hi
  obtain ⟨r, hread', hfollows⟩ := readRecord_walk hstands hw
  rw [hread] at hread'
  cases hread'
  obtain ⟨js, hjs, hsub', hend⟩ := nextRecord_sublist none is his
  have hnone : (nextRecord none is).2.1 = none := by
    have hmore : false = (nextRecord none is).2.1.isSome := hfollows.more
    exact Option.isSome_eq_false_iff.mp hmore.symm |> Option.isNone_iff_eq_none.mp
  have hempty := hend hnone
  have hat : At 0 [] rd' := hfollows.atEnd (fun i hi he => his i hi (.inl he)) hnone
  refine ⟨⟨?_, ?_⟩, ?_, calls ++ (nextRecord none is).1, ?_, ?_⟩
  · rw [hat.eof]
    rfl
  · rw [hat.buffer]
    decide
  · intro rd₁ more d' rd₂ hcalled₁ hread₁
    obtain ⟨pos', hstands', hw'⟩ := hfollows.stands
    rw [hempty] at hw'
    obtain ⟨pos₁, hstands₁, hw₁⟩ := hcalled₁.atEnd hstands' hw'
    obtain ⟨r, hread'', hfollows₁⟩ := readRecord_walk hstands₁ hw₁
    rw [hread₁] at hread''
    cases hread''
    exact hfollows₁.more
  · rw [hfollows.reports, hrep]
    rfl
  · have hall : fileItems data = pre ++ js := by
      rw [hempty, List.append_nil] at hjs
      rw [← hjs]
      exact hitems
    rw [hall, List.filterMap_append, List.map_append]
    exact hsub.append hsub'

/-! ## The type bytes of the sentinels -/

/-- No call reports a physical record whose type byte is that of a sentinel. -/
theorem Called.silent {data : Bytes} {rd : Reader}
    (h : Called (Reader.new ⟨data, []⟩ (some []) true 0) rd) :
    ∃ calls, rd.reporter = some calls ∧ Silent calls := by
  induction h with
  | start => exact ⟨[], rfl, silent_nil⟩
  | call hcalled hread ih =>
      obtain ⟨calls, hrep, hsilent⟩ := ih
      obtain ⟨pos, is, hstands, hw⟩ := hcalled.stands
      obtain ⟨r, hread', hfollows⟩ := readRecord_walk hstands hw
      rw [hread] at hread'
      cases hread'
      refine ⟨calls ++ (nextRecord none is).1, ?_, ?_⟩
      · rw [hfollows.reports, hrep]
        rfl
      · exact silent_append.mpr ⟨hsilent, silent_nextRecord hw none⟩

/-- Calls of `read_record` get to one that returns false. -/
theorem exists_called_false {data : Bytes} (n : Nat) {rd₀ rd : Reader} {pos : Nat}
    {is : List Item} (hcalled : Called rd₀ rd) (hstands : Stands pos (data.drop pos) rd)
    (hw : Walk pos (data.drop pos) is) (hn : is.length < n) :
    ∃ rd₁ d rd₂, Called rd₀ rd₁ ∧ rd₁.readRecord = .ok (false, d, rd₂) := by
  induction n generalizing rd pos is with
  | zero => omega
  | succ n ih =>
      obtain ⟨⟨more, d, rd'⟩, hread, hfollows⟩ := readRecord_walk hstands hw
      cases more with
      | false => exact ⟨rd, d, rd', hcalled, hread⟩
      | true =>
          have hmore : true = (nextRecord none is).2.1.isSome := hfollows.more
          have hlt := nextRecord_length none is (Option.isSome_iff_ne_none.mp hmore.symm)
          obtain ⟨pos', hstands', hw'⟩ := hfollows.stands
          exact ih (hcalled.call hread) hstands' hw' (by omega)

/-- A type byte of a sentinel is not reported. -/
theorem not_endMeansEnd_of_reserved {data : Bytes} {i : Item} (hi : i ∈ fileItems data)
    (hres : Reserved i) : ¬ EndMeansEnd data := by
  intro hend
  obtain ⟨rd, d, rd', hcalled, hread⟩ := @exists_called_false data _ _ _ 0 _ .start
    (stands_new data (some [])) (walk_fileItems data) (Nat.lt_succ_self _)
  obtain ⟨-, -, calls, hrep, hsub⟩ := hend rd d rd' hcalled hread
  obtain ⟨calls', hrep', hsilent⟩ := (hcalled.call hread).silent
  rw [hrep] at hrep'
  cases hrep'
  have hreport : ∃ c, (c = 5#8 ∨ c = 6#8) ∧ unknownReport i = some (unknownType c) := by
    cases i with
    | bad p cs => rcases hres with hres | hres <;> cases hres
    | record p type payload =>
        rcases hres with hres | hres
        · obtain rfl : type = 5#8 := Option.some.inj hres
          exact ⟨5#8, .inl rfl, rfl⟩
        · obtain rfl : type = 6#8 := Option.some.inj hres
          exact ⟨6#8, .inr rfl, rfl⟩
  obtain ⟨c, hc, hreport⟩ := hreport
  have hmem : unknownType c ∈ calls.map Prod.snd :=
    hsub.subset (List.mem_filterMap.mpr ⟨i, hi, hreport⟩)
  obtain ⟨call, hcall, heq⟩ := List.mem_map.mp hmem
  rcases hc with rfl | rfl
  · exact (hsilent call hcall).1 heq
  · exact (hsilent call hcall).2 heq

/-- **When the end means the end**: exactly when no complete physical record of the file has the
type byte 5 or 6. -/
theorem endMeansEnd_iff (data : Bytes) :
    EndMeansEnd data ↔ ∀ i ∈ fileItems data, i.type? ≠ some 5#8 ∧ i.type? ≠ some 6#8 := by
  constructor
  · intro hend i hi
    constructor
    · exact fun h => not_endMeansEnd_of_reserved hi (.inl h) hend
    · exact fun h => not_endMeansEnd_of_reserved hi (.inr h) hend
  · intro h
    refine endMeansEnd_of_not_reserved fun i hi hres => ?_
    rcases hres with hres | hres
    · exact (h i hi).1 hres
    · exact (h i hi).2 hres

/-- A physical record of type 5 hides the record "ab" behind it from a reader that stops at the
first false. -/
theorem not_endMeansEnd_five : ¬ EndMeansEnd (physical 5#8 [] ++ physical 1#8 (text "ab")) := by
  have hstep := @step_physical_append 0 5#8 [] [] (physical 1#8 (text "ab")) (by decide) (by decide)
    rfl
  refine not_endMeansEnd_of_reserved (i := .record 0 5#8 []) ?_ (.inl rfl)
  rw [List.nil_append] at hstep
  rw [fileItems, items, hstep]
  exact List.mem_cons_self

end Reader

end SimpleLeveldb.Log
