import SimpleLeveldb.SkipList.Concurrent
import Mathlib.Logic.Relation

set_option autoImplicit false

/-! # Runs of a writer with readers

Every step of the writer and of the readers keeps the invariant `Inv`: the list represents entries
that only grow, the writer is where `insert` should be, and every reader stands where it can go on.
A search returns what it would have returned had it run at the moment of its last load
(`reads_are_atomic`). A scan has no such moment, but it visits ascending keys and misses none that was
in the list when it began (`scan_visits`).
-/

namespace SimpleLeveldb

namespace SkipList

variable {Key ι : Type} {compare : Key → Key → Int} {sl : SkipList Key}
  {S S' L R : List (Entry Key)} {inserted known : List Key} {turns : Nat} {key : Key}
  {height i : Nat} {prev : Nat → Option NodePtr} {x : NodePtr}

/-! ## The writer -/

/-- The entries of the keys that were inserted, each of them linked. -/
structure Inserted (inserted : List Key) (S : List (Entry Key)) : Prop where
  keys : (S.map Entry.key).Perm inserted
  linked : ∀ e ∈ S, 0 < e.levels

/-- What `insert` knows of its place, and of the height of its node. -/
structure Placed (inserted : List Key) (maxHeight height : Nat) (prev : Nat → Option NodePtr)
    (L R : List (Entry Key)) : Prop where
  inserted : Inserted inserted (L ++ R)
  range : 0 < height ∧ height ≤ maxHeight
  predecessors : ∀ i < height, prev i = some (predecessor L i)

/-- The writer is where `insert` comes to, with the list `sl` and the entries `S`. -/
def WriterPhase.Sound (compare : Key → Key → Int) (sl : SkipList Key) (inserted : List Key)
    (S : List (Entry Key)) : WriterPhase Key → Prop
  | .idle => Inserted inserted S
  | .raised key height prev => key ∉ inserted
      ∧ ∃ L R, S = L ++ R ∧ Place compare key L R ∧ Placed inserted sl.maxHeight height prev L R
  | .linking key height prev x i => i ≤ height
      ∧ ∃ L R, S = L ++ ⟨x, key, i⟩ :: R ∧ Placed inserted sl.maxHeight height prev L R
        ∧ ∃ n, sl.nodes x = some n ∧ n.height = height
  | .half key height prev x i => i < height
      ∧ ∃ L R, S = L ++ ⟨x, key, i⟩ :: R ∧ Placed inserted sl.maxHeight height prev L R
        ∧ (∃ n, sl.nodes x = some n ∧ n.height = height)
        ∧ sl.link i x = some (nodesAt i R).head?

theorem Inserted.exists_of_mem (h : Inserted inserted S) {k : Key} (hk : k ∈ inserted) :
    ∃ e ∈ S, 0 < e.levels ∧ e.key = k := by
  obtain ⟨e, he, rfl⟩ := List.mem_map.mp (h.keys.mem_iff.mpr hk)
  exact ⟨e, he, h.linked e he, rfl⟩

theorem Inserted.key_mem (h : Inserted inserted S) {e : Entry Key} (he : e ∈ S) :
    e.key ∈ inserted :=
  h.keys.mem_iff.mp (List.mem_map_of_mem he)

theorem Inserted.length (h : Inserted inserted S) : S.length = inserted.length := by
  rw [← h.keys.length_eq, List.length_map]

/-- The entries are those of the keys whose inserts are over, and perhaps the one of the insert that is
under way. -/
theorem WriterPhase.Sound.entries {w : WriterPhase Key} (h : w.Sound compare sl inserted S) :
    (∀ k ∈ inserted, ∃ e ∈ S, 0 < e.levels ∧ e.key = k)
      ∧ (∀ e ∈ S, e.key ∈ inserted ++ w.current)
      ∧ S.length ≤ (inserted ++ w.current).length := by
  have hold : ∀ {S : List (Entry Key)} (more : List Key), Inserted inserted S →
      (∀ k ∈ inserted, ∃ e ∈ S, 0 < e.levels ∧ e.key = k)
        ∧ (∀ e ∈ S, e.key ∈ inserted ++ more) ∧ S.length ≤ (inserted ++ more).length := by
    intro S more hins
    refine ⟨fun k hk => hins.exists_of_mem hk,
      fun e he => List.mem_append_left more (hins.key_mem he), ?_⟩
    rw [hins.length, List.length_append]
    exact Nat.le_add_right _ _
  -- the entry of the new key stands between the others
  have hnew : ∀ {L R : List (Entry Key)} {x : NodePtr} {key : Key} {i : Nat},
      Inserted inserted (L ++ R) →
      (∀ k ∈ inserted, ∃ e ∈ L ++ ⟨x, key, i⟩ :: R, 0 < e.levels ∧ e.key = k)
        ∧ (∀ e ∈ L ++ ⟨x, key, i⟩ :: R, e.key ∈ inserted ++ [key])
        ∧ (L ++ ⟨x, key, i⟩ :: R).length ≤ (inserted ++ [key]).length := by
    intro L R x key i hins
    refine ⟨fun k hk => ?_, fun e he => ?_, ?_⟩
    · obtain ⟨e, he, hlinked⟩ := hins.exists_of_mem hk
      refine ⟨e, ?_, hlinked⟩
      rw [List.mem_append, List.mem_cons]
      exact (List.mem_append.mp he).imp_right .inr
    · rw [List.mem_append, List.mem_cons] at he
      rw [List.mem_append, List.mem_singleton]
      rcases he with he | rfl | he
      · exact .inl (hins.key_mem (List.mem_append_left R he))
      · exact .inr rfl
      · exact .inl (hins.key_mem (List.mem_append_right L he))
    · have hlen := hins.length
      simp only [List.length_append, List.length_cons, List.length_nil] at hlen ⊢
      omega
  cases w with
  | idle => exact hold [] h
  | raised key height prev =>
      obtain ⟨-, L, R, rfl, -, hplaced⟩ := h
      exact hold [key] hplaced.inserted
  | linking key height prev x i =>
      obtain ⟨-, L, R, rfl, hplaced, -⟩ := h
      exact hnew hplaced.inserted
  | half key height prev x i =>
      obtain ⟨-, L, R, rfl, hplaced, -⟩ := h
      exact hnew hplaced.inserted

/-- **The first part of `insert`** finds the place, and raises the height of the list. -/
theorem Rep.begin (h : Rep compare sl S) (hcmp : Ordered compare) (hins : Inserted inserted S)
    (hkey : key ∉ inserted) (hheight : 0 < height ∧ height ≤ kMaxHeight) :
    ∃ y prev, sl.findGreaterOrEqual compare key (fun _ => none) = .ok (y, prev)
      ∧ sl.assertNew compare key y = .ok ()
      ∧ (WriterPhase.raised key height (extendPrev sl.maxHeight height prev)).Sound compare
        (sl.raise height) inserted S := by
  obtain ⟨L, R, rfl, hplace⟩ := exists_place hcmp key h.sorted
  obtain ⟨⟨y, prev⟩, hfind, hy, hprev⟩ := h.findGreaterOrEqual hplace fun _ => none
  have hR : ∀ e ∈ R, e.key ≠ key := by
    rintro e he rfl
    exact hkey (hins.key_mem (List.mem_append_right L he))
  refine ⟨y, prev, hfind, ?_, hkey, L, R, rfl, hplace, hins, ⟨hheight.1, le_max_right _ _⟩,
    fun i hi => ?_⟩
  · rw [show y = (nodesAt 0 R).head? from hy]
    exact h.assertNew hcmp hR 0
  · by_cases hmax : sl.maxHeight ≤ i
    · -- a level that was empty
      have hnil : nodesAt i L = [] := nodesAt_eq_nil fun e he =>
        (h.levels e (List.mem_append_left R he)).trans hmax
      rw [extendPrev, if_pos ⟨hmax, hi⟩, predecessor, hnil]
      rfl
    · rw [extendPrev, if_neg fun hc => hmax hc.1]
      exact hprev i (not_le.mp hmax)

/-! ## The invariant -/

/-- **The invariant** of a list with its writer and its readers. -/
structure Inv (compare : Key → Key → Int) (st : Shared ι Key) (S : List (Entry Key)) : Prop where
  rep : Rep compare st.list S
  writer : st.writer.Sound compare st.list st.inserted S
  readers : ∀ i r, st.readers i = some r → (∀ k ∈ r.known, k ∈ st.inserted)
    ∧ r.position.Sound compare st.list.maxHeight S r.known r.turns

theorem Inv.linked {st : Shared ι Key} (h : Inv compare st S) {i : ι} {r : Reading Key}
    (hr : st.readers i = some r) : ∀ k ∈ r.known, ∃ e ∈ S, 0 < e.levels ∧ e.key = k :=
  fun k hk => h.writer.entries.1 k ((h.readers i r hr).1 k hk)

theorem inv_new {zero : Key} {list : SkipList Key} (h : new zero = .ok list) :
    Inv compare (⟨list, .idle, fun _ => none, []⟩ : Shared ι Key) [] := by
  obtain ⟨list', hnew, S, hrep, hpos, hperm⟩ := new_holds compare zero
  obtain rfl := Except.ok.inj (h.symm.trans hnew)
  obtain rfl := List.map_eq_nil_iff.mp (List.Perm.eq_nil hperm)
  exact ⟨hrep, ⟨hperm, hpos⟩, nofun⟩

/-- A step of the writer. -/
theorem Inv.advance {st : Shared ι Key} (h : Inv compare st S) {list : SkipList Key}
    {writer : WriterPhase Key} {inserted : List Key} (hrep : Rep compare list S')
    (hwriter : writer.Sound compare list inserted S') (hgrown : Grown S S')
    (hmax : st.list.maxHeight ≤ list.maxHeight) (hins : ∀ k ∈ st.inserted, k ∈ inserted) :
    Inv compare { st with list := list, writer := writer, inserted := inserted } S' := by
  refine ⟨hrep, hwriter, fun i r hr => ?_⟩
  obtain ⟨hknown, hposition⟩ := h.readers i r hr
  exact ⟨fun k hk => hins k (hknown k hk), hposition.grown hgrown hmax⟩

theorem Shared.setReader_self [DecidableEq ι] (st : Shared ι Key) (i : ι) (r : Option (Reading Key)) :
    (st.setReader i r).readers i = r :=
  Function.update_self _ _ _

/-- A step of a reader. -/
theorem Inv.setReader [DecidableEq ι] {st : Shared ι Key} (h : Inv compare st S) {i : ι}
    {r : Option (Reading Key)} (hr : ∀ r', r = some r' → (∀ k ∈ r'.known, k ∈ st.inserted)
      ∧ r'.position.Sound compare st.list.maxHeight S r'.known r'.turns) :
    Inv compare (st.setReader i r) S := by
  refine ⟨h.rep, h.writer, fun j r' hr' => ?_⟩
  have hreaders : (st.setReader i r).readers j = if j = i then r else st.readers j :=
    Function.update_apply _ _ _ _
  rw [hreaders] at hr'
  split_ifs at hr' with hj
  · exact hr r' hr'
  · exact h.readers j r' hr'

/-! ## The readers -/

theorem start_sound (hrep : Rep compare sl S) (hcmp : Ordered compare)
    (hknown : ∀ k ∈ known, ∃ e ∈ S, 0 < e.levels ∧ e.key = k) (c : ReaderCall Key) :
    ∃ p, start sl c = .ok p ∧ p.call = c ∧ p.Sound compare sl.maxHeight S known 0 := by
  have hmax := hrep.maxHeight
  have hlevel : sl.maxHeight - 1 < sl.maxHeight := by omega
  have hlevel' : sl.maxHeight - 1 < kMaxHeight := by omega
  cases c with
  | contains key => exact ⟨_, rfl, rfl, hlevel, stands_head S _ hlevel'⟩
  | seek target => exact ⟨_, rfl, rfl, hlevel, stands_head S _ hlevel'⟩
  | prev key => exact ⟨_, rfl, rfl, hlevel, stands_head S _ hlevel'⟩
  | seekToLast => exact ⟨_, rfl, rfl, hlevel, stands_head S _ hlevel'⟩
  | scan =>
      obtain ⟨it, hfirst, hscan⟩ := scans_start hrep hcmp hknown
      exact ⟨.scan it [], by rw [start, hfirst]; rfl, rfl, hscan⟩

/-- What a call returns, with the list and the entries at its last load. -/
def Returned (compare : Key → Key → Int) (sl : SkipList Key) (S : List (Entry Key))
    (known : List Key) : ReaderCall Key → Answer Key → Prop
  | .scan, a => ∃ keys, a = .visited keys ∧ keys.Pairwise (fun a b => compare a b < 0)
      ∧ (∀ k ∈ known, k ∈ keys) ∧ ∀ k ∈ keys, ∃ e ∈ S, 0 < e.levels ∧ e.key = k
  | c, a => atomically compare sl c = .ok a

/-- **A turn** goes on to a position where the call can go on, or returns what the call is for. -/
theorem turn_sound (hrep : Rep compare sl S) (hcmp : Ordered compare)
    (hknown : ∀ k ∈ known, ∃ e ∈ S, 0 < e.levels ∧ e.key = k) {p : Position Key}
    (hp : p.Sound compare sl.maxHeight S known turns) :
    (∃ p', turn compare sl p = .ok (.inl p') ∧ p'.call = p.call
        ∧ p'.Sound compare sl.maxHeight S known (turns + 1))
      ∨ ∃ a, turn compare sl p = .ok (.inr a) ∧ Returned compare sl S known p.call a := by
  cases p with
  | contains key s =>
      obtain ⟨L, R, rfl, hplace⟩ := exists_place hcmp key hrep.sorted
      rcases hp.2.searchTurn hrep hplace hp.1 with ⟨s', hturn, hs'⟩ | ⟨prev, hturn⟩
      · exact .inl ⟨.contains key s', by rw [turn, hturn]; rfl, rfl, hs'⟩
      · right
        obtain ⟨⟨y, prev'⟩, hfind, hy, -⟩ := hrep.findGreaterOrEqual hplace fun _ => none
        obtain ⟨b, hb, -⟩ := hrep.contains hcmp key
        have hat : containsAt compare sl key (nodesAt 0 R).head? = .ok b := by
          rw [← hb, SkipList.contains, hfind, ok_bind, ← hy]
          cases y <;> rfl
        refine ⟨.found b, ?_, ?_⟩
        · rw [turn, hturn, ok_bind]
          simp only [hat]
          rfl
        · show atomically compare sl (.contains key) = .ok (.found b)
          rw [atomically, hb]
          rfl
  | seek target s =>
      obtain ⟨L, R, rfl, hplace⟩ := exists_place hcmp target hrep.sorted
      rcases hp.2.searchTurn hrep hplace hp.1 with ⟨s', hturn, hs'⟩ | ⟨prev, hturn⟩
      · exact .inl ⟨.seek target s', by rw [turn, hturn]; rfl, rfl, hs'⟩
      · right
        obtain ⟨⟨y, prev'⟩, hfind, hy, -⟩ := hrep.findGreaterOrEqual hplace fun _ => none
        refine ⟨.iterator ⟨(nodesAt 0 R).head?⟩, by rw [turn, hturn]; rfl, ?_⟩
        show atomically compare sl (.seek target) = _
        rw [atomically, Iterator.seek, hfind, ← hy]
        rfl
  | prev key s =>
      obtain ⟨L, R, rfl, hplace⟩ := exists_place hcmp key hrep.sorted
      rcases hp.2.lessThanTurn hrep hplace hp.1 with ⟨s', hturn, hs'⟩ | hturn
      · exact .inl ⟨.prev key s', by rw [turn, hturn]; rfl, rfl, hs'⟩
      · right
        refine ⟨.iterator (Iterator.ofSearch (predecessor L 0)), by rw [turn, hturn]; rfl, ?_⟩
        show atomically compare sl (.prev key) = _
        rw [atomically, hrep.findLessThan hplace]
        rfl
  | seekToLast s =>
      rcases hp.2.lastTurn hrep hp.1 with ⟨s', hturn, hs'⟩ | hturn
      · exact .inl ⟨.seekToLast s', by rw [turn, hturn]; rfl, rfl, hs'⟩
      · right
        refine ⟨.iterator (Iterator.ofSearch (predecessor S 0)), by rw [turn, hturn]; rfl, ?_⟩
        show atomically compare sl .seekToLast = _
        rw [atomically, Iterator.seekToLast, hrep.findLast]
        rfl
  | scan it visited =>
      have hscan : Scans compare S known it visited turns := hp
      rcases hscan.turn hrep hcmp hknown with ⟨it', visited', hturn, hscan'⟩ | ⟨hturn, hnone⟩
      · exact .inl ⟨.scan it' visited', by rw [turn, hturn]; rfl, rfl, hscan'⟩
      · exact .inr ⟨.visited visited, by rw [turn, hturn]; rfl, visited, rfl, hscan.ascending,
          hscan.atEnd hnone, hscan.listed⟩

/-! ## The steps -/

variable [DecidableEq ι] {st : Shared ι Key} {zero : Key}

/-- **Every step** returns, with the invariant: no assertion fails, and no link is read that was never
written. -/
theorem Inv.step (h : Inv compare st S) (hcmp : Ordered compare) {r : Except Fault (Shared ι Key)}
    (hstep : Step compare st r) : ∃ st' S', r = .ok st' ∧ Inv compare st' S' := by
  have hwriter := h.writer
  cases hstep with
  | @begin key height hidle hkey hpos hle =>
      rw [hidle] at hwriter
      obtain ⟨y, prev, hfind, hassert, hraised⟩ := h.rep.begin hcmp hwriter hkey ⟨hpos, hle⟩
      refine ⟨_, S, ?_, h.advance (h.rep.raise hle) hraised (grown_refl S) (le_max_left _ _)
        fun k hk => hk⟩
      simp only [hfind, ok_bind, hassert]
      rfl
  | @allocate key height prev hraised =>
      rw [hraised] at hwriter
      obtain ⟨hkey, L, R, rfl, hplace, hplaced⟩ := hwriter
      have hR : ∀ e ∈ R, e.key ≠ key := by
        rintro e he rfl
        exact hkey (hplaced.inserted.key_mem (List.mem_append_right L he))
      refine ⟨_, _, rfl, h.advance (h.rep.newNode hcmp hplace hR) ?_
        ((grown_cons _ R).append_left L) (le_refl _) fun k hk => hk⟩
      exact ⟨Nat.zero_le _, L, R, rfl, hplaced, _, Function.update_self _ _ _, rfl⟩
  | @storeNew key height prev x i hlinking hi =>
      rw [hlinking] at hwriter
      obtain ⟨-, L, R, rfl, hplaced, n, hn, rfl⟩ := hwriter
      have hmax := h.rep.maxHeight
      have hrange := hplaced.range
      obtain ⟨list, hstore, hrep, hrel, hlink⟩ := h.rep.storeNew hn hi (by omega)
        (hplaced.predecessors i hi)
      obtain ⟨n', hn', -, hheight⟩ := hrel.nodes x n hn
      refine ⟨_, _, by rw [hstore]; rfl, h.advance hrep ?_ (grown_refl _) hrel.maxHeight.ge
        fun k hk => hk⟩
      exact ⟨hi, L, R, rfl, hrel.maxHeight ▸ hplaced, ⟨n', hn', hheight⟩, hlink⟩
  | @storePrev key height prev x i hhalf =>
      rw [hhalf] at hwriter
      obtain ⟨hi, L, R, rfl, hplaced, ⟨n, hn, rfl⟩, hlink⟩ := hwriter
      have hrange := hplaced.range
      obtain ⟨list, hstore, hrep, hrel⟩ := h.rep.storePrev hn hi (by omega)
        (hplaced.predecessors i hi) hlink
      obtain ⟨n', hn', -, hheight⟩ := hrel.nodes x n hn
      have hsame : Entry.Same ⟨x, key, i⟩ ⟨x, key, i + 1⟩ := ⟨rfl, rfl, Nat.le_succ i⟩
      have hgrown : Grown (L ++ ⟨x, key, i⟩ :: R) (L ++ ⟨x, key, i + 1⟩ :: R) :=
        Grown.append_left (.cons hsame (grown_refl R)) L
      refine ⟨_, _, by rw [hstore]; rfl, h.advance hrep ?_ hgrown hrel.maxHeight.ge fun k hk => hk⟩
      exact ⟨hi, L, R, rfl, hrel.maxHeight ▸ hplaced, n', hn', hheight⟩
  | @finish key height prev x hlinking =>
      rw [hlinking] at hwriter
      obtain ⟨-, L, R, rfl, hplaced, -⟩ := hwriter
      refine ⟨_, _, rfl, h.advance h.rep ⟨?_, fun e he => ?_⟩ (grown_refl _) (le_refl _)
        fun k hk => List.mem_append_left _ hk⟩
      · have hperm := hplaced.inserted.keys
        rw [List.map_append] at hperm
        rw [List.map_append, List.map_cons]
        exact List.perm_middle.trans ((hperm.cons key).trans (List.perm_append_singleton key _).symm)
      · rw [List.mem_append, List.mem_cons] at he
        rcases he with he | rfl | he
        · exact hplaced.inserted.linked e (List.mem_append_left R he)
        · exact hplaced.range.1
        · exact hplaced.inserted.linked e (List.mem_append_right L he)
  | @call i c hnone =>
      obtain ⟨p, hstart, -, hp⟩ := start_sound h.rep hcmp hwriter.entries.1 c
      refine ⟨_, S, by rw [hstart]; rfl, h.setReader ?_⟩
      rintro r' heq
      obtain rfl := Option.some.inj heq
      exact ⟨fun k hk => hk, hp⟩
  | @turn i r hr =>
      obtain ⟨hknown, hp⟩ := h.readers i r hr
      rcases turn_sound h.rep hcmp (h.linked hr) hp with ⟨p', hturn, -, hp'⟩ | ⟨a, hturn, -⟩
      · refine ⟨_, S, by rw [hturn]; rfl, h.setReader ?_⟩
        rintro r' heq
        obtain rfl := Option.some.inj heq
        exact ⟨hknown, hp'⟩
      · refine ⟨_, S, by rw [hturn]; rfl, h.setReader ?_⟩
        rintro r' heq
        cases heq

theorem Reachable.inv (h : Reachable compare zero st) (hcmp : Ordered compare) :
    ∃ S, Inv compare st S := by
  induction h with
  | new hnew => exact ⟨[], inv_new hnew⟩
  | step _ hstep ih =>
      obtain ⟨S, hinv⟩ := ih
      obtain ⟨st', S', heq, hinv'⟩ := hinv.step hcmp hstep
      cases heq
      exact ⟨S', hinv'⟩

/-! ## How long a call takes -/

/-- The turns of a call are as many as the entries and levels that it has passed. -/
theorem Position.Sound.turns_lt {maxHeight : Nat} {p : Position Key}
    (h : p.Sound compare maxHeight S known turns) (hcmp : Ordered compare) :
    turns < S.length + kMaxHeight := by
  cases p with
  | contains key s => exact h.2.turns_lt
  | seek target s => exact h.2.turns_lt
  | prev key s => exact h.2.turns_lt
  | seekToLast s => exact h.2.turns_lt
  | scan it visited =>
      have hscan : Scans compare S known it visited turns := h
      have hnodup : visited.Nodup := hscan.ascending.imp fun hlt => by
        rintro rfl
        exact hcmp.irrefl _ hlt
      have hsub : visited ⊆ S.map Entry.key := by
        intro k hk
        obtain ⟨e, he, -, rfl⟩ := hscan.listed k hk
        exact List.mem_map_of_mem he
      have hle := (hnodup.subperm hsub).length_le
      rw [List.length_map, ← hscan.turns] at hle
      exact hle.trans_lt (Nat.lt_add_of_pos_right (by decide))

/-- However the writer is scheduled, a call takes at most as many turns as there are keys whose
inserts have begun, and 12 more. -/
theorem Reachable.turns_lt (h : Reachable compare zero st) (hcmp : Ordered compare) {i : ι}
    {r : Reading Key} (hr : st.readers i = some r) : r.turns + 1 ≤ st.begun.length + kMaxHeight := by
  obtain ⟨S, hinv⟩ := h.inv hcmp
  have hlt := (hinv.readers i r hr).2.turns_lt hcmp
  have hlen : S.length ≤ st.begun.length := hinv.writer.entries.2.2
  omega

/-! ## Steps of the writer alone, and of one reader alone -/

/-- A step in which no reader moves is one of the writer. -/
def WriterStep (compare : Key → Key → Int) (st st' : Shared ι Key) : Prop :=
  Step compare st (.ok st') ∧ st'.readers = st.readers

/-- A turn of the reader `i` from which its call goes on. Nothing but the reader changes. -/
def ReaderTurn (compare : Key → Key → Int) (i : ι) (st st' : Shared ι Key) : Prop :=
  ∃ r p, st.readers i = some r ∧ turn compare st.list r.position = .ok (.inl p)
    ∧ st' = st.setReader i (some ⟨p, r.known, r.turns + 1⟩)

theorem ReaderTurn.step {st st' : Shared ι Key} {i : ι} (h : ReaderTurn compare i st st') :
    Step compare st (.ok st') := by
  obtain ⟨r, p, hr, hturn, rfl⟩ := h
  have hstep : Step compare st _ := .turn hr
  rwa [hturn] at hstep

/-- Steps of one kind. -/
theorem Reachable.steps {R : Shared ι Key → Shared ι Key → Prop} {st st' : Shared ι Key}
    (h : Reachable compare zero st) (hR : ∀ st st', R st st' → Step compare st (.ok st'))
    (hsteps : Relation.ReflTransGen R st st') : Reachable compare zero st' := by
  induction hsteps with
  | refl => exact h
  | tail _ hstep ih => exact ih.step (hR _ _ hstep)

theorem Reachable.writerSteps {st' : Shared ι Key} (h : Reachable compare zero st)
    (hsteps : Relation.ReflTransGen (WriterStep compare) st st') : Reachable compare zero st' :=
  h.steps (fun _ _ => And.left) hsteps

theorem readers_of_writerSteps {st' : Shared ι Key}
    (hsteps : Relation.ReflTransGen (WriterStep compare) st st') : st'.readers = st.readers := by
  induction hsteps with
  | refl => rfl
  | tail _ hstep ih => exact hstep.2.trans ih

theorem writer_of_readerTurns {st' : Shared ι Key} {i : ι}
    (hturns : Relation.ReflTransGen (ReaderTurn compare i) st st') :
    st'.writer = st.writer ∧ st'.inserted = st.inserted := by
  induction hturns with
  | refl => exact ⟨rfl, rfl⟩
  | tail _ hturn ih =>
      obtain ⟨r, p, -, -, rfl⟩ := hturn
      exact ih

/-! ## Nobody waits for the others -/

/-- The store to a link of the new node. -/
theorem Reachable.exists_half (h : Reachable compare zero st) (hcmp : Ordered compare)
    (hlinking : st.writer = .linking key height prev x i) (hi : i < height) :
    ∃ st', WriterStep compare st st' ∧ st'.writer = .half key height prev x i
      ∧ st'.inserted = st.inserted := by
  obtain ⟨S, hinv⟩ := h.inv hcmp
  have hstep : Step compare st _ := .storeNew hlinking hi
  obtain ⟨st₁, S₁, heq, -⟩ := hinv.step hcmp hstep
  rw [heq] at hstep
  obtain ⟨list, -, hst₁⟩ := bind_eq_ok.mp heq
  cases hst₁
  exact ⟨_, ⟨hstep, rfl⟩, rfl, rfl⟩

/-- The store to the link before it. -/
theorem Reachable.exists_level (h : Reachable compare zero st) (hcmp : Ordered compare)
    (hhalf : st.writer = .half key height prev x i) :
    ∃ st', WriterStep compare st st' ∧ st'.writer = .linking key height prev x (i + 1)
      ∧ st'.inserted = st.inserted := by
  obtain ⟨S, hinv⟩ := h.inv hcmp
  have hstep : Step compare st _ := .storePrev hhalf
  obtain ⟨st₁, S₁, heq, -⟩ := hinv.step hcmp hstep
  rw [heq] at hstep
  obtain ⟨list, -, hst₁⟩ := bind_eq_ok.mp heq
  cases hst₁
  exact ⟨_, ⟨hstep, rfl⟩, rfl, rfl⟩

/-- The writer goes on to the end of the loop of `insert`. -/
theorem Reachable.exists_linked (h : Reachable compare zero st) (hcmp : Ordered compare)
    (hlinking : st.writer = .linking key height prev x i) (hi : i ≤ height) :
    ∃ st', Relation.ReflTransGen (WriterStep compare) st st'
      ∧ st'.writer = .linking key height prev x height ∧ st'.inserted = st.inserted := by
  obtain ⟨n, hn⟩ := Nat.exists_eq_add_of_le hi
  -- by induction on the levels that are left
  induction n generalizing i st with
  | zero => exact ⟨st, .refl, by rw [hlinking, hn, Nat.add_zero], rfl⟩
  | succ n ih =>
      obtain ⟨st₁, hstep₁, hhalf, hinserted₁⟩ := h.exists_half hcmp hlinking (by omega)
      have h₁ := h.step hstep₁.1
      obtain ⟨st₂, hstep₂, hlinking₂, hinserted₂⟩ := h₁.exists_level hcmp hhalf
      obtain ⟨st', hsteps, hwriter, hinserted⟩ :=
        ih (h₁.step hstep₂.1) hlinking₂ (by omega) (by omega)
      refine ⟨st', .head hstep₁ (.head hstep₂ hsteps), hwriter, ?_⟩
      rw [hinserted, hinserted₂, hinserted₁]

/-- It returns from `insert`. -/
theorem Reachable.exists_finished (h : Reachable compare zero st) (hcmp : Ordered compare)
    (hlinking : st.writer = .linking key height prev x i) (hi : i ≤ height) :
    ∃ st', Relation.ReflTransGen (WriterStep compare) st st' ∧ st'.writer = .idle
      ∧ st'.inserted = st.inserted ++ [key] := by
  obtain ⟨st', hsteps, hwriter, hinserted⟩ := h.exists_linked hcmp hlinking hi
  refine ⟨_, hsteps.tail ⟨.finish hwriter, rfl⟩, rfl, ?_⟩
  rw [← hinserted]

/-- **An insert that is under way** comes to its end without the readers. -/
theorem Reachable.exists_idle (h : Reachable compare zero st) (hcmp : Ordered compare) :
    ∃ st', Relation.ReflTransGen (WriterStep compare) st st' ∧ st'.writer = .idle
      ∧ st'.inserted = st.begun := by
  obtain ⟨S, hinv⟩ := h.inv hcmp
  have hsound := hinv.writer
  rw [Shared.begun]
  cases hwriter : st.writer with
  | idle => exact ⟨st, .refl, hwriter, (List.append_nil _).symm⟩
  | raised key height prev =>
      have hstep : Step compare st _ := .allocate hwriter
      obtain ⟨st', hsteps, hends⟩ := (h.step hstep).exists_finished hcmp rfl (Nat.zero_le height)
      exact ⟨st', .head ⟨hstep, rfl⟩ hsteps, hends⟩
  | linking key height prev x i =>
      rw [hwriter] at hsound
      exact h.exists_finished hcmp hwriter hsound.1
  | half key height prev x i =>
      -- the store that is left of this level comes first
      rw [hwriter] at hsound
      have hi : i < height := hsound.1
      obtain ⟨st₁, hstep, hlinking, hinserted⟩ := h.exists_level hcmp hwriter
      rw [← hinserted]
      obtain ⟨st', hsteps, hends⟩ := (h.step hstep.1).exists_finished hcmp hlinking hi
      exact ⟨st', .head hstep hsteps, hends⟩

/-- The first step of an insert. -/
theorem Reachable.exists_raised (h : Reachable compare zero st) (hcmp : Ordered compare)
    (hidle : st.writer = .idle) (hkey : key ∉ st.inserted)
    (hheight : 0 < height ∧ height ≤ kMaxHeight) :
    ∃ st' prev, WriterStep compare st st' ∧ st'.writer = .raised key height prev
      ∧ st'.inserted = st.inserted := by
  obtain ⟨S, hinv⟩ := h.inv hcmp
  have hstep : Step compare st _ := .begin hidle hkey hheight.1 hheight.2
  obtain ⟨st₁, S₁, heq, -⟩ := hinv.step hcmp hstep
  rw [heq] at hstep
  obtain ⟨⟨y, prev⟩, -, hst₁⟩ := bind_eq_ok.mp heq
  obtain ⟨_, -, hst₁⟩ := bind_eq_ok.mp hst₁
  cases hst₁
  exact ⟨_, _, ⟨hstep, rfl⟩, rfl, rfl⟩

/-- **The insert of a new key**, behind the one that is under way. -/
theorem Reachable.exists_inserted (h : Reachable compare zero st) (hcmp : Ordered compare)
    (hkey : key ∉ st.begun) (hheight : 0 < height ∧ height ≤ kMaxHeight) :
    ∃ st', Relation.ReflTransGen (WriterStep compare) st st' ∧ st'.writer = .idle
      ∧ st'.inserted = st.begun ++ [key] := by
  obtain ⟨st₁, hsteps₁, hidle₁, hinserted₁⟩ := h.exists_idle hcmp
  have h₁ := h.writerSteps hsteps₁
  rw [← hinserted₁] at hkey
  obtain ⟨st₂, prev, hstep, hraised, hinserted₂⟩ := h₁.exists_raised hcmp hidle₁ hkey hheight
  obtain ⟨st', hsteps, hidle, hinserted⟩ := (h₁.step hstep.1).exists_idle hcmp
  refine ⟨st', (hsteps₁.tail hstep).trans hsteps, hidle, ?_⟩
  rw [hinserted, Shared.begun, hraised, hinserted₂, hinserted₁]
  rfl

/-- **A call** comes to its end without the writer and the other readers. -/
theorem Reachable.exists_returned (h : Reachable compare zero st) (hcmp : Ordered compare) {i : ι}
    {r : Reading Key} (hr : st.readers i = some r) :
    ∃ st' r' a, Relation.ReflTransGen (ReaderTurn compare i) st st'
      ∧ st'.readers i = some r' ∧ r'.position.call = r.position.call ∧ r'.known = r.known
      ∧ turn compare st'.list r'.position = .ok (.inr a) := by
  -- by induction on the turns that are left
  obtain ⟨n, hn⟩ : ∃ n, st.begun.length + kMaxHeight ≤ r.turns + n := ⟨_, Nat.le_add_left _ _⟩
  induction n generalizing st r with
  | zero =>
      have hle := h.turns_lt hcmp hr
      omega
  | succ n ih =>
      obtain ⟨S, hinv⟩ := h.inv hcmp
      rcases turn_sound hinv.rep hcmp (hinv.linked hr) (hinv.readers i r hr).2 with
        ⟨p, hturn, hcall, -⟩ | ⟨a, hturn, -⟩
      · have hstep : ReaderTurn compare i st (st.setReader i (some ⟨p, r.known, r.turns + 1⟩)) :=
          ⟨r, p, hr, hturn, rfl⟩
        have hr' : (st.setReader i (some ⟨p, r.known, r.turns + 1⟩)).readers i
            = some ⟨p, r.known, r.turns + 1⟩ := st.setReader_self i _
        obtain ⟨st', r', a, hturns, hr'', hcall', hknown, hturn'⟩ := ih (h.step hstep.step) hr'
          (by show st.begun.length + kMaxHeight ≤ r.turns + 1 + n; omega)
        exact ⟨st', r', a, .head hstep hturns, hr'', hcall'.trans hcall, hknown, hturn'⟩
      · exact ⟨st, r, a, .refl, hr, rfl, rfl, hturn⟩

/-! ## What readers can rely on -/

/-- A reader whose call began when 5 and 9 were in the list, and a writer that has since then made one
of the two stores that link 7. -/
structure HalfLinked (st : Shared Unit Int) (r : Reading Int) (c : ReaderCall Int) : Prop where
  reachable : Reachable (fun a b => a - b) 0 st
  inserted : st.inserted = [5, 9]
  writer : ∃ prev x, st.writer = .half 7 3 prev x 0
  reader : st.readers () = some r
  call : r.position.call = c
  known : r.known = [5, 9]

theorem HalfLinked.begun {st : Shared Unit Int} {r : Reading Int} {c : ReaderCall Int}
    (h : HalfLinked st r c) : st.begun = [5, 9, 7] := by
  obtain ⟨prev, x, hwriter⟩ := h.writer
  rw [Shared.begun, h.inserted, hwriter]
  rfl

theorem exists_halfLinked (c : ReaderCall Int) : ∃ st r, HalfLinked st r c := by
  obtain ⟨list, hnew, -⟩ := new_holds (fun a b : Int => a - b) 0
  have h₀ : Reachable (fun a b : Int => a - b) 0
      (⟨list, .idle, fun _ => none, []⟩ : Shared Unit Int) := .new hnew
  -- the inserts of 5 and 9
  obtain ⟨st₁, hsteps₁, hidle₁, hinserted₁⟩ := h₀.exists_inserted ordered_sub
    (show (5 : Int) ∉ [] by decide) (show 0 < 1 ∧ 1 ≤ kMaxHeight by decide)
  have h₁ := h₀.writerSteps hsteps₁
  have hbegun₁ : st₁.begun = [5] := by
    rw [Shared.begun, hidle₁, hinserted₁]
    rfl
  obtain ⟨st₂, hsteps₂, hidle₂, hinserted₂⟩ := h₁.exists_inserted ordered_sub
    (show (9 : Int) ∉ st₁.begun by rw [hbegun₁]; decide) (show 0 < 2 ∧ 2 ≤ kMaxHeight by decide)
  have h₂ := h₁.writerSteps hsteps₂
  rw [hbegun₁] at hinserted₂
  have hinserted : st₂.inserted = [5, 9] := hinserted₂
  -- the call
  obtain ⟨S, hinv⟩ := h₂.inv ordered_sub
  obtain ⟨p, hstart, hcall, -⟩ := start_sound hinv.rep ordered_sub hinv.writer.entries.1 c
  have hnone : st₂.readers () = none := by
    rw [readers_of_writerSteps hsteps₂, readers_of_writerSteps hsteps₁]
  have hstep₃ : Step (fun a b : Int => a - b) st₂
      (.ok (st₂.setReader () (some ⟨p, st₂.inserted, 0⟩))) := by
    have hcalled : Step (fun a b : Int => a - b) st₂ _ := .call (c := c) hnone
    rwa [hstart] at hcalled
  have h₃ := h₂.step hstep₃
  -- the insert of 7, up to the first store to a link
  obtain ⟨st₄, prev, hstep₄, hraised, hinserted₄⟩ := h₃.exists_raised ordered_sub hidle₂
    (show (7 : Int) ∉ st₂.inserted by rw [hinserted]; decide) (show 0 < 3 ∧ 3 ≤ kMaxHeight by decide)
  have h₄ := h₃.step hstep₄.1
  obtain ⟨st₅, hstep₅, ⟨x, hlinking⟩, hreaders₅, hinserted₅⟩ : ∃ st₅,
      Step (fun a b : Int => a - b) st₄ (.ok st₅) ∧ (∃ x, st₅.writer = .linking 7 3 prev x 0)
        ∧ st₅.readers = st₄.readers ∧ st₅.inserted = st₄.inserted :=
    ⟨_, .allocate hraised, ⟨_, rfl⟩, rfl, rfl⟩
  obtain ⟨st₆, hstep₆, hhalf, hinserted₆⟩ :=
    (h₄.step hstep₅).exists_half ordered_sub hlinking (by decide)
  have hreader : st₆.readers () = some ⟨p, st₂.inserted, 0⟩ := by
    rw [hstep₆.2, hreaders₅, hstep₄.2]
    exact st₂.setReader_self () _
  refine ⟨st₆, _, (h₄.step hstep₅).step hstep₆.1, ?_, ⟨prev, x, hhalf⟩, hreader, hcall, hinserted⟩
  rw [hinserted₆, hinserted₅, hinserted₄]
  exact hinserted

/-- The reader goes on until its call can return, and the writer waits. -/
theorem exists_reading (c : ReaderCall Int) :
    ∃ st r a, HalfLinked st r c ∧ turn (fun a b => a - b) st.list r.position = .ok (.inr a) := by
  obtain ⟨st, r, h⟩ := exists_halfLinked c
  obtain ⟨st', r', a, hturns, hr', hcall', hknown', hturn⟩ :=
    h.reachable.exists_returned ordered_sub h.reader
  obtain ⟨hwriter, hinserted⟩ := writer_of_readerTurns hturns
  refine ⟨st', r', a, ⟨?_, hinserted.trans h.inserted, ?_, hr', hcall'.trans h.call,
    hknown'.trans h.known⟩, hturn⟩
  · exact h.reachable.steps (fun _ _ => ReaderTurn.step) hturns
  · rw [hwriter]
    exact h.writer

/-- What a call returns, with the invariant at that moment. -/
theorem Reachable.returned (h : Reachable compare zero st) (hcmp : Ordered compare) {i : ι}
    {r : Reading Key} (hr : st.readers i = some r) {a : Answer Key}
    (hturn : turn compare st.list r.position = .ok (.inr a)) :
    ∃ S, Inv compare st S ∧ Returned compare st.list S r.known r.position.call a := by
  obtain ⟨S, hinv⟩ := h.inv hcmp
  rcases turn_sound hinv.rep hcmp (hinv.linked hr) (hinv.readers i r hr).2 with
    ⟨p', hturn', -⟩ | ⟨a', hturn', hreturned⟩
  · cases hturn.symm.trans hturn'
  · cases hturn.symm.trans hturn'
    exact ⟨S, hinv, hreturned⟩

/-- **A search is atomic**: in every order of the steps, a call other than a scan returns what it
would return if it ran as a whole at the moment of its last load. -/
theorem reads_are_atomic (hcmp : Ordered compare) (h : Reachable compare zero st) :
    (∀ r, Step compare st r → ∃ st', r = .ok st')
      ∧ ∀ i r, st.readers i = some r → ∀ a, turn compare st.list r.position = .ok (.inr a) →
        r.position.call ≠ .scan → atomically compare st.list r.position.call = .ok a := by
  constructor
  · intro r hstep
    obtain ⟨S, hinv⟩ := h.inv hcmp
    obtain ⟨st', -, heq, -⟩ := hinv.step hcmp hstep
    exact ⟨st', heq⟩
  · intro i r hr a hturn hscan
    obtain ⟨S, -, hreturned⟩ := h.returned hcmp hr hturn
    cases hcall : r.position.call with
    | scan => exact absurd hcall hscan
    | _ =>
        rw [hcall] at hreturned
        exact hreturned

/-- 7 is half linked while a call of `seek` returns. -/
theorem reads_are_atomic_half_linked :
    ∃ (st : Shared Unit Int) (r : Reading Int) (a : Answer Int), HalfLinked st r (.seek 6)
      ∧ atomically (fun a b => a - b) st.list (.seek 6) = .ok a := by
  obtain ⟨st, r, a, h, hturn⟩ := exists_reading (.seek 6)
  have hatomic := (reads_are_atomic ordered_sub h.reachable).2 () r h.reader a hturn
    (by rw [h.call]; simp)
  rw [h.call] at hatomic
  exact ⟨st, r, a, h, hatomic⟩

/-- **What `contains` says beside a writer**: yes for a key whose insert was over when the call began,
and no for one whose insert has not begun when it returns. -/
theorem contains_answers (hcmp : Ordered compare) (h : Reachable compare zero st) {i : ι}
    {r : Reading Key} (hr : st.readers i = some r) {s : Search}
    (hposition : r.position = .contains key s) {a : Answer Key}
    (hturn : turn compare st.list r.position = .ok (.inr a)) :
    ∃ b, a = .found b ∧ (key ∈ r.known → b = true) ∧ (b = true → key ∈ st.begun) := by
  obtain ⟨S, hinv, hreturned⟩ := h.returned hcmp hr hturn
  obtain ⟨b, hb, hiff⟩ := hinv.rep.contains hcmp key
  rw [hposition] at hreturned
  have hatomic : atomically compare st.list (.contains key) = .ok a := hreturned
  rw [atomically, hb] at hatomic
  cases hatomic
  refine ⟨b, rfl, fun hk => hiff.mpr (hinv.linked hr key hk), fun htrue => ?_⟩
  obtain ⟨e, he, -, rfl⟩ := hiff.mp htrue
  exact hinv.writer.entries.2.1 e he

theorem contains_answers_half_linked :
    ∃ (st : Shared Unit Int) (r : Reading Int) (b : Bool), HalfLinked st r (.contains 9)
      ∧ turn (fun a b => a - b) st.list r.position = .ok (.inr (.found b)) ∧ b = true := by
  obtain ⟨st, r, a, h, hturn⟩ := exists_reading (.contains 9)
  have hcall := h.call
  cases hposition : r.position with
  | contains key s =>
      rw [hposition] at hcall
      cases hcall
      obtain ⟨b, rfl, hfound, -⟩ := contains_answers ordered_sub h.reachable h.reader hposition hturn
      rw [h.known] at hfound
      exact ⟨st, r, b, h, hposition ▸ hturn, hfound (by decide)⟩
  | _ => rw [hposition] at hcall; cases hcall

/-- **A scan beside a writer** visits keys in ascending order, every key whose insert was over when
it began, and none whose insert has not begun. -/
theorem scan_visits (hcmp : Ordered compare) (h : Reachable compare zero st) {i : ι}
    {r : Reading Key} (hr : st.readers i = some r) (hscan : r.position.call = .scan) {a : Answer Key}
    (hturn : turn compare st.list r.position = .ok (.inr a)) :
    ∃ keys, a = .visited keys ∧ keys.Pairwise (fun a b => compare a b < 0)
      ∧ (∀ k ∈ r.known, k ∈ keys) ∧ ∀ k ∈ keys, k ∈ st.begun := by
  obtain ⟨S, hinv, hreturned⟩ := h.returned hcmp hr hturn
  rw [hscan] at hreturned
  obtain ⟨keys, rfl, hascending, hknown, hlisted⟩ := hreturned
  refine ⟨keys, rfl, hascending, hknown, fun k hk => ?_⟩
  obtain ⟨e, he, -, rfl⟩ := hlisted k hk
  exact hinv.writer.entries.2.1 e he

theorem scan_visits_half_linked :
    ∃ (st : Shared Unit Int) (r : Reading Int) (keys : List Int), HalfLinked st r .scan
      ∧ turn (fun a b => a - b) st.list r.position = .ok (.inr (.visited keys))
      ∧ keys.Pairwise (fun a b => a - b < 0) ∧ 5 ∈ keys ∧ 9 ∈ keys
      ∧ ∀ k ∈ keys, k ∈ [(5 : Int), 9, 7] := by
  obtain ⟨st, r, a, h, hturn⟩ := exists_reading .scan
  obtain ⟨keys, rfl, hascending, hall, hbegun⟩ :=
    scan_visits ordered_sub h.reachable h.reader h.call hturn
  rw [h.known] at hall
  rw [h.begun] at hbegun
  exact ⟨st, r, keys, h, hturn, hascending, hall 5 (by decide), hall 9 (by decide), hbegun⟩

/-- **Nobody waits**: however the steps are scheduled, a call takes at most as many turns as there are
keys whose inserts have begun, and 12 more. From any state on, a call that is under way comes to
return by turns of its reader alone; and by steps of the writer alone the insert that is under way
comes to its end, and so does one of any new key behind it. -/
theorem nobody_waits (hcmp : Ordered compare) (h : Reachable compare zero st) :
    (∀ i r, st.readers i = some r → r.turns + 1 ≤ st.begun.length + kMaxHeight)
      ∧ (∀ i r, st.readers i = some r → ∃ st' r' a,
        Relation.ReflTransGen (ReaderTurn compare i) st st' ∧ st'.readers i = some r'
        ∧ r'.position.call = r.position.call ∧ r'.known = r.known
        ∧ turn compare st'.list r'.position = .ok (.inr a))
      ∧ (∃ st', Relation.ReflTransGen (WriterStep compare) st st' ∧ st'.writer = .idle
        ∧ st'.inserted = st.begun)
      ∧ ∀ key ∉ st.begun, ∀ height, 0 < height ∧ height ≤ kMaxHeight →
        ∃ st', Relation.ReflTransGen (WriterStep compare) st st' ∧ st'.writer = .idle
          ∧ st'.inserted = st.begun ++ [key] := by
  refine ⟨fun i r hr => h.turns_lt hcmp hr, fun i r hr => h.exists_returned hcmp hr,
    h.exists_idle hcmp, fun key hkey height hheight => ?_⟩
  exact h.exists_inserted hcmp hkey hheight

/-- 7 is half linked, and a call of `seek` is under way. -/
theorem nobody_waits_half_linked :
    ∃ (st : Shared Unit Int) (r : Reading Int), HalfLinked st r (.seek 6)
      ∧ r.turns + 1 ≤ 3 + kMaxHeight
      ∧ (∃ st' r' a, Relation.ReflTransGen (ReaderTurn (fun a b => a - b) ()) st st'
        ∧ st'.readers () = some r' ∧ r'.position.call = .seek 6
        ∧ turn (fun a b => a - b) st'.list r'.position = .ok (.inr a))
      ∧ (∃ st', Relation.ReflTransGen (WriterStep fun a b => a - b) st st' ∧ st'.writer = .idle
        ∧ st'.inserted = [5, 9, 7])
      ∧ ∃ st', Relation.ReflTransGen (WriterStep fun a b => a - b) st st' ∧ st'.writer = .idle
        ∧ st'.inserted = [5, 9, 7, 8] := by
  obtain ⟨st, r, h⟩ := exists_halfLinked (.seek 6)
  obtain ⟨hturns, hreturns, hends, hinserts⟩ := nobody_waits ordered_sub h.reachable
  obtain ⟨st', r', a, hsteps, hr', hcall, -, hturn⟩ := hreturns () r h.reader
  rw [h.begun] at hends hinserts
  have hle := hturns () r h.reader
  rw [h.begun] at hle
  refine ⟨st, r, h, hle, ⟨st', r', a, hsteps, hr', hcall.trans h.call, hturn⟩, hends, ?_⟩
  exact hinserts 8 (by decide) 4 (by decide)

end SkipList

end SimpleLeveldb
