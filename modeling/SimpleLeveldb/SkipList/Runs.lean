import SimpleLeveldb.SkipList.Insert

set_option autoImplicit false

/-! # Runs of inserts

A run starts with the constructor and inserts distinct keys, with any heights. After every insert
the chains are sound (`sound_build`); at every store of one more insert the list can be searched
(`searchable_of_intermediate`).
-/

namespace SimpleLeveldb

namespace SkipList

variable {Key : Type} {compare : Key → Key → Int} {sl st : SkipList Key} {inserted : List Key}
  {key zero : Key} {height : Nat}

/-! ## What holds after an insert -/

/-- `l` is the chain at a level, with the keys of its nodes, and is strictly ascending. -/
structure ChainAt (compare : Key → Key → Int) (sl : SkipList Key) (i : Nat)
    (l : List (NodePtr × Key)) : Prop where
  chain : Chain.IsChain (sl.link i) head (l.map Prod.fst)
  keys : ∀ e ∈ l, ∃ n, sl.nodes e.1 = some n ∧ n.key = e.2
  ascending : l.Pairwise fun a b => compare a.2 b.2 < 0

/-- **The invariant of the list** and what `contains` says. -/
structure Sound (compare : Key → Key → Int) (sl : SkipList Key) (inserted : List Key)
    (chains : Nat → List (NodePtr × Key)) : Prop where
  chain : ∀ i < kMaxHeight, ChainAt compare sl i (chains i)
  sublist : ∀ i, i + 1 < kMaxHeight → (chains (i + 1)).Sublist (chains i)
  empty : ∀ i < kMaxHeight, sl.maxHeight ≤ i → chains i = []
  contents : ((chains 0).map Prod.snd).Perm inserted
  contains : ∀ k, ∃ b, sl.contains compare k = .ok b ∧ (b = true ↔ k ∈ inserted)

/-- The list represents the keys that were inserted. -/
def Holds (compare : Key → Key → Int) (sl : SkipList Key) (inserted : List Key) : Prop :=
  ∃ S, Rep compare sl S ∧ (∀ e ∈ S, 0 < e.levels) ∧ (S.map Entry.key).Perm inserted

/-! ## Chains of the entries -/

/-- The chain at a level, with its keys. -/
def chainOf (S : List (Entry Key)) (i : Nat) : List (NodePtr × Key) :=
  (S.filter fun e => i < e.levels).map fun e => (e.ptr, e.key)

theorem chainOf_fst (S : List (Entry Key)) (i : Nat) : (chainOf S i).map Prod.fst = nodesAt i S := by
  rw [chainOf, nodesAt, List.map_map]
  rfl

theorem chainOf_zero {S : List (Entry Key)} (h : ∀ e ∈ S, 0 < e.levels) :
    chainOf S 0 = S.map fun e => (e.ptr, e.key) := by
  rw [chainOf, List.filter_eq_self.mpr fun e he => decide_eq_true (h e he)]

theorem chainOf_append (L R : List (Entry Key)) (i : Nat) :
    chainOf (L ++ R) i = chainOf L i ++ chainOf R i := by
  simp [chainOf]

theorem chainOf_sublist (S : List (Entry Key)) (i : Nat) :
    (chainOf S (i + 1)).Sublist (chainOf S i) := by
  refine List.Sublist.map _ (List.monotone_filter_right S ?_)
  intro e he
  rw [decide_eq_true_iff] at he ⊢
  omega

theorem Rep.chainAt {S : List (Entry Key)} (h : Rep compare sl S) {i : Nat} (hi : i < kMaxHeight) :
    ChainAt compare sl i (chainOf S i) where
  chain := by
    rw [chainOf_fst]
    exact h.chain i hi
  keys := by
    intro e he
    obtain ⟨f, hf, rfl⟩ := List.mem_map.mp he
    obtain ⟨n, hn, hkey, -⟩ := h.node f (List.mem_of_mem_filter hf)
    exact ⟨n, hn, hkey⟩
  ascending := by
    rw [chainOf, List.pairwise_map]
    exact h.sorted.filter _

theorem Holds.sound (h : Holds compare sl inserted) (hcmp : Ordered compare) :
    ∃ chains, Sound compare sl inserted chains := by
  obtain ⟨S, hrep, hpos, hperm⟩ := h
  refine ⟨chainOf S, fun i hi => hrep.chainAt hi, fun i _ => chainOf_sublist S i,
    fun i _ hle => ?_, ?_, fun k => ?_⟩
  · rw [chainOf, List.filter_eq_nil_iff.mpr, List.map_nil]
    intro e he
    have := hrep.levels e he
    simp
    omega
  · rw [chainOf_zero hpos, List.map_map]
    exact hperm
  · obtain ⟨b, hb, hiff⟩ := hrep.contains hcmp k
    refine ⟨b, hb, hiff.trans ?_⟩
    rw [← hperm.mem_iff, List.mem_map]
    exact ⟨fun ⟨e, he, _, hk⟩ => ⟨e, he, hk⟩, fun ⟨e, he, hk⟩ => ⟨e, he, hpos e he, hk⟩⟩

/-! ## Runs -/

/-- The loop of the constructor. -/
theorem clearLinks {n : SkipNode Key} (hn : sl.nodes head = some n) (k : Nat) (hk : k ≤ n.height) :
    ∃ sl', (List.range k).foldlM (fun sl i => sl.setNext head i none) sl = .ok sl'
      ∧ Relinked sl sl' ∧ ∀ i < k, sl'.link i head = some none := by
  induction k with
  | zero => exact ⟨sl, rfl, Relinked.refl sl, by omega⟩
  | succ k ih =>
      obtain ⟨sl₁, hfold, hrel, hlinks⟩ := ih (by omega)
      obtain ⟨n', hn', -, hheight⟩ := hrel.nodes head n hn
      obtain ⟨sl₂, hset, hrel₂, hlink, hothers⟩ :=
        setNext_spec hn' (show k < n'.height by omega) none
      refine ⟨sl₂, ?_, hrel.trans hrel₂, fun i hi => ?_⟩
      · rw [List.range_succ, List.foldlM_append, hfold, ok_bind]
        exact (List.foldlM_cons ..).trans (by rw [hset]; rfl)
      · by_cases hik : i = k
        · rw [hik, hlink]
        · rw [hothers i head (.inr hik)]
          exact hlinks i (by omega)

/-- The constructor makes an empty list. -/
theorem new_holds (compare : Key → Key → Int) (zero : Key) :
    ∃ sl, new zero = .ok sl ∧ Holds compare sl [] := by
  have hn : (newNode ⟨fun _ => none, head, 1⟩ zero kMaxHeight).2.nodes head
      = some ⟨zero, kMaxHeight, fun _ => none⟩ := rfl
  obtain ⟨sl, hfold, hrel, hlinks⟩ := clearLinks hn kMaxHeight le_rfl
  obtain ⟨n, hhead, -, hheight⟩ := hrel.nodes head _ hn
  refine ⟨sl, hfold, [], ⟨hlinks, ⟨n, hhead, hheight⟩, nofun, nofun, List.Pairwise.nil,
    List.nodup_singleton _, fun p hp => ?_, ?_⟩, nofun, List.Perm.refl _⟩
  · rw [List.mem_singleton.mp hp, hrel.nextNode]
    exact Nat.lt_succ_self head
  · rw [hrel.maxHeight]
    exact ⟨le_rfl, show 1 ≤ kMaxHeight by decide⟩

theorem Holds.key_ne (h : Holds compare sl inserted) (hkey : key ∉ inserted) :
    ∃ S, Rep compare sl S ∧ (∀ e ∈ S, 0 < e.levels) ∧ (S.map Entry.key).Perm inserted
      ∧ ∀ e ∈ S, e.key ≠ key := by
  obtain ⟨S, hrep, hpos, hperm⟩ := h
  refine ⟨S, hrep, hpos, hperm, fun e he heq => hkey ?_⟩
  exact hperm.mem_iff.mp (List.mem_map.mpr ⟨e, he, heq⟩)

/-- **An insert of a new key** -/
theorem Holds.insert (h : Holds compare sl inserted) (hcmp : Ordered compare)
    (hkey : key ∉ inserted) (hheight : 0 < height ∧ height ≤ kMaxHeight) :
    ∃ sl', sl.insert compare key height = .ok sl' ∧ Holds compare sl' (inserted ++ [key]) := by
  obtain ⟨S, hrep, hpos, hperm, hne⟩ := h.key_ne hkey
  obtain ⟨L, R, x, sl', rfl, -, hins, hrep', -⟩ :=
    hrep.insertUpTo hcmp hne hheight (le_refl height)
  refine ⟨sl', hins, _, hrep', fun e he => ?_, ?_⟩
  · rcases List.mem_append.mp he with he | he
    · exact hpos e (List.mem_append_left R he)
    · rcases List.mem_cons.mp he with rfl | he
      · exact hheight.1
      · exact hpos e (List.mem_append_right L he)
  · rw [List.map_append, List.map_cons]
    rw [List.map_append] at hperm
    exact (List.perm_middle.trans (hperm.cons key)).trans (List.perm_append_singleton key _).symm

/-- **A run of inserts** -/
theorem Holds.insertAll (h : Holds compare sl inserted) (hcmp : Ordered compare)
    (keys : List (Key × Nat)) (hnodup : (inserted ++ keys.map Prod.fst).Nodup)
    (hheights : ∀ k ∈ keys, 0 < k.2 ∧ k.2 ≤ kMaxHeight) :
    ∃ sl', keys.foldlM (fun sl k => sl.insert compare k.1 k.2) sl = .ok sl'
      ∧ Holds compare sl' (inserted ++ keys.map Prod.fst) := by
  induction keys generalizing sl inserted with
  | nil => exact ⟨sl, rfl, by rwa [List.map_nil, List.append_nil]⟩
  | cons k keys ih =>
      rw [List.map_cons, List.append_cons] at hnodup
      have hkey : k.1 ∉ inserted := by
        have hnd := (List.nodup_append'.mp hnodup).1
        have hdisj := (List.nodup_append'.mp hnd).2.2
        exact fun hm => hdisj hm (List.mem_singleton_self k.1)
      obtain ⟨sl₁, hins, hholds⟩ := h.insert hcmp hkey (hheights k List.mem_cons_self)
      obtain ⟨sl', hfold, hholds'⟩ :=
        ih hholds hnodup fun k' hk' => hheights k' (List.mem_cons_of_mem k hk')
      refine ⟨sl', ?_, by rwa [List.map_cons, List.append_cons]⟩
      rw [List.foldlM_cons, hins]
      exact hfold

theorem build_holds (hcmp : Ordered compare) (zero : Key) (keys : List (Key × Nat))
    (hnodup : (keys.map Prod.fst).Nodup) (hheights : ∀ k ∈ keys, 0 < k.2 ∧ k.2 ≤ kMaxHeight) :
    ∃ sl, build compare zero keys = .ok sl ∧ Holds compare sl (keys.map Prod.fst) := by
  obtain ⟨sl₀, hnew, hholds⟩ := new_holds compare zero
  obtain ⟨sl, hfold, hholds'⟩ := hholds.insertAll hcmp keys hnodup hheights
  exact ⟨sl, by rw [build, hnew]; exact hfold, hholds'⟩

/-- **Every run of inserts of distinct keys** succeeds and leaves a sound list. -/
theorem sound_build (hcmp : Ordered compare) (zero : Key) (keys : List (Key × Nat))
    (hnodup : (keys.map Prod.fst).Nodup) (hheights : ∀ k ∈ keys, 0 < k.2 ∧ k.2 ≤ kMaxHeight) :
    ∃ sl chains, build compare zero keys = .ok sl
      ∧ Sound compare sl (keys.map Prod.fst) chains := by
  obtain ⟨sl, hbuild, hholds⟩ := build_holds hcmp zero keys hnodup hheights
  obtain ⟨chains, hsound⟩ := hholds.sound hcmp
  exact ⟨sl, chains, hbuild, hsound⟩

theorem ordered_sub : Ordered fun a b : Int => a - b :=
  ⟨fun _ _ => by omega, fun _ _ => by omega, fun _ _ _ => by omega⟩

theorem sound_build_three :
    ∃ sl chains, build (fun a b : Int => a - b) 0 [(5, 1), (2, 12), (9, 3)] = .ok sl
      ∧ Sound (fun a b : Int => a - b) sl [5, 2, 9] chains :=
  sound_build ordered_sub 0 [(5, 1), (2, 12), (9, 3)] (by decide) (by decide)

/-! ## In the middle of an insert -/

/-- The lists in the course of `insert`: after the store to `max_height_`, after a number of turns
of its loop, and between the two stores of a turn. -/
inductive Intermediate (compare : Key → Key → Int) (sl : SkipList Key) (key : Key) (height : Nat) :
    Except Fault (SkipList Key) → Prop
  | raised : Intermediate compare sl key height (.ok (sl.raise height))
  | upTo {k : Nat} : k ≤ height →
      Intermediate compare sl key height (sl.insertUpTo compare key height k)
  | half {k : Nat} : k < height →
      Intermediate compare sl key height (sl.insertHalf compare key height k)

/-- **A list in which an insert of `key` is under way can be searched**: `old` is its chain of
level 0 before the insert. -/
structure Searchable (compare : Key → Key → Int) (st : SkipList Key) (inserted : List Key)
    (key : Key) (old : List (NodePtr × Key)) : Prop where
  greater : ∀ t prev, ∃ r, st.findGreaterOrEqual compare t prev = .ok r
  less : ∀ t, ∃ x, st.findLessThan compare t = .ok x
  last : ∃ x, st.findLast = .ok x
  contains_inserted : ∀ k ∈ inserted, st.contains compare k = .ok true
  contains_other : ∀ k, k ∉ inserted → k ≠ key → st.contains compare k = .ok false
  chain : ChainAt compare st 0 old
    ∨ ∃ L R x, old = L ++ R ∧ ChainAt compare st 0 (L ++ (x, key) :: R)

/-- The searches end in every list that represents entries. -/
theorem Rep.searches {S : List (Entry Key)} (h : Rep compare st S) (hcmp : Ordered compare) :
    (∀ t prev, ∃ r, st.findGreaterOrEqual compare t prev = .ok r)
      ∧ (∀ t, ∃ x, st.findLessThan compare t = .ok x) ∧ ∃ x, st.findLast = .ok x := by
  refine ⟨fun t prev => ?_, fun t => ?_, predecessor S 0, h.findLast⟩
  · obtain ⟨L, R, rfl, hplace⟩ := exists_place hcmp t h.sorted
    obtain ⟨r, hr, -⟩ := h.findGreaterOrEqual hplace prev
    exact ⟨r, hr⟩
  · obtain ⟨L, R, rfl, hplace⟩ := exists_place hcmp t h.sorted
    exact ⟨predecessor L 0, h.findLessThan hplace⟩

/-- A list whose linked entries are the old ones, and perhaps the new one. -/
theorem Rep.searchable {S : List (Entry Key)} {old : List (NodePtr × Key)}
    (h : Rep compare st S) (hcmp : Ordered compare)
    (hold : ∀ k ∈ inserted, ∃ e ∈ S, 0 < e.levels ∧ e.key = k)
    (honly : ∀ e ∈ S, 0 < e.levels → e.key ∈ inserted ∨ e.key = key)
    (hchain : chainOf S 0 = old ∨ ∃ L R x, old = L ++ R ∧ chainOf S 0 = L ++ (x, key) :: R) :
    Searchable compare st inserted key old := by
  obtain ⟨hgreater, hless, hlast⟩ := h.searches hcmp
  refine ⟨hgreater, hless, hlast, fun k hk => ?_, fun k hk hne => ?_, ?_⟩
  · obtain ⟨b, hb, hiff⟩ := h.contains hcmp k
    rw [hb, hiff.mpr (hold k hk)]
  · obtain ⟨b, hb, hiff⟩ := h.contains hcmp k
    have hfalse : b = false := by
      rw [← Bool.not_eq_true, hiff]
      rintro ⟨e, he, hpos, rfl⟩
      exact (honly e he hpos).elim hk hne
    rw [hb, hfalse]
  · have hat := h.chainAt (show 0 < kMaxHeight by decide)
    rcases hchain with heq | ⟨L, R, x, hold, heq⟩
    · exact .inl (heq ▸ hat)
    · exact .inr ⟨L, R, x, hold, heq ▸ hat⟩

theorem Holds.searchable (h : Holds compare sl inserted) (hcmp : Ordered compare)
    (hkey : key ∉ inserted) (hheight : 0 < height ∧ height ≤ kMaxHeight) :
    ∃ old, ChainAt compare sl 0 old ∧ (old.map Prod.snd).Perm inserted
      ∧ ∀ r, Intermediate compare sl key height r →
        ∃ st, r = .ok st ∧ Searchable compare st inserted key old := by
  obtain ⟨S, hrep, hpos, hperm, hne⟩ := h.key_ne hkey
  have hold : ∀ k ∈ inserted, ∃ e ∈ S, 0 < e.levels ∧ e.key = k := by
    intro k hk
    obtain ⟨e, he, hek⟩ := List.mem_map.mp (hperm.mem_iff.mpr hk)
    exact ⟨e, he, hpos e he, hek⟩
  have honly : ∀ e ∈ S, e.key ∈ inserted := fun e he =>
    hperm.mem_iff.mp (List.mem_map_of_mem he)
  have hsplit : ∀ (L R : List (Entry Key)) (x : NodePtr) (k : Nat) (st : SkipList Key), S = L ++ R →
      Rep compare st (L ++ ⟨x, key, k⟩ :: R) → Searchable compare st inserted key (chainOf S 0) := by
    rintro L R x k st rfl hst
    refine hst.searchable hcmp (fun k' hk' => ?_) (fun e he _ => ?_) ?_
    · obtain ⟨e, he, hel, hek⟩ := hold k' hk'
      refine ⟨e, ?_, hel, hek⟩
      rw [List.mem_append, List.mem_cons]
      exact (List.mem_append.mp he).imp_right .inr
    · rw [List.mem_append, List.mem_cons] at he
      rcases he with he | rfl | he
      · exact .inl (honly e (List.mem_append_left R he))
      · exact .inr rfl
      · exact .inl (honly e (List.mem_append_right L he))
    · rw [chainOf_append, chainOf_append]
      by_cases hk : 0 < k
      · right
        refine ⟨chainOf L 0, chainOf R 0, x, rfl, ?_⟩
        simp [chainOf, hk]
      · left
        simp [chainOf, hk]
  refine ⟨chainOf S 0, hrep.chainAt (by decide), ?_, fun r hr => ?_⟩
  · rw [chainOf_zero hpos, List.map_map]
    exact hperm
  · cases hr with
    | raised =>
        exact ⟨_, rfl, (hrep.raise hheight.2).searchable hcmp hold
          (fun e he _ => .inl (honly e he)) (.inl rfl)⟩
    | upTo hk =>
        obtain ⟨L, R, x, st, hS, -, hins, hst, -⟩ := hrep.insertUpTo hcmp hne hheight hk
        exact ⟨st, hins, hsplit L R x _ st hS hst⟩
    | half hk =>
        obtain ⟨L, R, x, -, hS, -, -, -, hhalf⟩ := hrep.insertUpTo hcmp hne hheight hk.le
        obtain ⟨st, hins, hst⟩ := hhalf hk
        exact ⟨st, hins, hsplit L R x _ st hS hst⟩

/-- **Every list in the course of an insert can be searched.** -/
theorem searchable_of_intermediate (hcmp : Ordered compare) (keys : List (Key × Nat))
    (hnodup : (keys.map Prod.fst).Nodup) (hheights : ∀ k ∈ keys, 0 < k.2 ∧ k.2 ≤ kMaxHeight)
    (hbuild : build compare zero keys = .ok sl) (hkey : key ∉ keys.map Prod.fst)
    (hheight : 0 < height ∧ height ≤ kMaxHeight) :
    ∃ old, ChainAt compare sl 0 old ∧ (old.map Prod.snd).Perm (keys.map Prod.fst)
      ∧ ∀ r, Intermediate compare sl key height r →
        ∃ st, r = .ok st ∧ Searchable compare st (keys.map Prod.fst) key old := by
  obtain ⟨sl', hbuild', hholds⟩ := build_holds hcmp zero keys hnodup hheights
  obtain rfl := Except.ok.inj (hbuild.symm.trans hbuild')
  exact hholds.searchable hcmp hkey hheight

/-- One key is in the list, and a second one is linked at two of its three levels. -/
theorem searchable_of_intermediate_two :
    ∃ sl old, build (fun a b : Int => a - b) 0 [(5, 1)] = .ok sl
      ∧ ∃ st, sl.insertUpTo (fun a b : Int => a - b) 2 3 2 = .ok st
        ∧ Searchable (fun a b : Int => a - b) st [5] 2 old := by
  obtain ⟨sl, hbuild, -⟩ := build_holds ordered_sub 0 [(5, 1)] (by decide) (by decide)
  obtain ⟨old, -, -, hall⟩ := searchable_of_intermediate ordered_sub [(5, 1)] (by decide)
    (by decide) hbuild (show 2 ∉ [(5, 1)].map Prod.fst by decide)
    (show 0 < 3 ∧ 3 ≤ kMaxHeight by decide)
  exact ⟨sl, old, hbuild, hall _ (.upTo (by decide))⟩

end SkipList

end SimpleLeveldb
