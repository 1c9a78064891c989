import SimpleLeveldb.SkipList.SkipList

set_option autoImplicit false

/-! # Searching a skip list

`Rep compare sl S` says that `sl` represents the entries `S`, in ascending order: an entry that is
linked at `k` levels is in the chains of the levels below `k`. During an insert the new entry is
linked at fewer levels than its node has. `find_greater_or_equal` finds the place of a key in
every such list, and the predecessors of the place at every level.
-/

namespace SimpleLeveldb

namespace SkipList

variable {Key : Type} {compare : Key → Key → Int} {sl : SkipList Key}

/-! ## The order and the contents -/

/-- The comparator is a strict total order. -/
structure Ordered (compare : Key → Key → Int) : Prop where
  eq_zero : ∀ a b, compare a b = 0 ↔ a = b
  neg_iff : ∀ a b, compare a b < 0 ↔ 0 < compare b a
  trans : ∀ a b c, compare a b < 0 → compare b c < 0 → compare a c < 0

theorem Ordered.irrefl (h : Ordered compare) (a : Key) : ¬ compare a a < 0 := by
  rw [(h.eq_zero a a).mpr rfl]
  decide

/-- A node of the list, with the number of levels at which it is linked. -/
structure Entry (Key : Type) where
  ptr : NodePtr
  key : Key
  levels : Nat

/-- The nodes at a level. -/
def nodesAt (i : Nat) (S : List (Entry Key)) : List NodePtr :=
  (S.filter fun e => i < e.levels).map Entry.ptr

section NodesAt

variable {i : Nat} {S L R : List (Entry Key)} {e : Entry Key}

@[simp] theorem nodesAt_nil : nodesAt i ([] : List (Entry Key)) = [] := rfl

@[simp] theorem nodesAt_append : nodesAt i (L ++ R) = nodesAt i L ++ nodesAt i R := by
  simp [nodesAt]

theorem nodesAt_cons_of_lt (h : i < e.levels) : nodesAt i (e :: S) = e.ptr :: nodesAt i S := by
  simp [nodesAt, h]

theorem nodesAt_cons_of_le (h : e.levels ≤ i) : nodesAt i (e :: S) = nodesAt i S := by
  simp [nodesAt, h]

theorem mem_nodesAt {p : NodePtr} : p ∈ nodesAt i S ↔ ∃ e ∈ S, i < e.levels ∧ e.ptr = p := by
  simp [nodesAt, and_assoc]

theorem nodesAt_eq_nil (h : ∀ e ∈ S, e.levels ≤ i) : nodesAt i S = [] := by
  simpa [nodesAt] using h

theorem nodesAt_sublist : (nodesAt i S).Sublist (S.map Entry.ptr) :=
  List.filter_sublist.map _

/-- The first node at a level splits the entries. -/
theorem exists_of_nodesAt_eq_cons {p : NodePtr} {l : List NodePtr} (h : nodesAt i S = p :: l) :
    ∃ S₁ e S₂, S = S₁ ++ e :: S₂ ∧ e.ptr = p ∧ i < e.levels ∧ nodesAt i S₁ = [] := by
  induction S with
  | nil => cases h
  | cons e S ih =>
      by_cases he : i < e.levels
      · rw [nodesAt_cons_of_lt he] at h
        exact ⟨[], e, S, rfl, (List.cons.inj h).1, he, rfl⟩
      · rw [nodesAt_cons_of_le (not_lt.mp he)] at h
        obtain ⟨S₁, e', S₂, rfl, hp, hlt, hnil⟩ := ih h
        exact ⟨e :: S₁, e', S₂, rfl, hp, hlt, (nodesAt_cons_of_le (not_lt.mp he)).trans hnil⟩

end NodesAt

/-- **The list `sl` represents the entries `S`**. -/
structure Rep (compare : Key → Key → Int) (sl : SkipList Key) (S : List (Entry Key)) : Prop where
  chain : ∀ i < kMaxHeight, Chain.IsChain (sl.link i) head (nodesAt i S)
  headNode : ∃ n, sl.nodes head = some n ∧ n.height = kMaxHeight
  node : ∀ e ∈ S, ∃ n, sl.nodes e.ptr = some n ∧ n.key = e.key ∧ e.levels ≤ n.height
  levels : ∀ e ∈ S, e.levels ≤ sl.maxHeight
  sorted : S.Pairwise fun a b => compare a.key b.key < 0
  nodup : (head :: S.map Entry.ptr).Nodup
  fresh : ∀ p ∈ head :: S.map Entry.ptr, p < sl.nextNode
  maxHeight : 1 ≤ sl.maxHeight ∧ sl.maxHeight ≤ kMaxHeight

variable {S L R : List (Entry Key)} {key : Key}

theorem Rep.nodup_nodesAt (h : Rep compare sl S) (i : Nat) : (head :: nodesAt i S).Nodup :=
  h.nodup.sublist (nodesAt_sublist.cons_cons head)

/-- The addresses are below the next free one. -/
theorem Rep.length_lt (h : Rep compare sl S) : S.length < sl.nextNode := by
  have hsub : (head :: S.map Entry.ptr) ⊆ List.range sl.nextNode := fun p hp =>
    List.mem_range.mpr (h.fresh p hp)
  have hle := (h.nodup.subperm hsub).length_le
  rw [List.length_cons, List.length_map, List.length_range] at hle
  omega

/-! ## The place of a key -/

/-- **The place of a key** in the entries: those before it are smaller, the others are not. -/
structure Place (compare : Key → Key → Int) (key : Key) (L R : List (Entry Key)) : Prop where
  before : ∀ e ∈ L, compare e.key key < 0
  after : ∀ e ∈ R, ¬ compare e.key key < 0

theorem exists_place (hcmp : Ordered compare) (key : Key)
    (hS : S.Pairwise fun a b => compare a.key b.key < 0) :
    ∃ L R, S = L ++ R ∧ Place compare key L R := by
  induction S with
  | nil => exact ⟨[], [], rfl, nofun, nofun⟩
  | cons e S ih =>
      obtain ⟨he, hS⟩ := List.pairwise_cons.mp hS
      by_cases hlt : compare e.key key < 0
      · obtain ⟨L, R, rfl, hbefore, hafter⟩ := ih hS
        exact ⟨e :: L, R, rfl, List.forall_mem_cons.mpr ⟨hlt, hbefore⟩, hafter⟩
      · refine ⟨[], e :: S, rfl, nofun, List.forall_mem_cons.mpr ⟨hlt, fun f hf hfk => ?_⟩⟩
        exact hlt (hcmp.trans _ _ _ (he f hf) hfk)

/-- A node of an entry is after the key or not, as the entry says. -/
theorem Rep.keyIsAfterNode (h : Rep compare sl S) {e : Entry Key} (he : e ∈ S) (key : Key) :
    sl.keyIsAfterNode compare key (some e.ptr) = .ok (decide (compare e.key key < 0)) := by
  obtain ⟨n, hn, hkey, -⟩ := h.node e he
  rw [SkipList.keyIsAfterNode, SkipList.read, hn, ← hkey]
  rfl

/-- The node before the place of a key at a level. -/
def predecessor (L : List (Entry Key)) (i : Nat) : NodePtr := (nodesAt i L).getLastD head

/-- The last entry is the predecessor at every level at which it is linked. -/
theorem predecessor_of_getLast {A : List (Entry Key)} {i j : Nat} (hij : i ≤ j)
    (hA : ∀ e ∈ A.getLast?, j < e.levels) : predecessor A i = predecessor A j := by
  rcases List.eq_nil_or_concat A with rfl | ⟨A, e, rfl⟩
  · rfl
  · have hj : j < e.levels := hA e (by simp)
    rw [predecessor, predecessor, List.concat_eq_append, nodesAt_append, nodesAt_append,
      nodesAt_cons_of_lt hj, nodesAt_cons_of_lt (hij.trans_lt hj)]
    simp

/-- **A position of a search** with at most `m` rounds ahead: it is at the last entry of `A`, or
at the head, and has the entries `B` between there and the place that it looks for. -/
def At (maxHeight : Nat) (L : List (Entry Key)) (m : Nat) (x : NodePtr) (level : Nat) : Prop :=
  ∃ A B, L = A ++ B ∧ x = predecessor A level ∧ (∀ e ∈ A.getLast?, level < e.levels)
    ∧ level < maxHeight ∧ m = B.length + level

theorem at_start (L : List (Entry Key)) {maxHeight : Nat} (h : 1 ≤ maxHeight) :
    At maxHeight L (L.length + (maxHeight - 1)) head (maxHeight - 1) :=
  ⟨[], L, rfl, rfl, nofun, by omega, rfl⟩

/-- **What a round of a search can see**: an entry before the place, to which it can go, or the
first node behind the place, and then it is at the predecessor and can go down. -/
theorem Rep.at_next (h : Rep compare sl (L ++ R)) {m level : Nat} {x : NodePtr}
    (hat : At sl.maxHeight L m x level) :
    (∃ e ∈ L, sl.next x level = .ok (some e.ptr) ∧ ∃ m' < m, At sl.maxHeight L m' e.ptr level)
      ∨ sl.next x level = .ok (nodesAt level R).head? ∧ x = predecessor L level
        ∧ (level ≠ 0 → ∃ m' < m, At sl.maxHeight L m' x (level - 1)) := by
  obtain ⟨A, B, rfl, hx, hlast, hlevel, rfl⟩ := hat
  have hchain := h.chain level (hlevel.trans_le h.maxHeight.2)
  rw [List.append_assoc, nodesAt_append, nodesAt_append] at hchain
  have hnext : sl.next x level = .ok (nodesAt level B ++ nodesAt level R).head? := by
    rw [SkipList.next, hx, predecessor, hchain.next_getLastD]
  cases hB : nodesAt level B with
  | cons q l =>
      obtain ⟨B₁, e, B₂, rfl, rfl, hlt, hnil⟩ := exists_of_nodesAt_eq_cons hB
      left
      refine ⟨e, by simp, by rw [hnext, hB]; rfl, B₂.length + level, by simp; omega,
        A ++ B₁ ++ [e], B₂, by simp, ?_, ?_, hlevel, rfl⟩
      · rw [predecessor, nodesAt_append, nodesAt_cons_of_lt hlt]
        simp
      · intro f hf
        rw [List.getLast?_concat, Option.mem_some_iff] at hf
        exact hf ▸ hlt
  | nil =>
      right
      refine ⟨by rw [hnext, hB]; rfl, ?_, fun hzero => ⟨B.length + (level - 1), by omega, A, B, rfl,
        ?_, fun e he => ?_, by omega, rfl⟩⟩
      · rw [hx, predecessor, predecessor, nodesAt_append, hB, List.append_nil]
      · rw [hx, predecessor_of_getLast (Nat.sub_le level 1) hlast]
      · exact (Nat.sub_le level 1).trans_lt (hlast e he)

/-! ## `find_greater_or_equal` -/

/-- The first node behind the place is not before the key. -/
theorem Rep.not_keyIsAfterNode (h : Rep compare sl (L ++ R)) (hplace : Place compare key L R)
    (level : Nat) : sl.keyIsAfterNode compare key (nodesAt level R).head? = .ok false := by
  cases hR : nodesAt level R with
  | nil => rfl
  | cons p l =>
      obtain ⟨e, he, -, rfl⟩ := mem_nodesAt.mp (hR ▸ List.mem_cons_self : p ∈ nodesAt level R)
      rw [List.head?_cons, h.keyIsAfterNode (List.mem_append_right L he)]
      simp [hplace.after e he]

/-- **`find_greater_or_equal`** finds the first node at or after the place of the key, and records
the predecessors. -/
theorem Rep.findGreaterOrEqual (h : Rep compare sl (L ++ R)) (hplace : Place compare key L R)
    (prev : Nat → Option NodePtr) :
    ∃ r, sl.findGreaterOrEqual compare key prev = .ok r ∧ r.1 = (nodesAt 0 R).head?
      ∧ ∀ i < sl.maxHeight, r.2 i = some (predecessor L i) := by
  have hbody : ∀ m (s : Search), (At sl.maxHeight L m s.x s.level
        ∧ ∀ i, s.level < i → i < sl.maxHeight → s.prev i = some (predecessor L i)) →
      (∃ s' m', searchTurn compare sl key s = .ok (.inl s') ∧ m' < m
        ∧ At sl.maxHeight L m' s'.x s'.level
        ∧ ∀ i, s'.level < i → i < sl.maxHeight → s'.prev i = some (predecessor L i))
      ∨ ∃ r, searchTurn compare sl key s = .ok (.inr r) ∧ r.1 = (nodesAt 0 R).head?
        ∧ ∀ i < sl.maxHeight, r.2 i = some (predecessor L i) := by
    rintro m ⟨x, level, prev⟩ ⟨hat, hprev⟩
    simp only at hat hprev
    rcases h.at_next hat with ⟨e, he, hnext, m', hm, hat'⟩ | ⟨hnext, hx, hdown⟩
    · have hafter := h.keyIsAfterNode (List.mem_append_left R he) key
      rw [decide_eq_true (hplace.before e he)] at hafter
      left
      refine ⟨⟨e.ptr, level, prev⟩, m', ?_, hm, hat', hprev⟩
      simp only [searchTurn, hnext, ok_bind, hafter]
      rfl
    · have hafter := h.not_keyIsAfterNode hplace level
      have hrecord : ∀ i, level ≤ i → i < sl.maxHeight →
          Function.update prev level (some x) i = some (predecessor L i) := by
        intro i hi hlt
        by_cases hil : i = level
        · rw [hil, Function.update_self, hx]
        · rw [Function.update_of_ne hil]
          exact hprev i (by omega) hlt
      by_cases hzero : level = 0
      · subst hzero
        right
        refine ⟨((nodesAt 0 R).head?, Function.update prev 0 (some x)), ?_, rfl,
          fun i hi => hrecord i (Nat.zero_le i) hi⟩
        simp only [searchTurn, hnext, ok_bind, hafter]
        rfl
      · obtain ⟨m', hm, hat'⟩ := hdown hzero
        left
        refine ⟨⟨x, level - 1, Function.update prev level (some x)⟩, m', ?_, hm, hat',
          fun i hi hlt => hrecord i (by simp only at hi; omega) hlt⟩
        simp only [searchTurn, hnext, ok_bind, hafter, if_neg hzero]
        rfl
  have hlen := h.length_lt
  rw [List.length_append] at hlen
  have hmax := h.maxHeight
  rw [SkipList.findGreaterOrEqual]
  exact Loop.run_of_rank Fault.endless _ _ hbody _ _ ⟨head, sl.maxHeight - 1, prev⟩
    ⟨at_start L hmax.1, fun i hi hlt => by simp only at hi; omega⟩ (by omega)

/-! ## `find_less_than` and `find_last` -/

theorem Rep.isNotBefore (h : Rep compare sl S) {e : Entry Key} (he : e ∈ S) (key : Key) :
    sl.isNotBefore compare key (some e.ptr) = .ok (decide (¬ compare e.key key < 0)) := by
  obtain ⟨n, hn, hkey, -⟩ := h.node e he
  rw [SkipList.isNotBefore, SkipList.read, hn, ← hkey]
  simp only [not_lt]
  rfl

theorem Rep.isNotBefore_head (h : Rep compare sl (L ++ R)) (hplace : Place compare key L R)
    (level : Nat) : sl.isNotBefore compare key (nodesAt level R).head? = .ok true := by
  cases hR : nodesAt level R with
  | nil => rfl
  | cons p l =>
      obtain ⟨e, he, -, rfl⟩ := mem_nodesAt.mp (hR ▸ List.mem_cons_self : p ∈ nodesAt level R)
      rw [List.head?_cons, h.isNotBefore (List.mem_append_right L he),
        decide_eq_true (hplace.after e he)]

/-- A position of the search is at the head or at an entry before the place. -/
theorem At.eq_head_or_mem {maxHeight m level : Nat} {x : NodePtr}
    (hat : At maxHeight L m x level) : x = head ∨ ∃ e ∈ L, e.ptr = x := by
  obtain ⟨A, B, rfl, rfl, -⟩ := hat
  rcases List.mem_cons.mp (Chain.getLastD_mem_cons (nodesAt level A) head) with hx | hx
  · exact .inl hx
  · obtain ⟨e, he, -, hptr⟩ := mem_nodesAt.mp hx
    exact .inr ⟨e, List.mem_append_left B he, hptr⟩

theorem Rep.assertBefore (h : Rep compare sl (L ++ R)) (hplace : Place compare key L R)
    {m level : Nat} {x : NodePtr} (hat : At sl.maxHeight L m x level) :
    sl.assertBefore compare key x = .ok () := by
  rcases hat.eq_head_or_mem with rfl | ⟨e, he, rfl⟩
  · exact if_pos rfl
  · obtain ⟨n, hn, hkey, -⟩ := h.node e (List.mem_append_left R he)
    have hne : e.ptr ≠ head := fun hhead => (List.nodup_cons.mp h.nodup).1
      (List.mem_map.mpr ⟨e, List.mem_append_left R he, hhead⟩)
    rw [SkipList.assertBefore, if_neg hne, SkipList.read, hn, ok_bind]
    exact require_of (hkey ▸ hplace.before e he)

/-- **`find_less_than`** finds the predecessor of the place of the key. -/
theorem Rep.findLessThan (h : Rep compare sl (L ++ R)) (hplace : Place compare key L R) :
    sl.findLessThan compare key = .ok (predecessor L 0) := by
  have hbody : ∀ m (s : NodePtr × Nat), At sl.maxHeight L m s.1 s.2 →
      (∃ s' m', lessThanTurn compare sl key s = .ok (.inl s') ∧ m' < m
        ∧ At sl.maxHeight L m' s'.1 s'.2)
      ∨ ∃ x, lessThanTurn compare sl key s = .ok (.inr x) ∧ x = predecessor L 0 := by
    rintro m ⟨x, level⟩ hat
    have hassert := h.assertBefore hplace hat
    simp only [lessThanTurn, hassert, ok_bind]
    rcases h.at_next hat with ⟨e, he, hnext, m', hm, hat'⟩ | ⟨hnext, hx, hdown⟩
    · have hbefore := h.isNotBefore (List.mem_append_left R he) key
      rw [decide_eq_false (not_not_intro (hplace.before e he))] at hbefore
      left
      refine ⟨(e.ptr, level), m', ?_, hm, hat'⟩
      rw [hnext, ok_bind, hbefore]
      rfl
    · rw [hnext, ok_bind, h.isNotBefore_head hplace level]
      by_cases hzero : level = 0
      · subst hzero
        exact .inr ⟨x, rfl, hx⟩
      · obtain ⟨m', hm, hat'⟩ := hdown hzero
        left
        refine ⟨(x, level - 1), m', ?_, hm, hat'⟩
        simp only [ok_bind, if_true, if_neg hzero]
        rfl
  have hlen := h.length_lt
  rw [List.length_append] at hlen
  have hmax := h.maxHeight
  rw [SkipList.findLessThan]
  obtain ⟨x, hrun, rfl⟩ := Loop.run_of_rank Fault.endless _ _ hbody (sl.nextNode + sl.maxHeight) _
    (head, sl.maxHeight - 1) (at_start L hmax.1) (by omega)
  exact hrun

/-- **`find_last`** finds the last node of the chain of level 0. -/
theorem Rep.findLast (h : Rep compare sl S) : sl.findLast = .ok (predecessor S 0) := by
  have happend : Rep compare sl (S ++ []) := by rwa [List.append_nil]
  have hbody : ∀ m (s : NodePtr × Nat), At sl.maxHeight S m s.1 s.2 →
      (∃ s' m', lastTurn sl s = .ok (.inl s') ∧ m' < m ∧ At sl.maxHeight S m' s'.1 s'.2)
      ∨ ∃ x, lastTurn sl s = .ok (.inr x) ∧ x = predecessor S 0 := by
    rintro m ⟨x, level⟩ hat
    simp only [lastTurn]
    rcases happend.at_next hat with ⟨e, he, hnext, m', hm, hat'⟩ | ⟨hnext, hx, hdown⟩
    · exact .inl ⟨(e.ptr, level), m', by rw [hnext]; rfl, hm, hat'⟩
    · rw [hnext, nodesAt_nil, List.head?_nil]
      by_cases hzero : level = 0
      · subst hzero
        exact .inr ⟨x, rfl, hx⟩
      · obtain ⟨m', hm, hat'⟩ := hdown hzero
        left
        refine ⟨(x, level - 1), m', ?_, hm, hat'⟩
        simp only [ok_bind, if_neg hzero]
        rfl
  have hlen := h.length_lt
  have hmax := h.maxHeight
  rw [SkipList.findLast]
  obtain ⟨x, hrun, rfl⟩ := Loop.run_of_rank Fault.endless _ _ hbody (sl.nextNode + sl.maxHeight) _
    (head, sl.maxHeight - 1) (at_start S hmax.1) (by omega)
  exact hrun

/-! ## `contains` -/

theorem Rep.equalAt (h : Rep compare sl S) {e : Entry Key} (he : e ∈ S) (key : Key) :
    sl.equalAt compare key e.ptr = .ok (decide (compare key e.key = 0)) := by
  obtain ⟨n, hn, hkey, -⟩ := h.node e he
  rw [SkipList.equalAt, SkipList.read, hn, ← hkey]
  rfl

/-- **`contains`** says whether the key is that of a node in the chain of level 0. -/
theorem Rep.contains (h : Rep compare sl S) (hcmp : Ordered compare) (key : Key) :
    ∃ b, sl.contains compare key = .ok b ∧ (b = true ↔ ∃ e ∈ S, 0 < e.levels ∧ e.key = key) := by
  obtain ⟨L, R, rfl, hplace⟩ := exists_place hcmp key h.sorted
  obtain ⟨⟨x, prev⟩, hfind, hx, -⟩ := h.findGreaterOrEqual hplace fun _ => none
  have hright : ∀ e ∈ L ++ R, e.key = key → e ∈ R := by
    intro e he hkey
    refine (List.mem_append.mp he).resolve_left fun hL => ?_
    exact hcmp.irrefl key (hkey ▸ hplace.before e hL)
  rw [SkipList.contains, hfind, ok_bind]
  simp only at hx
  cases hR : nodesAt 0 R with
  | nil =>
      rw [hR] at hx
      subst hx
      refine ⟨false, rfl, ?_⟩
      simp only [Bool.false_eq_true, false_iff]
      rintro ⟨e, he, hpos, hkey⟩
      have hmem : e.ptr ∈ nodesAt 0 R := mem_nodesAt.mpr ⟨e, hright e he hkey, hpos, rfl⟩
      rw [hR] at hmem
      exact List.not_mem_nil hmem
  | cons p l =>
      rw [hR] at hx
      subst hx
      obtain ⟨R₁, e, R₂, rfl, rfl, hpos, hnil⟩ := exists_of_nodesAt_eq_cons hR
      refine ⟨_, h.equalAt (by simp) key, ?_⟩
      rw [decide_eq_true_iff, hcmp.eq_zero]
      constructor
      · rintro rfl
        exact ⟨e, by simp, hpos, rfl⟩
      · rintro ⟨f, hf, hfpos, hfkey⟩
        have hsorted := (List.pairwise_append.mp h.sorted).2.1
        have hbehind := (List.pairwise_cons.mp (List.pairwise_append.mp hsorted).2.1).1
        rcases List.mem_append.mp (hright f hf hfkey) with hf₁ | hf₂
        · have hmem : f.ptr ∈ nodesAt 0 R₁ := mem_nodesAt.mpr ⟨f, hf₁, hfpos, rfl⟩
          rw [hnil] at hmem
          exact absurd hmem List.not_mem_nil
        · rcases List.mem_cons.mp hf₂ with rfl | hf₂
          · exact hfkey.symm
          · exact absurd (hfkey ▸ hbehind f hf₂) (hplace.after e (by simp))

end SkipList

end SimpleLeveldb
