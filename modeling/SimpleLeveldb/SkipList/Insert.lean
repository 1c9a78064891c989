import SimpleLeveldb.SkipList.Search

set_option autoImplicit false

/-! # Inserting into a skip list

A turn of the loop of `insert` links the new node at one level more. Every list on the way is the
representation of entries (`Rep`), so that searches work in it as in a finished list.
-/

namespace SimpleLeveldb

namespace SkipList

variable {Key : Type} {compare : Key → Key → Int} {sl sl' : SkipList Key}
  {S L R : List (Entry Key)} {key : Key} {p x : NodePtr} {k height : Nat}

/-! ## Stores -/

/-- The lists have the same nodes, up to their links. -/
structure Relinked (sl sl' : SkipList Key) : Prop where
  nodes : ∀ q n, sl.nodes q = some n →
    ∃ n', sl'.nodes q = some n' ∧ n'.key = n.key ∧ n'.height = n.height
  nextNode : sl'.nextNode = sl.nextNode
  maxHeight : sl'.maxHeight = sl.maxHeight

theorem Relinked.refl (sl : SkipList Key) : Relinked sl sl :=
  ⟨fun _ n hn => ⟨n, hn, rfl, rfl⟩, rfl, rfl⟩

theorem Relinked.trans {sl'' : SkipList Key} (h : Relinked sl sl') (h' : Relinked sl' sl'') :
    Relinked sl sl'' where
  nodes := by
    intro q n hn
    obtain ⟨n', hn', hkey, hheight⟩ := h.nodes q n hn
    obtain ⟨n'', hn'', hkey', hheight'⟩ := h'.nodes q n' hn'
    exact ⟨n'', hn'', hkey'.trans hkey, hheight'.trans hheight⟩
  nextNode := h'.nextNode.trans h.nextNode
  maxHeight := h'.maxHeight.trans h.maxHeight

/-- **A store** changes one link. -/
theorem setNext_spec {n : SkipNode Key} {level : Nat} (hn : sl.nodes p = some n)
    (hlt : level < n.height) (y : Option NodePtr) :
    ∃ sl', sl.setNext p level y = .ok sl' ∧ Relinked sl sl' ∧ sl'.link level p = some y
      ∧ ∀ i q, q ≠ p ∨ i ≠ level → sl'.link i q = sl.link i q := by
  set n' : SkipNode Key := { n with next := Function.update n.next level (some y) } with hn'
  set sl' : SkipList Key := { sl with nodes := Function.update sl.nodes p (some n') } with hsl'
  have hself : sl'.nodes p = some n' := Function.update_self _ _ _
  have hother : ∀ q, q ≠ p → sl'.nodes q = sl.nodes q := fun q hq => Function.update_of_ne hq _ _
  refine ⟨sl', ?_, ⟨fun q m hm => ?_, rfl, rfl⟩, ?_, fun i q hne => ?_⟩
  · rw [setNext, read, hn, ok_bind, if_pos hlt]
    rfl
  · by_cases hq : q = p
    · subst hq
      obtain rfl := Option.some.inj (hn.symm.trans hm)
      exact ⟨n', hself, rfl, rfl⟩
    · exact ⟨m, (hother q hq).trans hm, rfl, rfl⟩
  · simp [link, hself, hn', hlt]
  · by_cases hq : q = p
    · subst hq
      have hi : i ≠ level := hne.resolve_left fun h => h rfl
      simp [link, hself, hn, hn', hi]
    · simp [link, hother q hq]

/-- A list with other links and other numbers of levels. -/
theorem Rep.relink {S' : List (Entry Key)} (h : Rep compare sl S) (hrel : Relinked sl sl')
    (hkeys : S'.map (fun e => (e.ptr, e.key)) = S.map fun e => (e.ptr, e.key))
    (hlevels : ∀ e ∈ S', e.levels ≤ sl.maxHeight
      ∧ ∃ n, sl.nodes e.ptr = some n ∧ n.key = e.key ∧ e.levels ≤ n.height)
    (hchain : ∀ i < kMaxHeight, Chain.IsChain (sl'.link i) head (nodesAt i S')) :
    Rep compare sl' S' := by
  have hptrs : S'.map Entry.ptr = S.map Entry.ptr := by
    simpa [List.map_map, Function.comp_def] using congrArg (List.map Prod.fst) hkeys
  have hsnd : S'.map Entry.key = S.map Entry.key := by
    simpa [List.map_map, Function.comp_def] using congrArg (List.map Prod.snd) hkeys
  refine ⟨hchain, ?_, fun e he => ?_, fun e he => hrel.maxHeight ▸ (hlevels e he).1, ?_,
    hptrs ▸ h.nodup, hptrs ▸ hrel.nextNode ▸ h.fresh, hrel.maxHeight ▸ h.maxHeight⟩
  · obtain ⟨n, hn, hheight⟩ := h.headNode
    obtain ⟨n', hn', -, hheight'⟩ := hrel.nodes head n hn
    exact ⟨n', hn', hheight'.trans hheight⟩
  · obtain ⟨-, n, hn, hkey, hle⟩ := hlevels e he
    obtain ⟨n', hn', hkey', hheight'⟩ := hrel.nodes e.ptr n hn
    exact ⟨n', hn', hkey'.trans hkey, hheight' ▸ hle⟩
  · have hsorted := h.sorted
    rw [← List.pairwise_map (f := Entry.key) (R := fun a b => compare a b < 0)] at hsorted ⊢
    rwa [hsnd]

/-! ## One turn of the loop -/

/-- The predecessor at a level has a link there. -/
theorem Rep.predecessor_node (h : Rep compare sl (L ++ R)) (hk : k < kMaxHeight) :
    ∃ n, sl.nodes (predecessor L k) = some n ∧ k < n.height := by
  rcases List.mem_cons.mp (Chain.getLastD_mem_cons (nodesAt k L) head) with hp | hp
  · obtain ⟨n, hn, hheight⟩ := h.headNode
    exact ⟨n, by rw [predecessor, hp, hn], hheight ▸ hk⟩
  · obtain ⟨e, he, hlt, hptr⟩ := mem_nodesAt.mp hp
    obtain ⟨n, hn, -, hle⟩ := h.node e (List.mem_append_left R he)
    exact ⟨n, by rw [predecessor, ← hptr, hn], hlt.trans_le hle⟩

theorem predecessor_mem (L : List (Entry Key)) (k : Nat) :
    predecessor L k ∈ head :: nodesAt k L :=
  Chain.getLastD_mem_cons (nodesAt k L) head

/-- The new entry is not in the chains where it is not linked. -/
theorem Rep.new_not_mem (h : Rep compare sl (L ++ ⟨x, key, k⟩ :: R)) (i : Nat) :
    x ∉ head :: (nodesAt i L ++ nodesAt i R) := by
  have hnd := h.nodup
  rw [List.map_append, List.map_cons, ← List.cons_append] at hnd
  have hnot := (List.nodup_cons.mp (List.nodup_middle.mp hnd)).1
  intro hmem
  refine hnot ?_
  rw [List.cons_append, ← List.map_append]
  rw [← nodesAt_append] at hmem
  exact (nodesAt_sublist.cons_cons head).subset hmem

/-- **The first store of a turn** gives the new node the link of its predecessor, and changes no
chain. -/
theorem Rep.storeNew (h : Rep compare sl (L ++ ⟨x, key, k⟩ :: R)) {n : SkipNode Key}
    (hn : sl.nodes x = some n) (hkn : k < n.height) (hk : k < kMaxHeight)
    {prev : Nat → Option NodePtr} (hprev : prev k = some (predecessor L k)) :
    ∃ sl', storeNew prev x sl k = .ok sl' ∧ Rep compare sl' (L ++ ⟨x, key, k⟩ :: R)
      ∧ Relinked sl sl' ∧ sl'.link k x = some (nodesAt k R).head? := by
  have hchain := h.chain k hk
  rw [nodesAt_append, nodesAt_cons_of_le (le_refl k)] at hchain
  have hnext : sl.next (predecessor L k) k = .ok (nodesAt k R).head? := by
    rw [SkipList.next, predecessor, hchain.next_getLastD]
  obtain ⟨sl', hset, hrel, hlink, hothers⟩ := setNext_spec hn hkn (nodesAt k R).head?
  refine ⟨sl', ?_, ?_, hrel, hlink⟩
  · rw [SkipList.storeNew, hprev]
    simp only [deref, ok_bind, hnext, hset]
  · refine h.relink hrel rfl (fun e he => ⟨h.levels e he, h.node e he⟩) fun i hi => ?_
    refine (h.chain i hi).congr fun u hu => hothers i u ?_
    by_cases hik : i = k
    · left
      rintro rfl
      rw [hik, nodesAt_append, nodesAt_cons_of_le (le_refl k)] at hu
      exact h.new_not_mem k hu
    · exact .inr hik

/-- **The second store of a turn** splices the new node into the chain. -/
theorem Rep.storePrev (h : Rep compare sl (L ++ ⟨x, key, k⟩ :: R)) {n : SkipNode Key}
    (hn : sl.nodes x = some n) (hkn : k < n.height) (hk : k < sl.maxHeight)
    {prev : Nat → Option NodePtr} (hprev : prev k = some (predecessor L k))
    (hlink : sl.link k x = some (nodesAt k R).head?) :
    ∃ sl', storePrev prev x sl k = .ok sl' ∧ Rep compare sl' (L ++ ⟨x, key, k + 1⟩ :: R)
      ∧ Relinked sl sl' := by
  have hk12 : k < kMaxHeight := hk.trans_le h.maxHeight.2
  obtain ⟨m, hm, hkm⟩ := h.predecessor_node (L := L) hk12
  obtain ⟨sl', hset, hrel, hlast, hothers⟩ := setNext_spec hm hkm (some x)
  have hxnot := h.new_not_mem k
  have hne : x ≠ predecessor L k := by
    rintro he
    refine hxnot ?_
    rw [← List.cons_append]
    exact List.mem_append_left _ (he ▸ predecessor_mem L k)
  refine ⟨sl', ?_, ?_, hrel⟩
  · rw [SkipList.storePrev, hprev]
    simp only [deref, ok_bind, hset]
  · refine h.relink hrel (by simp) (fun e he => ?_) fun i hi => ?_
    · rcases List.mem_append.mp he with he | he
      · have he' := List.mem_append_left (⟨x, key, k⟩ :: R) he
        exact ⟨h.levels e he', h.node e he'⟩
      · rcases List.mem_cons.mp he with rfl | he
        · obtain ⟨n', hn', hkey, -⟩ := h.node ⟨x, key, k⟩ (by simp)
          obtain rfl := Option.some.inj (hn.symm.trans hn')
          exact ⟨hk, n, hn, hkey, hkn⟩
        · have he' := List.mem_append_right L (List.mem_cons_of_mem ⟨x, key, k⟩ he)
          exact ⟨h.levels e he', h.node e he'⟩
    · have hchain := h.chain i hi
      rw [nodesAt_append] at hchain ⊢
      by_cases hik : i = k
      · subst hik
        rw [nodesAt_cons_of_le (le_refl i)] at hchain
        rw [nodesAt_cons_of_lt (Nat.lt_succ_self i)]
        have hnd := h.nodup_nodesAt i
        rw [nodesAt_append, nodesAt_cons_of_le (le_refl i)] at hnd
        refine hchain.splice hnd hxnot hlast ?_ fun u hu _ => hothers i u (.inl hu)
        rw [hothers i x (.inl hne), hlink]
      · have hsame : nodesAt i (⟨x, key, k + 1⟩ :: R) = nodesAt i (⟨x, key, k⟩ :: R) := by
          by_cases hlt : i < k
          · rw [nodesAt_cons_of_lt (Nat.lt_succ_of_lt hlt), nodesAt_cons_of_lt hlt]
          · rw [nodesAt_cons_of_le (show k + 1 ≤ i by omega), nodesAt_cons_of_le (not_lt.mp hlt)]
        rw [hsame]
        exact hchain.congr fun u _ => hothers i u (.inr hik)

/-- **One turn** links the new node at one level more. -/
theorem Rep.linkLevel (h : Rep compare sl (L ++ ⟨x, key, k⟩ :: R)) {n : SkipNode Key}
    (hn : sl.nodes x = some n) (hkn : k < n.height) (hk : k < sl.maxHeight)
    {prev : Nat → Option NodePtr} (hprev : prev k = some (predecessor L k)) :
    ∃ sl', linkLevel prev x sl k = .ok sl' ∧ Rep compare sl' (L ++ ⟨x, key, k + 1⟩ :: R)
      ∧ Relinked sl sl' := by
  obtain ⟨sl₁, hnew, hrep₁, hrel₁, hlink⟩ :=
    h.storeNew hn hkn (hk.trans_le h.maxHeight.2) hprev
  obtain ⟨n', hn', -, hheight⟩ := hrel₁.nodes x n hn
  obtain ⟨sl₂, hstore, hrep₂, hrel₂⟩ := hrep₁.storePrev hn' (hheight ▸ hkn)
    (hrel₁.maxHeight ▸ hk) hprev hlink
  refine ⟨sl₂, ?_, hrep₂, hrel₁.trans hrel₂⟩
  rw [SkipList.linkLevel, hnew, ok_bind, hstore]

/-! ## `insert` -/

/-- **The store to `max_height_`** adds empty levels. -/
theorem Rep.raise (h : Rep compare sl S) (hheight : height ≤ kMaxHeight) :
    Rep compare (sl.raise height) S :=
  ⟨h.chain, h.headNode, h.node, fun e he => (h.levels e he).trans (le_max_left _ _), h.sorted,
    h.nodup, h.fresh, h.maxHeight.1.trans (le_max_left _ _), max_le h.maxHeight.2 hheight⟩

/-- **`new_node`** makes a node that is not linked yet. -/
theorem Rep.newNode (h : Rep compare sl (L ++ R)) (hcmp : Ordered compare)
    (hplace : Place compare key L R) (hnew : ∀ e ∈ R, e.key ≠ key) :
    Rep compare (sl.newNode key height).2 (L ++ ⟨sl.nextNode, key, 0⟩ :: R) := by
  have hold : ∀ p ∈ head :: (L ++ R).map Entry.ptr,
      (sl.newNode key height).2.nodes p = sl.nodes p := fun p hp =>
    Function.update_of_ne (h.fresh p hp).ne _ _
  have hmem : ∀ e ∈ L ++ ⟨sl.nextNode, key, 0⟩ :: R,
      e = ⟨sl.nextNode, key, 0⟩ ∨ e ∈ L ++ R := by
    intro e he
    rw [List.mem_append, List.mem_cons] at he
    rw [List.mem_append]
    tauto
  have hptrs : ∀ e ∈ L ++ R, e.ptr ∈ head :: (L ++ R).map Entry.ptr := fun e he =>
    List.mem_cons_of_mem _ (List.mem_map_of_mem he)
  have hfresh : sl.nextNode ∉ head :: (L ++ R).map Entry.ptr := fun hm =>
    lt_irrefl _ (h.fresh _ hm)
  have hperm : (head :: (L ++ ⟨sl.nextNode, key, 0⟩ :: R).map Entry.ptr).Perm
      (sl.nextNode :: (head :: (L ++ R).map Entry.ptr)) := by
    rw [List.map_append, List.map_cons, List.map_append, ← List.cons_append, ← List.cons_append]
    exact List.perm_middle
  refine ⟨fun i hi => ?_, ?_, fun e he => ?_, fun e he => ?_, ?_, ?_, fun p hp => ?_, h.maxHeight⟩
  · rw [nodesAt_append, nodesAt_cons_of_le (Nat.zero_le i), ← nodesAt_append]
    refine (h.chain i hi).congr fun u hu => ?_
    rw [link, link, hold u ((nodesAt_sublist.cons_cons head).subset hu)]
  · rw [hold head List.mem_cons_self]
    exact h.headNode
  · rcases hmem e he with rfl | he
    · exact ⟨_, Function.update_self _ _ _, rfl, Nat.zero_le _⟩
    · rw [hold e.ptr (hptrs e he)]
      exact h.node e he
  · rcases hmem e he with rfl | he
    · exact Nat.zero_le _
    · exact h.levels e he
  · obtain ⟨hL, hR, hLR⟩ := List.pairwise_append.mp h.sorted
    refine List.pairwise_append.mpr ⟨hL, List.pairwise_cons.mpr ⟨fun e he => ?_, hR⟩, ?_⟩
    · have hne : compare e.key key ≠ 0 := fun hzero => hnew e he ((hcmp.eq_zero _ _).mp hzero)
      have hle := hplace.after e he
      exact (hcmp.neg_iff key e.key).mpr (by omega)
    · intro e he f hf
      rcases List.mem_cons.mp hf with rfl | hf
      · exact hplace.before e he
      · exact hLR e he f hf
  · exact hperm.nodup_iff.mpr (List.nodup_cons.mpr ⟨hfresh, h.nodup⟩)
  · rcases List.mem_cons.mp (hperm.mem_iff.mp hp) with rfl | hp
    · exact Nat.lt_succ_self _
    · exact (h.fresh p hp).trans (Nat.lt_succ_self _)

/-- The assertion of `insert` holds for a new key. -/
theorem Rep.assertNew (h : Rep compare sl (L ++ R)) (hcmp : Ordered compare)
    (hnew : ∀ e ∈ R, e.key ≠ key) (i : Nat) :
    sl.assertNew compare key (nodesAt i R).head? = .ok () := by
  cases hR : nodesAt i R with
  | nil => rfl
  | cons p l =>
      obtain ⟨e, he, -, rfl⟩ := mem_nodesAt.mp (hR ▸ List.mem_cons_self : p ∈ nodesAt i R)
      have hne : ¬ compare key e.key = 0 := fun hzero => hnew e he ((hcmp.eq_zero _ _).mp hzero).symm
      rw [List.head?_cons, SkipList.assertNew, h.equalAt (List.mem_append_right L he), ok_bind]
      exact require_of (decide_eq_false hne)

/-- **The part of `insert` before the loop** finds the place and makes the node. -/
theorem Rep.startInsert (h : Rep compare sl S) (hcmp : Ordered compare) (hkey : ∀ e ∈ S, e.key ≠ key)
    (hheight : 0 < height ∧ height ≤ kMaxHeight) :
    ∃ L R prev x sl', S = L ++ R ∧ Place compare key L R
      ∧ sl.startInsert compare key height = .ok (prev, x, sl')
      ∧ Rep compare sl' (L ++ ⟨x, key, 0⟩ :: R) ∧ height ≤ sl'.maxHeight
      ∧ (∃ n, sl'.nodes x = some n ∧ n.height = height)
      ∧ ∀ i < height, prev i = some (predecessor L i) := by
  obtain ⟨L, R, rfl, hplace⟩ := exists_place hcmp key h.sorted
  obtain ⟨⟨y, prev⟩, hfind, hy, hprev⟩ := h.findGreaterOrEqual hplace fun _ => none
  simp only at hy hprev
  have hR : ∀ e ∈ R, e.key ≠ key := fun e he => hkey e (List.mem_append_right L he)
  refine ⟨L, R, extendPrev sl.maxHeight height prev, _, _, rfl, hplace, ?_,
    (h.raise hheight.2).newNode hcmp hplace hR, le_max_right _ _,
    ⟨_, Function.update_self _ _ _, rfl⟩, fun i hi => ?_⟩
  · rw [SkipList.startInsert, hfind, ok_bind]
    simp only [hy, h.assertNew hcmp hR 0, ok_bind, require_of hheight.1, require_of hheight.2]
    rfl
  · by_cases hmax : sl.maxHeight ≤ i
    · -- a level that was empty
      have hnil : nodesAt i L = [] := nodesAt_eq_nil fun e he =>
        (h.levels e (List.mem_append_left R he)).trans hmax
      rw [extendPrev, if_pos ⟨hmax, hi⟩, predecessor, hnil]
      rfl
    · rw [extendPrev, if_neg fun hc => hmax hc.1]
      exact hprev i (not_le.mp hmax)

/-- **The loop of `insert`**, up to any turn. -/
theorem Rep.linkLevels (h : Rep compare sl (L ++ ⟨x, key, 0⟩ :: R)) {n : SkipNode Key}
    (hn : sl.nodes x = some n) (hheight : n.height ≤ sl.maxHeight) {prev : Nat → Option NodePtr}
    (hprev : ∀ i < n.height, prev i = some (predecessor L i)) (k : Nat) (hk : k ≤ n.height) :
    ∃ sl', (List.range k).foldlM (SkipList.linkLevel prev x) sl = .ok sl'
      ∧ Rep compare sl' (L ++ ⟨x, key, k⟩ :: R) ∧ Relinked sl sl' := by
  induction k with
  | zero => exact ⟨sl, rfl, h, Relinked.refl sl⟩
  | succ k ih =>
      obtain ⟨sl₁, hfold, hrep, hrel⟩ := ih (by omega)
      obtain ⟨n', hn', -, hheight'⟩ := hrel.nodes x n hn
      obtain ⟨sl₂, hlink, hrep₂, hrel₂⟩ := hrep.linkLevel hn' (by omega)
        (by rw [hrel.maxHeight]; omega) (hprev k (by omega))
      refine ⟨sl₂, ?_, hrep₂, hrel.trans hrel₂⟩
      rw [List.range_succ, List.foldlM_append, hfold, ok_bind]
      exact (List.foldlM_cons ..).trans (by rw [hlink]; rfl)

/-- **`insert`, stopped at any store**: the new entry is linked at some of its levels. -/
theorem Rep.insertUpTo (h : Rep compare sl S) (hcmp : Ordered compare) (hkey : ∀ e ∈ S, e.key ≠ key)
    (hheight : 0 < height ∧ height ≤ kMaxHeight) (hk : k ≤ height) :
    ∃ L R x sl', S = L ++ R ∧ Place compare key L R
      ∧ sl.insertUpTo compare key height k = .ok sl' ∧ Rep compare sl' (L ++ ⟨x, key, k⟩ :: R)
      ∧ (k < height → ∃ sl'', sl.insertHalf compare key height k = .ok sl''
        ∧ Rep compare sl'' (L ++ ⟨x, key, k⟩ :: R)) := by
  obtain ⟨L, R, prev, x, sl₁, rfl, hplace, hstart, hrep, hmax, ⟨n, hn, rfl⟩, hprev⟩ :=
    h.startInsert hcmp hkey hheight
  obtain ⟨sl₂, hfold, hrep₂, hrel⟩ := hrep.linkLevels hn hmax hprev k hk
  refine ⟨L, R, x, sl₂, rfl, hplace, ?_, hrep₂, fun hlt => ?_⟩
  · rw [SkipList.insertUpTo, hstart, ok_bind]
    exact hfold
  · obtain ⟨n', hn', -, hheight'⟩ := hrel.nodes x n hn
    obtain ⟨sl₃, hstore, hrep₃, -, -⟩ := hrep₂.storeNew hn' (by omega) (by omega) (hprev k hlt)
    refine ⟨sl₃, ?_, hrep₃⟩
    rw [SkipList.insertHalf, hstart, ok_bind]
    simp only [hfold, ok_bind, hstore]

end SkipList

end SimpleLeveldb
