import SimpleLeveldb.SkipList.Runs

set_option autoImplicit false

/-! # The iterator of a skip list

An iterator is at a node or is not valid. `next` follows the link of level 0; there are no links
back, and `prev` and `seek_to_last` search from the head. In a list that represents entries which
are all linked at level 0 (every list between two inserts) each operation moves along the entries
(`Rep.iterates`), and the two scans visit them all (`Rep.forward`, `Rep.backward`).
-/

namespace SimpleLeveldb

namespace SkipList

/-- `iterator`: `node_`. The operations take the list of `list_`. -/
structure Iterator where
  node : Option NodePtr
  deriving DecidableEq

namespace Iterator

variable {Key : Type} (compare : Key → Key → Int) (list : SkipList Key) (it : Iterator)

def valid : Bool := it.node.isSome

/-- `node_`, after the assertion that the iterator is valid. -/
def current : Except Fault NodePtr := do
  require (it.valid = true)
  deref it.node

def key : Except Fault Key := do
  return (← list.read (← it.current)).key

/-- `node_` after a search that stays at the head where there is no node. -/
def ofSearch (x : NodePtr) : Iterator := if x = head then ⟨none⟩ else ⟨some x⟩

def next : Except Fault Iterator := do
  return ⟨← list.next (← it.current) 0⟩

def prev : Except Fault Iterator := do
  return ofSearch (← list.findLessThan compare (← list.read (← it.current)).key)

/-- `seek`, which passes no array. -/
def seek (target : Key) : Except Fault Iterator := do
  return ⟨(← list.findGreaterOrEqual compare target (fun _ => none)).1⟩

def seekToFirst : Except Fault Iterator := do
  return ⟨← list.next head 0⟩

def seekToLast : Except Fault Iterator := do
  return ofSearch (← list.findLast)

/-! ## Scans -/

/-- One turn of a scan, with the keys that it has visited. -/
def scanTurn (step : Iterator → Except Fault Iterator) (s : Iterator × List Key) :
    Except Fault (Iterator × List Key ⊕ List Key) :=
  if s.1.valid then do
    let key ← s.1.key list
    return .inl (← step s.1, s.2 ++ [key])
  else return .inr s.2

/-- `for ( ; it.valid(); step( it ) )`: the keys that are visited. -/
def scan (step : Iterator → Except Fault Iterator) : Except Fault (List Key) :=
  Loop.run .endless (scanTurn list step) list.nextNode (it, [])

/-- The scan from the first node on. -/
def forward : Except Fault (List Key) := do
  (← seekToFirst list).scan list (next list)

/-- The scan from the last node back. -/
def backward : Except Fault (List Key) := do
  (← seekToLast list).scan list (prev compare list)

end Iterator

/-! ## What an iterator does -/

section Iterates

variable {Key : Type} {compare : Key → Key → Int} {sl : SkipList Key}

/-- At the first of the nodes; not valid if there are none. -/
def onFirst (l : List (NodePtr × Key)) : Iterator := ⟨l.head?.map Prod.fst⟩

/-- At the last of the nodes; not valid if there are none. -/
def onLast (l : List (NodePtr × Key)) : Iterator := ⟨l.getLast?.map Prod.fst⟩

/-- **Iterators move along `chain`**, the nodes with their keys. A valid iterator is at a node `e`,
with `L` before it and `R` behind it. -/
structure Iterates (compare : Key → Key → Int) (sl : SkipList Key) (chain : List (NodePtr × Key)) :
    Prop where
  key : ∀ e ∈ chain, (Iterator.mk (some e.1)).key sl = .ok e.2
  seekToFirst : Iterator.seekToFirst sl = .ok (onFirst chain)
  seekToLast : Iterator.seekToLast sl = .ok (onLast chain)
  seek : ∀ t, Iterator.seek compare sl t
    = .ok ⟨(chain.find? fun e => ¬ compare e.2 t < 0).map Prod.fst⟩
  next : ∀ L e R, chain = L ++ e :: R → (Iterator.mk (some e.1)).next sl = .ok (onFirst R)
  prev : ∀ L e R, chain = L ++ e :: R → (Iterator.mk (some e.1)).prev compare sl = .ok (onLast L)
  forward : Iterator.forward sl = .ok (chain.map Prod.snd)
  backward : Iterator.backward compare sl = .ok (chain.map Prod.snd).reverse

theorem onFirst_valid {l : List (NodePtr × Key)} : (onFirst l).valid = true ↔ l ≠ [] := by
  cases l <;> simp [onFirst, Iterator.valid]

theorem onLast_eq (l : List (NodePtr × Key)) : onLast l = onFirst l.reverse := by
  rw [onLast, onFirst, List.head?_reverse]

/-- `ofSearch` undoes that the head stands for no node. -/
theorem ofSearch_getLastD {l : List (NodePtr × Key)} (h : head ∉ l.map Prod.fst) :
    Iterator.ofSearch ((l.map Prod.fst).getLastD head) = onLast l := by
  rcases List.eq_nil_or_concat l with rfl | ⟨l, e, rfl⟩
  · rfl
  · have hne : e.1 ≠ head := by
      rintro heq
      exact h (by simp [heq])
    simp [onLast, Iterator.ofSearch, hne]

/-- **A scan along a list of nodes** visits their keys in order: the step leads from every node to
the next one. -/
theorem scan_along {step : Iterator → Except Fault Iterator} {l : List (NodePtr × Key)}
    (hkey : ∀ e ∈ l, (Iterator.mk (some e.1)).key sl = .ok e.2)
    (hstep : ∀ L e R, l = L ++ e :: R → step ⟨some e.1⟩ = .ok (onFirst R))
    (hlen : l.length < sl.nextNode) : (onFirst l).scan sl step = .ok (l.map Prod.snd) := by
  have hbody : ∀ m (s : Iterator × List Key),
      (∃ L R, l = L ++ R ∧ s = (onFirst R, L.map Prod.snd) ∧ m = R.length) →
      (∃ s' m', Iterator.scanTurn sl step s = .ok (.inl s') ∧ m' < m
        ∧ ∃ L R, l = L ++ R ∧ s' = (onFirst R, L.map Prod.snd) ∧ m' = R.length)
      ∨ ∃ a, Iterator.scanTurn sl step s = .ok (.inr a) ∧ a = l.map Prod.snd := by
    rintro m s ⟨L, R, hl, rfl, rfl⟩
    cases R with
    | nil => exact .inr ⟨L.map Prod.snd, rfl, by rw [hl, List.append_nil]⟩
    | cons e R =>
        left
        refine ⟨(onFirst R, (L ++ [e]).map Prod.snd), R.length, ?_, Nat.lt_succ_self _, L ++ [e], R,
          by rw [hl, List.append_cons], rfl, rfl⟩
        rw [Iterator.scanTurn, if_pos (onFirst_valid.mpr (List.cons_ne_nil e R))]
        simp only [onFirst, List.head?_cons, Option.map_some]
        rw [hkey e (by simp [hl]), ok_bind, hstep L e R hl, List.map_append]
        rfl
  obtain ⟨a, hrun, rfl⟩ := Loop.run_of_rank Fault.endless _ _ hbody sl.nextNode l.length
    (onFirst l, []) ⟨[], l, rfl, rfl, rfl⟩ hlen
  exact hrun

/-! ## In a list that represents entries -/

/-- A node with its key. -/
def Entry.node (e : Entry Key) : NodePtr × Key := (e.ptr, e.key)

variable {S L R : List (Entry Key)} {e : Entry Key}

theorem nodesAt_zero (hpos : ∀ e ∈ S, 0 < e.levels) :
    nodesAt 0 S = (S.map Entry.node).map Prod.fst := by
  rw [← chainOf_fst, chainOf_zero hpos]
  rfl

theorem Rep.head_notMem (h : Rep compare sl (L ++ R)) : head ∉ (L.map Entry.node).map Prod.fst := by
  rw [List.map_map]
  intro hmem
  refine (List.nodup_cons.mp h.nodup).1 ?_
  rw [List.map_append]
  exact List.mem_append_left _ hmem

theorem Rep.key (h : Rep compare sl S) (he : e ∈ S) :
    (Iterator.mk (some e.ptr)).key sl = .ok e.key := by
  obtain ⟨n, hn, hkey, -⟩ := h.node e he
  simp only [Iterator.key, Iterator.current, Iterator.valid, Option.isSome_some,
    require_of trivial, ok_bind, deref, SkipList.read, hn, hkey]
  rfl

theorem Rep.seekToFirst (h : Rep compare sl S) (hpos : ∀ e ∈ S, 0 < e.levels) :
    Iterator.seekToFirst sl = .ok (onFirst (S.map Entry.node)) := by
  have hlink := Chain.isChain_iff_head (h.chain 0 (by decide))
  rw [nodesAt_zero hpos, List.head?_map] at hlink
  rw [Iterator.seekToFirst, SkipList.next, hlink]
  rfl

theorem Rep.seekToLast (h : Rep compare sl S) (hpos : ∀ e ∈ S, 0 < e.levels) :
    Iterator.seekToLast sl = .ok (onLast (S.map Entry.node)) := by
  have hhead : head ∉ (S.map Entry.node).map Prod.fst :=
    Rep.head_notMem (R := []) (by rwa [List.append_nil])
  rw [Iterator.seekToLast, h.findLast, predecessor, nodesAt_zero hpos, ← ofSearch_getLastD hhead]
  rfl

/-- The link of level 0 leads to the next entry. -/
theorem Rep.iterator_next (h : Rep compare sl (L ++ e :: R))
    (hpos : ∀ f ∈ L ++ e :: R, 0 < f.levels) :
    (Iterator.mk (some e.ptr)).next sl = .ok (onFirst (R.map Entry.node)) := by
  have hchain := h.chain 0 (by decide)
  rw [nodesAt_zero hpos, List.append_cons, List.map_append, List.map_append] at hchain
  have hlink := hchain.next_getLastD
  simp only [Iterator.next, Iterator.current, Iterator.valid, Option.isSome_some,
    require_of trivial, ok_bind, deref, SkipList.next]
  rw [show e.ptr = (((L ++ [e]).map Entry.node).map Prod.fst).getLastD head by simp [Entry.node],
    hlink, List.head?_map]
  rfl

/-- The search for the key of an entry ends at the entry before it. -/
theorem Rep.iterator_prev (h : Rep compare sl (L ++ e :: R))
    (hpos : ∀ f ∈ L ++ e :: R, 0 < f.levels) (hcmp : Ordered compare) :
    (Iterator.mk (some e.ptr)).prev compare sl = .ok (onLast (L.map Entry.node)) := by
  obtain ⟨-, hright, hbefore⟩ := List.pairwise_append.mp h.sorted
  have hplace : Place compare e.key L (e :: R) := by
    refine ⟨fun f hf => hbefore f hf e List.mem_cons_self,
      List.forall_mem_cons.mpr ⟨hcmp.irrefl _, ?_⟩⟩
    intro f hf hlt
    exact hcmp.irrefl _ (hcmp.trans _ _ _ hlt ((List.pairwise_cons.mp hright).1 f hf))
  obtain ⟨n, hn, hkey, -⟩ := h.node e (by simp)
  simp only [Iterator.prev, Iterator.current, Iterator.valid, Option.isSome_some,
    require_of trivial, ok_bind, deref, SkipList.read, hn, hkey]
  rw [h.findLessThan hplace, predecessor,
    nodesAt_zero fun f hf => hpos f (List.mem_append_left _ hf), ← ofSearch_getLastD h.head_notMem]
  rfl

/-- `seek` finds the first entry that is not before the target. -/
theorem Rep.seek (h : Rep compare sl S) (hpos : ∀ e ∈ S, 0 < e.levels) (hcmp : Ordered compare)
    (t : Key) : Iterator.seek compare sl t
      = .ok ⟨((S.map Entry.node).find? fun e => ¬ compare e.2 t < 0).map Prod.fst⟩ := by
  obtain ⟨L, R, rfl, hplace⟩ := exists_place hcmp t h.sorted
  obtain ⟨r, hfind, hr, -⟩ := h.findGreaterOrEqual hplace fun _ => none
  have hleft : (L.map Entry.node).find? (fun e => ¬ compare e.2 t < 0) = none := by
    rw [List.find?_eq_none, List.forall_mem_map]
    intro e he
    simpa [Entry.node] using hplace.before e he
  have hright : (R.map Entry.node).find? (fun e => ¬ compare e.2 t < 0)
      = (R.map Entry.node).head? := by
    cases R with
    | nil => rfl
    | cons e R =>
        rw [List.map_cons, List.find?_cons_of_pos, List.head?_cons]
        simpa [Entry.node] using hplace.after e List.mem_cons_self
  rw [Iterator.seek, hfind, ok_bind, hr, List.map_append, List.find?_append, hleft, Option.none_or,
    hright, nodesAt_zero fun e he => hpos e (List.mem_append_right _ he), List.head?_map]
  rfl

/-- **The iterator moves along the entries.** -/
theorem Rep.iterates (h : Rep compare sl S) (hpos : ∀ e ∈ S, 0 < e.levels)
    (hcmp : Ordered compare) : Iterates compare sl (S.map Entry.node) := by
  have hkey : ∀ e ∈ S.map Entry.node, (Iterator.mk (some e.1)).key sl = .ok e.2 := by
    rw [List.forall_mem_map]
    exact fun e he => h.key he
  have hnext : ∀ L e R, S.map Entry.node = L ++ e :: R →
      (Iterator.mk (some e.1)).next sl = .ok (onFirst R) := by
    intro L e R hS
    obtain ⟨L, R, rfl, rfl, hR⟩ := List.map_eq_append_iff.mp hS
    obtain ⟨e, R, rfl, rfl, rfl⟩ := List.map_eq_cons_iff.mp hR
    exact h.iterator_next hpos
  have hprev : ∀ L e R, S.map Entry.node = L ++ e :: R →
      (Iterator.mk (some e.1)).prev compare sl = .ok (onLast L) := by
    intro L e R hS
    obtain ⟨L, R, rfl, rfl, hR⟩ := List.map_eq_append_iff.mp hS
    obtain ⟨e, R, rfl, rfl, rfl⟩ := List.map_eq_cons_iff.mp hR
    exact h.iterator_prev hpos hcmp
  have hlen : (S.map Entry.node).length < sl.nextNode := by
    rw [List.length_map]
    exact h.length_lt
  refine ⟨hkey, h.seekToFirst hpos, h.seekToLast hpos, h.seek hpos hcmp, hnext, hprev, ?_, ?_⟩
  · rw [Iterator.forward, h.seekToFirst hpos, ok_bind]
    exact scan_along hkey hnext hlen
  · rw [Iterator.backward, h.seekToLast hpos, ok_bind, onLast_eq,
      ← List.map_reverse (f := Prod.snd)]
    refine scan_along (fun e he => hkey e (List.mem_reverse.mp he)) (fun L e R hS => ?_)
      (by rwa [List.length_reverse])
    -- what is behind a node in the reversed list is before it in the list
    rw [hprev R.reverse e L.reverse ?_, onLast_eq, List.reverse_reverse]
    rw [← List.reverse_reverse (S.map Entry.node), hS]
    simp

/-- **Every run of inserts of distinct keys** leaves a list over which iterators move in order. -/
theorem iterates_build {zero : Key} (hcmp : Ordered compare) (keys : List (Key × Nat))
    (hnodup : (keys.map Prod.fst).Nodup) (hheights : ∀ k ∈ keys, 0 < k.2 ∧ k.2 ≤ kMaxHeight) :
    ∃ sl chain, build compare zero keys = .ok sl
      ∧ (chain.map Prod.snd).Pairwise (fun a b => compare a b < 0)
      ∧ (chain.map Prod.snd).Perm (keys.map Prod.fst) ∧ Iterates compare sl chain := by
  obtain ⟨sl, hbuild, S, hrep, hpos, hperm⟩ := build_holds hcmp zero keys hnodup hheights
  refine ⟨sl, S.map Entry.node, hbuild, ?_, ?_, hrep.iterates hpos hcmp⟩
  · rw [List.map_map, List.pairwise_map]
    exact hrep.sorted
  · rw [List.map_map]
    exact hperm

/-- Three keys, the second of which is at all levels. -/
theorem iterates_build_three :
    ∃ sl chain, build (fun a b : Int => a - b) 0 [(5, 1), (2, 12), (9, 3)] = .ok sl
      ∧ (chain.map Prod.snd).Pairwise (fun a b => a - b < 0)
      ∧ (chain.map Prod.snd).Perm [5, 2, 9] ∧ Iterates (fun a b : Int => a - b) sl chain :=
  iterates_build ordered_sub [(5, 1), (2, 12), (9, 3)] (by decide) (by decide)

end Iterates

end SkipList

end SimpleLeveldb
