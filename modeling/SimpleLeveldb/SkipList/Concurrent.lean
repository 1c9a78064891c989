import SimpleLeveldb.SkipList.Iterator
import Mathlib.Data.List.Forall2

set_option autoImplicit false

/-! # Readers beside a writer (`skip_list.h`)

Writes to a skip list are synchronised by its users; reads go on beside a write without any lock.
Here one writer inserts key after key, and any number of readers search and scan. A step is one
store to a link or to `max_height_`, or one turn of a loop of a reader, which loads one link; the
key of a node never changes. The steps are taken in any order, one after the other.

A search stays where it stands while the writer goes on (`Stands.grown`), and what its next load can
see is what a search in the present list would see there (`Stands.next`). A scan goes on to the first
linked node behind the one at which it is (`Scans.turn`).
-/

namespace SimpleLeveldb

namespace SkipList

/-! ## The writer -/

/-- Where the writer is in `insert`. -/
inductive WriterPhase (Key : Type) where
  | idle
  /-- past the store to `max_height_` -/
  | raised (key : Key) (height : Nat) (prev : Nat → Option NodePtr)
  /-- the node `x` is made, and linked at the levels below `i` -/
  | linking (key : Key) (height : Nat) (prev : Nat → Option NodePtr) (x : NodePtr) (i : Nat)
  /-- between the two stores of turn `i` -/
  | half (key : Key) (height : Nat) (prev : Nat → Option NodePtr) (x : NodePtr) (i : Nat)

/-! ## The readers -/

/-- A call of a reader. `prev` has the key of the node at which its iterator is. -/
inductive ReaderCall (Key : Type) where
  | contains (key : Key)
  | seek (target : Key)
  | prev (key : Key)
  | seekToLast
  /-- `for ( it.seek_to_first(); it.valid(); it.next() )` -/
  | scan

/-- What a call returns. -/
inductive Answer (Key : Type) where
  | found (b : Bool)
  | iterator (it : Iterator)
  | visited (keys : List Key)

/-- Where a reader is in a call: the variables of its loop. -/
inductive Position (Key : Type) where
  | contains (key : Key) (s : Search)
  | seek (target : Key) (s : Search)
  | prev (key : Key) (s : NodePtr × Nat)
  | seekToLast (s : NodePtr × Nat)
  | scan (it : Iterator) (visited : List Key)

variable {Key : Type}

def Position.call : Position Key → ReaderCall Key
  | contains key _ => .contains key
  | seek target _ => .seek target
  | prev key _ => .prev key
  | seekToLast _ => .seekToLast
  | scan _ _ => .scan

/-- The start of a call loads `max_height_`, or the first link. -/
def start (list : SkipList Key) : ReaderCall Key → Except Fault (Position Key)
  | .contains key => .ok (.contains key ⟨head, list.maxHeight - 1, fun _ => none⟩)
  | .seek target => .ok (.seek target ⟨head, list.maxHeight - 1, fun _ => none⟩)
  | .prev key => .ok (.prev key (head, list.maxHeight - 1))
  | .seekToLast => .ok (.seekToLast (head, list.maxHeight - 1))
  | .scan => do return .scan (← Iterator.seekToFirst list) []

section Compare

variable (compare : Key → Key → Int)

/-- The end of `contains`, with what `find_greater_or_equal` has returned. -/
def containsAt (list : SkipList Key) (key : Key) : Option NodePtr → Except Fault Bool
  | some x => list.equalAt compare key x
  | none => .ok false

/-- One turn of the loop of a call: it goes on, or the call returns. -/
def turn (list : SkipList Key) : Position Key → Except Fault (Position Key ⊕ Answer Key)
  | .contains key s => do
      match ← searchTurn compare list key s with
      | .inl s => return .inl (.contains key s)
      | .inr (x, _) => return .inr (.found (← containsAt compare list key x))
  | .seek target s => do
      match ← searchTurn compare list target s with
      | .inl s => return .inl (.seek target s)
      | .inr (x, _) => return .inr (.iterator ⟨x⟩)
  | .prev key s => do
      match ← lessThanTurn compare list key s with
      | .inl s => return .inl (.prev key s)
      | .inr x => return .inr (.iterator (Iterator.ofSearch x))
  | .seekToLast s => do
      match ← lastTurn list s with
      | .inl s => return .inl (.seekToLast s)
      | .inr x => return .inr (.iterator (Iterator.ofSearch x))
  | .scan it visited => do
      match ← Iterator.scanTurn list (Iterator.next list) (it, visited) with
      | .inl (it, visited) => return .inl (.scan it visited)
      | .inr visited => return .inr (.visited visited)

/-- A call that runs with no other step in between. -/
def atomically (list : SkipList Key) : ReaderCall Key → Except Fault (Answer Key)
  | .contains key => do return .found (← list.contains compare key)
  | .seek target => do return .iterator (← Iterator.seek compare list target)
  | .prev key => do return .iterator (Iterator.ofSearch (← list.findLessThan compare key))
  | .seekToLast => do return .iterator (← Iterator.seekToLast list)
  | .scan => do return .visited (← Iterator.forward list)

/-! ## The steps -/

/-- A call that is under way, with the keys whose inserts were over when it began, and the number of
its turns. -/
structure Reading (Key : Type) where
  position : Position Key
  known : List Key
  turns : Nat

/-- A list with its writer and its readers, and the keys whose inserts are over. -/
structure Shared (ι Key : Type) where
  list : SkipList Key
  writer : WriterPhase Key
  readers : ι → Option (Reading Key)
  inserted : List Key

/-- The key of an insert that is under way. -/
def WriterPhase.current : WriterPhase Key → List Key
  | idle => []
  | raised key _ _ => [key]
  | linking key _ _ _ _ => [key]
  | half key _ _ _ _ => [key]

variable {ι : Type}

/-- The keys whose inserts have begun. -/
def Shared.begun (st : Shared ι Key) : List Key := st.inserted ++ st.writer.current

/-- The reader `i` goes on, or ends its call. -/
def Shared.setReader [DecidableEq ι] (st : Shared ι Key) (i : ι) (r : Option (Reading Key)) :
    Shared ι Key :=
  { st with readers := Function.update st.readers i r }

/-- One step. An insert is of a new key, with any height that `random_height` may return. -/
inductive Step [DecidableEq ι] : Shared ι Key → Except Fault (Shared ι Key) → Prop
  /-- the part of `insert` up to the store to `max_height_` -/
  | begin {st : Shared ι Key} {key : Key} {height : Nat} : st.writer = .idle → key ∉ st.inserted →
      0 < height → height ≤ kMaxHeight →
      Step st (do
        let (x, prev) ← st.list.findGreaterOrEqual compare key (fun _ => none)
        st.list.assertNew compare key x
        return { st with
          list := st.list.raise height
          writer := .raised key height (extendPrev st.list.maxHeight height prev) })
  /-- `new_node` -/
  | allocate {st : Shared ι Key} {key : Key} {height : Nat} {prev : Nat → Option NodePtr} :
      st.writer = .raised key height prev →
      Step st (.ok { st with
        list := (st.list.newNode key height).2
        writer := .linking key height prev (st.list.newNode key height).1 0 })
  | storeNew {st : Shared ι Key} {key : Key} {height : Nat} {prev : Nat → Option NodePtr}
      {x : NodePtr} {i : Nat} : st.writer = .linking key height prev x i → i < height →
      Step st (do
        let list ← storeNew prev x st.list i
        return { st with list := list, writer := .half key height prev x i })
  | storePrev {st : Shared ι Key} {key : Key} {height : Nat} {prev : Nat → Option NodePtr}
      {x : NodePtr} {i : Nat} : st.writer = .half key height prev x i →
      Step st (do
        let list ← storePrev prev x st.list i
        return { st with list := list, writer := .linking key height prev x (i + 1) })
  /-- `insert` returns -/
  | finish {st : Shared ι Key} {key : Key} {height : Nat} {prev : Nat → Option NodePtr}
      {x : NodePtr} : st.writer = .linking key height prev x height →
      Step st (.ok { st with writer := .idle, inserted := st.inserted ++ [key] })
  | call {st : Shared ι Key} {i : ι} {c : ReaderCall Key} : st.readers i = none →
      Step st (do
        let position ← start st.list c
        return st.setReader i (some ⟨position, st.inserted, 0⟩))
  | turn {st : Shared ι Key} {i : ι} {r : Reading Key} : st.readers i = some r →
      Step st (do
        match ← turn compare st.list r.position with
        | .inl position => return st.setReader i (some ⟨position, r.known, r.turns + 1⟩)
        | .inr _ => return st.setReader i none)

/-- What a list can come to, from the constructor on. -/
inductive Reachable [DecidableEq ι] (zero : Key) : Shared ι Key → Prop
  | new {list : SkipList Key} : new zero = .ok list →
      Reachable zero ⟨list, .idle, fun _ => none, []⟩
  | step {st st' : Shared ι Key} : Reachable zero st → Step compare st (.ok st') →
      Reachable zero st'

end Compare

/-! ## How the entries grow -/

/-- An entry is the same one as before, linked at as many levels or more. -/
def Entry.Same (e e' : Entry Key) : Prop :=
  e'.ptr = e.ptr ∧ e'.key = e.key ∧ e.levels ≤ e'.levels

theorem Entry.same_refl (e : Entry Key) : e.Same e := ⟨rfl, rfl, le_refl _⟩

/-- Entries are linked at more levels, and there are more of them. -/
abbrev Grown (S S' : List (Entry Key)) : Prop := List.SublistForall₂ Entry.Same S S'

theorem grown_refl (S : List (Entry Key)) : Grown S S := by
  induction S with
  | nil => exact .nil
  | cons e S ih => exact .cons e.same_refl ih

theorem grown_cons (e : Entry Key) (S : List (Entry Key)) : Grown S (e :: S) :=
  .cons_right (grown_refl S)

theorem Grown.append_left {R R' : List (Entry Key)} (h : Grown R R') (L : List (Entry Key)) :
    Grown (L ++ R) (L ++ R') := by
  induction L with
  | nil => exact h
  | cons e L ih => exact .cons e.same_refl ih

theorem Grown.length_le {S S' : List (Entry Key)} (h : Grown S S') : S.length ≤ S'.length := by
  induction h with
  | nil => exact Nat.zero_le _
  | cons _ _ ih => exact Nat.succ_le_succ ih
  | cons_right _ ih => exact Nat.le_succ_of_le ih

/-- What becomes of an entry, and of the entries before and behind it. -/
theorem Grown.split {A B S' : List (Entry Key)} {e : Entry Key} (h : Grown (A ++ e :: B) S') :
    ∃ A' e' B', S' = A' ++ e' :: B' ∧ Grown A A' ∧ e.Same e' ∧ Grown B B' := by
  generalize hS : A ++ e :: B = S at h
  induction h generalizing A with
  | nil => simp at hS
  | @cons a a' S S' hsame hgrown ih =>
      cases A with
      | nil =>
          obtain ⟨rfl, rfl⟩ := List.cons.inj hS
          exact ⟨[], a', S', rfl, .nil, hsame, hgrown⟩
      | cons b A =>
          obtain ⟨rfl, rfl⟩ := List.cons.inj hS
          obtain ⟨A', e', B', rfl, hA, he, hB⟩ := ih rfl
          exact ⟨a' :: A', e', B', rfl, .cons hsame hA, he, hB⟩
  | @cons_right a S S' hgrown ih =>
      obtain ⟨A', e', B', rfl, hA, he, hB⟩ := ih hS
      exact ⟨a :: A', e', B', rfl, .cons_right hA, he, hB⟩

theorem Grown.exists_mem {S S' : List (Entry Key)} (h : Grown S S') {e : Entry Key} (he : e ∈ S) :
    ∃ e' ∈ S', e.Same e' := by
  obtain ⟨A, B, rfl⟩ := List.append_of_mem he
  obtain ⟨A', e', B', rfl, -, hsame, -⟩ := h.split
  exact ⟨e', by simp, hsame⟩

/-! ## Where a search stands -/

/-- **A search stands** at `x`, at a level at which `x` is linked: `x` is the head, or an entry that is
before what is looked for. It has made no more turns than it has passed entries and levels. -/
def Stands (S : List (Entry Key)) (before : Key → Prop) (x : NodePtr) (level turns : Nat) : Prop :=
  ∃ A B, S = A ++ B ∧ x = predecessor A level
    ∧ (∀ e ∈ A.getLast?, level < e.levels ∧ before e.key)
    ∧ turns + level < A.length + kMaxHeight

section Stands

variable {compare : Key → Key → Int} {sl : SkipList Key} {S S' L R : List (Entry Key)}
  {before : Key → Prop} {x : NodePtr} {level turns : Nat}

theorem stands_head (S : List (Entry Key)) (before : Key → Prop) (h : level < kMaxHeight) :
    Stands S before head level 0 :=
  ⟨[], S, rfl, rfl, nofun, by simpa using h⟩

/-- The writer does not move a search. -/
theorem Stands.grown (h : Stands S before x level turns) (hgrown : Grown S S') :
    Stands S' before x level turns := by
  obtain ⟨A, B, rfl, hx, hlast, hturns⟩ := h
  rcases List.eq_nil_or_concat A with rfl | ⟨A, e, rfl⟩
  · exact ⟨[], S', rfl, hx, nofun, hturns⟩
  · rw [List.concat_eq_append] at hx hlast hturns hgrown
    rw [List.append_assoc, List.singleton_append] at hgrown
    obtain ⟨A', e', B', rfl, hA, ⟨hptr, hkey, hlevels⟩, -⟩ := hgrown.split
    have hlt := hlast e (by simp)
    have hlen := hA.length_le
    have hlt' : level < e'.levels := hlt.1.trans_le hlevels
    refine ⟨A' ++ [e'], B', by simp, ?_, fun f hf => ?_, ?_⟩
    · -- both predecessors are the last entries
      rw [hx, predecessor, predecessor, nodesAt_append, nodesAt_append,
        nodesAt_cons_of_lt hlt.1, nodesAt_cons_of_lt hlt']
      simp [hptr]
    · rw [List.getLast?_concat, Option.mem_some_iff] at hf
      rw [← hf, hkey]
      exact ⟨hlt', hlt.2⟩
    · rw [List.length_append, List.length_singleton] at hturns ⊢
      omega

/-- `L` is the part of the entries that is before what is looked for. -/
structure Parts (before : Key → Prop) (L R : List (Entry Key)) : Prop where
  left : ∀ e ∈ L, before e.key
  right : ∀ e ∈ R, ¬ before e.key

theorem Place.parts {key : Key} (h : Place compare key L R) :
    Parts (fun k => compare k key < 0) L R :=
  ⟨h.before, h.after⟩

/-- The position as the rules for a search in one list have it. -/
theorem Stands.at (h : Stands (L ++ R) before x level turns) (hparts : Parts before L R)
    (hlevel : level < sl.maxHeight) :
    ∃ m, At sl.maxHeight L m x level ∧ turns + m < L.length + kMaxHeight := by
  obtain ⟨A, B, hS, hx, hlast, hturns⟩ := h
  have hprefix : ∃ C, L = A ++ C := by
    rcases List.append_eq_append_iff.mp hS with ⟨C, rfl, hB⟩ | ⟨C, hA, rfl⟩
    · rcases List.eq_nil_or_concat C with rfl | ⟨C, e, rfl⟩
      · exact ⟨[], by simp⟩
      · -- the last entry of `A` would not be before
        exfalso
        rw [List.concat_eq_append] at hB hlast
        refine hparts.right e (by rw [hB]; simp) (hlast e ?_).2
        simp [← List.append_assoc]
    · exact ⟨C, hA⟩
  obtain ⟨C, rfl⟩ := hprefix
  refine ⟨C.length + level, ⟨A, C, rfl, hx, fun e he => (hlast e he).1, hlevel, rfl⟩, ?_⟩
  rw [List.length_append]
  omega

theorem At.stands {maxHeight m : Nat} (h : At maxHeight L m x level) (hparts : Parts before L R)
    (hturns : turns + m < L.length + kMaxHeight) : Stands (L ++ R) before x level turns := by
  obtain ⟨A, B, rfl, hx, hlast, -, rfl⟩ := h
  refine ⟨A, B ++ R, List.append_assoc A B R, hx, fun e he => ⟨hlast e he, hparts.left e ?_⟩, ?_⟩
  · exact List.mem_append_left B (List.mem_of_getLast? he)
  · rw [List.length_append] at hturns
    omega

/-- **What the next load of a search can see.** -/
theorem Stands.next (h : Stands (L ++ R) before x level turns) (hrep : Rep compare sl (L ++ R))
    (hparts : Parts before L R) (hlevel : level < sl.maxHeight) :
    (∃ e ∈ L, sl.next x level = .ok (some e.ptr) ∧ Stands (L ++ R) before e.ptr level (turns + 1))
      ∨ sl.next x level = .ok (nodesAt level R).head? ∧ x = predecessor L level
        ∧ (level ≠ 0 → Stands (L ++ R) before x (level - 1) (turns + 1)) := by
  obtain ⟨m, hat, hturns⟩ := h.at hparts hlevel
  rcases hrep.at_next hat with ⟨e, he, hnext, m', hm, hat'⟩ | ⟨hnext, hx, hdown⟩
  · exact .inl ⟨e, he, hnext, hat'.stands hparts (by omega)⟩
  · refine .inr ⟨hnext, hx, fun hzero => ?_⟩
    obtain ⟨m', hm, hat'⟩ := hdown hzero
    exact hat'.stands hparts (by omega)

theorem Stands.turns_lt (h : Stands S before x level turns) :
    turns < S.length + kMaxHeight := by
  obtain ⟨A, B, rfl, -, -, hturns⟩ := h
  rw [List.length_append]
  omega

end Stands

/-! ## One turn of a reader -/

section Turn

variable {compare : Key → Key → Int} {sl : SkipList Key} {S S' L R : List (Entry Key)}
  {known visited : List Key} {turns : Nat}

/-- **A scan** has visited ascending keys of the list, and among them every key of `known` that is
before the node at which it is. -/
structure Scans (compare : Key → Key → Int) (S : List (Entry Key)) (known : List Key) (it : Iterator)
    (visited : List Key) (turns : Nat) : Prop where
  ascending : visited.Pairwise fun a b => compare a b < 0
  listed : ∀ k ∈ visited, ∃ e ∈ S, 0 < e.levels ∧ e.key = k
  turns : turns = visited.length
  atEnd : it.node = none → ∀ k ∈ known, k ∈ visited
  atNode : ∀ x, it.node = some x → ∃ e ∈ S, e.ptr = x ∧ 0 < e.levels
    ∧ (∀ k ∈ visited, compare k e.key < 0) ∧ ∀ k ∈ known, k ∈ visited ∨ ¬ compare k e.key < 0

/-- The variables of a call, in a list of the entries `S`. -/
def Position.Sound (compare : Key → Key → Int) (maxHeight : Nat) (S : List (Entry Key))
    (known : List Key) (turns : Nat) : Position Key → Prop
  | .contains key s => s.level < maxHeight ∧ Stands S (fun k => compare k key < 0) s.x s.level turns
  | .seek target s =>
      s.level < maxHeight ∧ Stands S (fun k => compare k target < 0) s.x s.level turns
  | .prev key s => s.2 < maxHeight ∧ Stands S (fun k => compare k key < 0) s.1 s.2 turns
  | .seekToLast s => s.2 < maxHeight ∧ Stands S (fun _ => True) s.1 s.2 turns
  | .scan it visited => Scans compare S known it visited turns

theorem Scans.grown {it : Iterator} (h : Scans compare S known it visited turns)
    (hgrown : Grown S S') : Scans compare S' known it visited turns where
  ascending := h.ascending
  listed := by
    intro k hk
    obtain ⟨e, he, hpos, rfl⟩ := h.listed k hk
    obtain ⟨e', he', -, hkey, hle⟩ := hgrown.exists_mem he
    exact ⟨e', he', hpos.trans_le hle, hkey⟩
  turns := h.turns
  atEnd := h.atEnd
  atNode := by
    intro x hx
    obtain ⟨e, he, rfl, hpos, hvisited, hknown⟩ := h.atNode x hx
    obtain ⟨e', he', hptr, hkey, hle⟩ := hgrown.exists_mem he
    exact ⟨e', he', hptr, hpos.trans_le hle, by rwa [hkey], by rwa [hkey]⟩

/-- The writer does not disturb a call. -/
theorem Position.Sound.grown {maxHeight maxHeight' : Nat} {p : Position Key}
    (h : p.Sound compare maxHeight S known turns) (hgrown : Grown S S')
    (hmax : maxHeight ≤ maxHeight') : p.Sound compare maxHeight' S' known turns := by
  cases p with
  | contains key s => exact ⟨h.1.trans_le hmax, h.2.grown hgrown⟩
  | seek target s => exact ⟨h.1.trans_le hmax, h.2.grown hgrown⟩
  | prev key s => exact ⟨h.1.trans_le hmax, h.2.grown hgrown⟩
  | seekToLast s => exact ⟨h.1.trans_le hmax, h.2.grown hgrown⟩
  | scan it visited => exact Scans.grown h hgrown

/-- **A turn of `find_greater_or_equal`** between stores of the writer. -/
theorem Stands.searchTurn {key : Key} {s : Search} (hrep : Rep compare sl (L ++ R))
    (hplace : Place compare key L R) (hlevel : s.level < sl.maxHeight)
    (h : Stands (L ++ R) (fun k => compare k key < 0) s.x s.level turns) :
    (∃ s', SkipList.searchTurn compare sl key s = .ok (.inl s') ∧ s'.level < sl.maxHeight
        ∧ Stands (L ++ R) (fun k => compare k key < 0) s'.x s'.level (turns + 1))
      ∨ ∃ prev, SkipList.searchTurn compare sl key s = .ok (.inr ((nodesAt 0 R).head?, prev)) := by
  rcases h.next hrep hplace.parts hlevel with ⟨e, he, hnext, hstands⟩ | ⟨hnext, -, hdown⟩
  · have hafter := hrep.keyIsAfterNode (List.mem_append_left R he) key
    rw [decide_eq_true (hplace.before e he)] at hafter
    refine .inl ⟨{ s with x := e.ptr }, ?_, hlevel, hstands⟩
    simp only [SkipList.searchTurn, hnext, ok_bind, hafter]
    rfl
  · have hafter := hrep.not_keyIsAfterNode hplace s.level
    by_cases hzero : s.level = 0
    · refine .inr ⟨Function.update s.prev s.level (some s.x), ?_⟩
      rw [← hzero]
      simp only [SkipList.searchTurn, hnext, ok_bind, hafter, if_pos hzero]
      rfl
    · refine .inl ⟨⟨s.x, s.level - 1, Function.update s.prev s.level (some s.x)⟩, ?_,
        (Nat.sub_le s.level 1).trans_lt hlevel, hdown hzero⟩
      simp only [SkipList.searchTurn, hnext, ok_bind, hafter, if_neg hzero]
      rfl

/-- **A turn of `find_less_than`** -/
theorem Stands.lessThanTurn {key : Key} {s : NodePtr × Nat} (hrep : Rep compare sl (L ++ R))
    (hplace : Place compare key L R) (hlevel : s.2 < sl.maxHeight)
    (h : Stands (L ++ R) (fun k => compare k key < 0) s.1 s.2 turns) :
    (∃ s', SkipList.lessThanTurn compare sl key s = .ok (.inl s') ∧ s'.2 < sl.maxHeight
        ∧ Stands (L ++ R) (fun k => compare k key < 0) s'.1 s'.2 (turns + 1))
      ∨ SkipList.lessThanTurn compare sl key s = .ok (.inr (predecessor L 0)) := by
  obtain ⟨m, hat, -⟩ := h.at hplace.parts hlevel
  have hassert := hrep.assertBefore hplace hat
  simp only [SkipList.lessThanTurn, hassert, ok_bind]
  rcases h.next hrep hplace.parts hlevel with ⟨e, he, hnext, hstands⟩ | ⟨hnext, hx, hdown⟩
  · have hbefore := hrep.isNotBefore (List.mem_append_left R he) key
    rw [decide_eq_false (not_not_intro (hplace.before e he))] at hbefore
    refine .inl ⟨(e.ptr, s.2), ?_, hlevel, hstands⟩
    rw [hnext, ok_bind, hbefore]
    rfl
  · rw [hnext, ok_bind, hrep.isNotBefore_head hplace s.2]
    by_cases hzero : s.2 = 0
    · right
      rw [hx, hzero]
      rfl
    · refine .inl ⟨(s.1, s.2 - 1), ?_, (Nat.sub_le s.2 1).trans_lt hlevel, hdown hzero⟩
      simp only [ok_bind, if_true, if_neg hzero]
      rfl

/-- **A turn of `find_last`** -/
theorem Stands.lastTurn {s : NodePtr × Nat} (hrep : Rep compare sl S) (hlevel : s.2 < sl.maxHeight)
    (h : Stands S (fun _ => True) s.1 s.2 turns) :
    (∃ s', SkipList.lastTurn sl s = .ok (.inl s') ∧ s'.2 < sl.maxHeight
        ∧ Stands S (fun _ => True) s'.1 s'.2 (turns + 1))
      ∨ SkipList.lastTurn sl s = .ok (.inr (predecessor S 0)) := by
  have hparts : Parts (fun _ => True) S [] := ⟨fun _ _ => trivial, nofun⟩
  rw [← List.append_nil S] at h hrep
  have hnext := h.next hrep hparts hlevel
  rw [List.append_nil] at hnext
  simp only [SkipList.lastTurn]
  rcases hnext with ⟨e, -, hnext, hstands⟩ | ⟨hnext, hx, hdown⟩
  · exact .inl ⟨(e.ptr, s.2), by rw [hnext]; rfl, hlevel, hstands⟩
  · rw [hnext, nodesAt_nil, List.head?_nil]
    by_cases hzero : s.2 = 0
    · right
      rw [hx, hzero]
      rfl
    · refine .inl ⟨(s.1, s.2 - 1), ?_, (Nat.sub_le s.2 1).trans_lt hlevel, hdown hzero⟩
      simp only [ok_bind, if_neg hzero]
      rfl

/-- The entries up to one that is linked at level 0, and those behind it. -/
theorem Rep.next_entry {A B : List (Entry Key)} {e : Entry Key} (h : Rep compare sl (A ++ e :: B))
    (hpos : 0 < e.levels) : sl.next e.ptr 0 = .ok (nodesAt 0 B).head? := by
  have hchain := h.chain 0 (by decide)
  rw [List.append_cons, nodesAt_append, nodesAt_append, nodesAt_cons_of_lt hpos] at hchain
  have hlink := hchain.next_getLastD
  rw [nodesAt_nil, List.getLastD_concat] at hlink
  rw [SkipList.next, hlink]

/-- The first of the entries that is linked at level 0, if there is one. -/
theorem nodesAt_zero_cases (B : List (Entry Key)) :
    (nodesAt 0 B).head? = none ∧ (∀ e ∈ B, e.levels = 0)
      ∨ ∃ B₁ e B₂, B = B₁ ++ e :: B₂ ∧ (nodesAt 0 B).head? = some e.ptr ∧ 0 < e.levels
        ∧ ∀ f ∈ B₁, f.levels = 0 := by
  have hnil : ∀ {C : List (Entry Key)}, nodesAt 0 C = [] → ∀ e ∈ C, e.levels = 0 := by
    intro C hC e he
    by_contra hne
    have hmem : e.ptr ∈ nodesAt 0 C := mem_nodesAt.mpr ⟨e, he, Nat.pos_of_ne_zero hne, rfl⟩
    rw [hC] at hmem
    exact List.not_mem_nil hmem
  cases hB : nodesAt 0 B with
  | nil => exact .inl ⟨rfl, hnil hB⟩
  | cons p l =>
      obtain ⟨B₁, e, B₂, rfl, rfl, hpos, hB₁⟩ := exists_of_nodesAt_eq_cons hB
      exact .inr ⟨B₁, e, B₂, rfl, rfl, hpos, hnil hB₁⟩

/-- **A scan goes on** to the first of the entries `B` that is linked, where it has visited all keys
of `known` before `B`. -/
theorem Scans.goTo {A B : List (Entry Key)}
    (hsorted : (A ++ B).Pairwise fun a b => compare a.key b.key < 0) (hcmp : Ordered compare)
    (hknown : ∀ k ∈ known, ∃ e ∈ A ++ B, 0 < e.levels ∧ e.key = k)
    (hascending : visited.Pairwise fun a b => compare a b < 0)
    (hvisited : ∀ k ∈ visited, ∃ e ∈ A, 0 < e.levels ∧ e.key = k)
    (hall : ∀ e ∈ A, e.key ∈ known → e.key ∈ visited) :
    Scans compare (A ++ B) known ⟨(nodesAt 0 B).head?⟩ visited visited.length := by
  have hmem : ∀ k ∈ known, k ∈ visited ∨ ∃ e ∈ B, 0 < e.levels ∧ e.key = k := by
    intro k hk
    obtain ⟨e, he, hpos, rfl⟩ := hknown k hk
    rcases List.mem_append.mp he with he | he
    · exact .inl (hall e he hk)
    · exact .inr ⟨e, he, hpos, rfl⟩
  refine ⟨hascending, fun k hk => ?_, rfl, fun hnone k hk => ?_, fun x hx => ?_⟩
  · obtain ⟨e, he, hlinked⟩ := hvisited k hk
    exact ⟨e, List.mem_append_left B he, hlinked⟩
  · refine (hmem k hk).resolve_right ?_
    rintro ⟨e, he, hpos, -⟩
    rcases nodesAt_zero_cases B with ⟨-, hzero⟩ | ⟨B₁, f, B₂, -, hhead, -⟩
    · exact hpos.ne' (hzero e he)
    · simp [hhead] at hnone
  · rcases nodesAt_zero_cases B with ⟨hhead, -⟩ | ⟨B₁, e, B₂, rfl, hhead, hpos, hzero⟩
    · simp [hhead] at hx
    · simp only [hhead, Option.some.injEq] at hx
      refine ⟨e, by simp, hx, hpos, fun k hk => ?_, fun k hk => ?_⟩
      · obtain ⟨f, hf, -, rfl⟩ := hvisited k hk
        exact (List.pairwise_append.mp hsorted).2.2 f hf e (by simp)
      · refine (hmem k hk).imp_right ?_
        rintro ⟨f, hf, hfpos, rfl⟩ hlt
        have hbehind := (List.pairwise_append.mp (List.pairwise_append.mp hsorted).2.1).2.1
        rcases List.mem_append.mp hf with hf | hf
        · exact hfpos.ne' (hzero f hf)
        · rcases List.mem_cons.mp hf with rfl | hf
          · exact hcmp.irrefl _ hlt
          · have hgt := (List.pairwise_cons.mp hbehind).1 f hf
            exact hcmp.irrefl _ (hcmp.trans _ _ _ hlt hgt)

theorem scans_start (hrep : Rep compare sl S) (hcmp : Ordered compare)
    (hknown : ∀ k ∈ known, ∃ e ∈ S, 0 < e.levels ∧ e.key = k) :
    ∃ it, Iterator.seekToFirst sl = .ok it ∧ Scans compare S known it [] 0 := by
  have hnext : sl.next head 0 = .ok (nodesAt 0 S).head? := by
    rw [SkipList.next, Chain.isChain_iff_head (hrep.chain 0 (by decide))]
  refine ⟨⟨(nodesAt 0 S).head?⟩, by rw [Iterator.seekToFirst, hnext]; rfl, ?_⟩
  exact Scans.goTo (A := []) hrep.sorted hcmp hknown List.Pairwise.nil (by simp) (by simp)

/-- **A turn of a scan** -/
theorem Scans.turn {it : Iterator} (h : Scans compare S known it visited turns)
    (hrep : Rep compare sl S) (hcmp : Ordered compare)
    (hknown : ∀ k ∈ known, ∃ e ∈ S, 0 < e.levels ∧ e.key = k) :
    (∃ it' visited', Iterator.scanTurn sl (Iterator.next sl) (it, visited)
        = .ok (.inl (it', visited')) ∧ Scans compare S known it' visited' (turns + 1))
      ∨ Iterator.scanTurn sl (Iterator.next sl) (it, visited) = .ok (.inr visited)
        ∧ it.node = none := by
  rcases it with ⟨x⟩
  cases x with
  | none => exact .inr ⟨rfl, rfl⟩
  | some x =>
      obtain ⟨e, he, rfl, hpos, hbefore, hrest⟩ := h.atNode x rfl
      obtain ⟨A, B, rfl⟩ := List.append_of_mem he
      obtain ⟨n, hn, hkey, -⟩ := hrep.node e he
      left
      refine ⟨⟨(nodesAt 0 B).head?⟩, visited ++ [e.key], ?_, ?_⟩
      · have hread : (Iterator.mk (some e.ptr)).key sl = .ok e.key := by
          rw [← hkey]
          simp [Iterator.key, Iterator.current, Iterator.valid, require, deref, read, hn]
        have hstep : (Iterator.mk (some e.ptr)).next sl = .ok ⟨(nodesAt 0 B).head?⟩ := by
          simp [Iterator.next, Iterator.current, Iterator.valid, require, deref,
            hrep.next_entry hpos]
        simp only [Iterator.scanTurn, Iterator.valid, Option.isSome_some, if_true, hread, hstep,
          ok_bind]
        rfl
      · have hsplit : A ++ e :: B = (A ++ [e]) ++ B := List.append_cons A e B
        have hturns : turns + 1 = (visited ++ [e.key]).length := by
          rw [h.turns, List.length_append, List.length_singleton]
        have hsorted := hrep.sorted
        have hA := (List.pairwise_append.mp hsorted).2.2
        rw [hturns]
        rw [hsplit] at hsorted hknown ⊢
        refine Scans.goTo hsorted hcmp hknown ?_ ?_ ?_
        · refine List.pairwise_append.mpr
            ⟨h.ascending, List.pairwise_singleton _ _, fun k hk k' hk' => ?_⟩
          rw [List.mem_singleton.mp hk']
          exact hbefore k hk
        · intro k hk
          rcases List.mem_append.mp hk with hk | hk
          · obtain ⟨f, hf, hfpos, rfl⟩ := h.listed k hk
            refine ⟨f, ?_, hfpos, rfl⟩
            -- a key that has been visited is before that of `e`
            rw [hsplit] at hf
            refine (List.mem_append.mp hf).resolve_right fun hfB => ?_
            have hgt := (List.pairwise_append.mp hsorted).2.2 e (by simp) f hfB
            exact hcmp.irrefl _ (hcmp.trans _ _ _ (hbefore f.key hk) hgt)
          · exact ⟨e, by simp, hpos, (List.mem_singleton.mp hk).symm⟩
        · intro f hf hfknown
          rcases List.mem_append.mp hf with hfA | hfe
          · refine List.mem_append_left _ ((hrest f.key hfknown).resolve_right fun hnot => ?_)
            exact hnot (hA f hfA e List.mem_cons_self)
          · rw [List.mem_singleton.mp hfe]
            simp

end Turn

end SkipList

end SimpleLeveldb
