import Mathlib.Data.List.Nodup
import Mathlib.Logic.Function.Basic
import Mathlib.Tactic

set_option autoImplicit false

/-! # Circular doubly-linked lists

Nodes of a type `P` are linked by two functions, where `none` is a null link.
`Ring L head l` says that from `head` the `next` links lead through the nodes `l`, each once,
back to `head`, and the `prev` links lead the same way back. The two operations are the ones
that intrusive lists are made of: `Links.insertBefore` puts a node in front of the head, that is
at the end of the list, and `Links.unlink` takes a node out.
-/

namespace Ring

variable {P : Type}

/-- The links of every node. -/
structure Links (P : Type) where
  next : P → Option P
  prev : P → Option P

/-- From `a` through the nodes `l` to `b`, in both directions. -/
def Path (L : Links P) : P → List P → P → Prop
  | a, [], b => L.next a = some b ∧ L.prev b = some a
  | a, x :: l, b => (L.next a = some x ∧ L.prev x = some a) ∧ Path L x l b

/-- A circular list: the nodes `l` in order, without the head. -/
structure IsRing (L : Links P) (head : P) (l : List P) : Prop where
  path : Path L head l head
  nodup : (head :: l).Nodup

variable {L L' : Links P} {a b x y head : P} {l l₁ l₂ : List P}

/-! ## Paths -/

theorem path_append : Path L a (l₁ ++ x :: l₂) b ↔ Path L a l₁ x ∧ Path L x l₂ b := by
  induction l₁ generalizing a with
  | nil => rfl
  | cons y l₁ ih => simp only [List.cons_append, Path, ih, and_assoc]

/-- A path depends only on the links that it follows. -/
theorem Path.congr (h : Path L a l b) (hnext : ∀ u ∈ a :: l, L'.next u = L.next u)
    (hprev : ∀ v ∈ b :: l, L'.prev v = L.prev v) : Path L' a l b := by
  induction l generalizing a with
  | nil =>
      rw [Path, hnext a List.mem_cons_self, hprev b List.mem_cons_self]
      exact h
  | cons x l ih =>
      rw [Path, hnext a List.mem_cons_self, hprev x (by simp)]
      refine ⟨h.1, ih h.2 (fun u hu => hnext u (List.mem_cons_of_mem a hu)) fun v hv => ?_⟩
      rcases List.mem_cons.mp hv with rfl | hv
      · exact hprev v List.mem_cons_self
      · exact hprev v (by simp [hv])

/-- The node in front of the end of a path. -/
theorem Path.prev_end (h : Path L a l b) : ∃ p, p ∈ a :: l ∧ L.prev b = some p ∧ L.next p = some b := by
  induction l generalizing a with
  | nil => exact ⟨a, List.mem_cons_self, h.2, h.1⟩
  | cons x l ih =>
      obtain ⟨p, hp, hb⟩ := ih h.2
      exact ⟨p, List.mem_cons_of_mem a hp, hb⟩

/-- The node behind the start of a path. -/
theorem Path.next_start (h : Path L a l b) :
    ∃ n, (n = b ∨ n ∈ l) ∧ L.next a = some n ∧ L.prev n = some a := by
  cases l with
  | nil => exact ⟨b, .inl rfl, h⟩
  | cons x l => exact ⟨x, .inr List.mem_cons_self, h.1⟩

theorem Path.next_headD (h : Path L a l b) : L.next a = some (l.headD b) := by
  cases l with
  | nil => exact h.1
  | cons x l => exact h.1.1

/-- The path that ends at `y` where `h` ended at `b`: only the links between the last node `p`
and the end are new. -/
theorem Path.retarget {p : P} (h : Path L a l b) (hnodup : (a :: l).Nodup)
    (hp : L.prev b = some p) (hpy : L'.next p = some y) (hyp : L'.prev y = some p)
    (hnext : ∀ u ∈ a :: l, u ≠ p → L'.next u = L.next u)
    (hprev : ∀ v ∈ l, L'.prev v = L.prev v) : Path L' a l y := by
  induction l generalizing a with
  | nil =>
      obtain rfl : a = p := Option.some.inj (h.2.symm.trans hp)
      exact ⟨hpy, hyp⟩
  | cons x l ih =>
      obtain ⟨q, hq, hb, -⟩ := h.2.prev_end
      obtain rfl : q = p := Option.some.inj (hb.symm.trans hp)
      have hne : a ≠ q := by
        rintro rfl
        exact (List.nodup_cons.mp hnodup).1 hq
      refine ⟨?_, ih h.2 (List.nodup_cons.mp hnodup).2
        (fun u hu => hnext u (List.mem_cons_of_mem a hu))
        (fun v hv => hprev v (List.mem_cons_of_mem x hv))⟩
      rw [hnext a List.mem_cons_self hne, hprev x List.mem_cons_self]
      exact h.1

/-! ## Rings -/

theorem isRing_nil (h : L.next head = some head ∧ L.prev head = some head) : IsRing L head [] :=
  ⟨h, List.nodup_singleton head⟩

theorem IsRing.congr (h : IsRing L head l) (hnext : ∀ u ∈ head :: l, L'.next u = L.next u)
    (hprev : ∀ v ∈ head :: l, L'.prev v = L.prev v) : IsRing L' head l :=
  ⟨h.path.congr hnext hprev, h.nodup⟩

/-- The neighbours of a node of the list. -/
theorem IsRing.neighbours (h : IsRing L head l) (hx : x ∈ l) :
    ∃ p n, L.prev x = some p ∧ L.next x = some n ∧ p ∈ head :: l ∧ n ∈ head :: l
      ∧ p ≠ x ∧ n ≠ x := by
  obtain ⟨l₁, l₂, rfl⟩ := List.append_of_mem hx
  obtain ⟨h₁, h₂⟩ := path_append.mp h.path
  obtain ⟨p, hp, hxp, -⟩ := h₁.prev_end
  obtain ⟨n, hn, hxn, -⟩ := h₂.next_start
  have hnodup := h.nodup
  rw [List.nodup_cons, List.nodup_append] at hnodup
  obtain ⟨hhead, -, hnd₂, hdisj⟩ := hnodup
  refine ⟨p, n, hxp, hxn, ?_, ?_, ?_, ?_⟩
  · rcases List.mem_cons.mp hp with rfl | hp
    · exact List.mem_cons_self
    · simp [hp]
  · rcases hn with rfl | hn
    · exact List.mem_cons_self
    · simp [hn]
  · rintro rfl
    rcases List.mem_cons.mp hp with rfl | hp
    · exact hhead (by simp)
    · exact hdisj p hp p List.mem_cons_self rfl
  · rintro rfl
    rcases hn with rfl | hn
    · exact hhead (by simp)
    · exact (List.nodup_cons.mp hnd₂).1 hn

theorem IsRing.next_ne_self (h : IsRing L head l) (hx : x ∈ l) : L.next x ≠ some x := by
  obtain ⟨-, n, -, hn, -, -, -, hne⟩ := h.neighbours hx
  rw [hn]
  exact fun he => hne (Option.some.inj he)

/-- The neighbours of the head: the last node and the first one. -/
theorem IsRing.head_neighbours (h : IsRing L head l) :
    ∃ p n, L.prev head = some p ∧ L.next head = some n ∧ p ∈ head :: l ∧ n ∈ head :: l := by
  obtain ⟨p, hp, hxp, -⟩ := h.path.prev_end
  obtain ⟨n, hn, hxn, -⟩ := h.path.next_start
  refine ⟨p, n, hxp, hxn, hp, ?_⟩
  rcases hn with rfl | hn
  · exact List.mem_cons_self
  · exact List.mem_cons_of_mem head hn

theorem IsRing.prev_head_append (h : IsRing L head (l ++ [x])) : L.prev head = some x :=
  ((path_append.mp h.path).2).2

theorem IsRing.next_head_cons (h : IsRing L head (x :: l)) : L.next head = some x := h.path.1.1

theorem IsRing.eq_nil_iff (h : IsRing L head l) : l = [] ↔ L.next head = some head := by
  constructor
  · rintro rfl
    exact h.path.1
  · intro he
    cases l with
    | nil => rfl
    | cons x l =>
        obtain rfl : x = head := Option.some.inj (h.next_head_cons.symm.trans he)
        exact absurd List.mem_cons_self (List.nodup_cons.mp h.nodup).1

/-! ## Two lists in one set of links -/

/-- Two circular lists that share no node. -/
structure Pair (L : Links P) (head₁ head₂ : P) (l₁ l₂ : List P) : Prop where
  left : IsRing L head₁ l₁
  right : IsRing L head₂ l₂
  disjoint : (head₁ :: l₁).Disjoint (head₂ :: l₂)

theorem Pair.symm {head₁ head₂ : P} (h : Pair L head₁ head₂ l₁ l₂) : Pair L head₂ head₁ l₂ l₁ :=
  ⟨h.right, h.left, h.disjoint.symm⟩

/-! ## Operations -/

variable [DecidableEq P]

/-- Put `v` between the last node `p` and the head. -/
def Links.insertBefore (L : Links P) (head v p : P) : Links P where
  next := Function.update (Function.update L.next v (some head)) p (some v)
  prev := Function.update (Function.update L.prev v (some p)) head (some v)

/-- Link the neighbours `p` and `n` of a node to each other. -/
def Links.unlink (L : Links P) (p n : P) : Links P where
  next := Function.update L.next p (some n)
  prev := Function.update L.prev n (some p)

/-- **Inserting in front of the head** appends a node. -/
theorem IsRing.insertBefore {p v : P} (h : IsRing L head l) (hp : L.prev head = some p)
    (hv : v ∉ head :: l) : IsRing (L.insertBefore head v p) head (l ++ [v]) := by
  obtain ⟨q, hq, hlast, -⟩ := h.path.prev_end
  obtain rfl : q = p := Option.some.inj (hlast.symm.trans hp)
  have hqv : q ≠ v := fun he => hv (he ▸ hq)
  have hvh : v ≠ head := fun he => hv (he ▸ List.mem_cons_self)
  refine ⟨path_append.mpr ⟨h.path.retarget h.nodup hp ?_ ?_ ?_ ?_, ?_, ?_⟩, ?_⟩
  · simp [Links.insertBefore]
  · simp [Links.insertBefore, hvh]
  · intro u hu hne
    have huv : u ≠ v := fun he => hv (he ▸ hu)
    simp [Links.insertBefore, hne, huv]
  · intro u hu
    have huv : u ≠ v := fun he => hv (he ▸ List.mem_cons_of_mem head hu)
    have huh : u ≠ head := fun he => (List.nodup_cons.mp h.nodup).1 (he ▸ hu)
    simp [Links.insertBefore, huv, huh]
  · simp [Links.insertBefore, hqv.symm]
  · simp [Links.insertBefore]
  · rw [← List.cons_append, List.nodup_append]
    refine ⟨h.nodup, List.nodup_singleton v, fun u hu w hw => ?_⟩
    rw [List.mem_singleton.mp hw]
    exact fun he => hv (he ▸ hu)

/-- **Unlinking** takes a node out of the list. -/
theorem IsRing.unlink {p n : P} (h : IsRing L head (l₁ ++ x :: l₂)) (hp : L.prev x = some p)
    (hn : L.next x = some n) : IsRing (L.unlink p n) head (l₁ ++ l₂) := by
  obtain ⟨h₁, h₂⟩ := path_append.mp h.path
  obtain ⟨hhead, hnd⟩ := List.nodup_cons.mp h.nodup
  obtain ⟨hnd₁, hnd₂, hdisj⟩ := List.nodup_append.mp hnd
  obtain ⟨hx₂, hnd₂'⟩ := List.nodup_cons.mp hnd₂
  have hhead₁ : head ∉ l₁ := fun hm => hhead (List.mem_append_left _ hm)
  have hhead₂ : head ∉ l₂ := fun hm => hhead (by simp [hm])
  obtain ⟨q, hq, hlast, -⟩ := h₁.prev_end
  obtain rfl : q = p := Option.some.inj (hlast.symm.trans hp)
  refine ⟨?_, ?_⟩
  · cases l₂ with
    | nil =>
        obtain rfl : n = head := Option.some.inj (hn.symm.trans h₂.1)
        rw [List.append_nil]
        refine h₁.retarget (List.nodup_cons.mpr ⟨hhead₁, hnd₁⟩) hp ?_ ?_ ?_ ?_
        · simp [Links.unlink]
        · simp [Links.unlink]
        · intro u _ hne
          simp [Links.unlink, hne]
        · intro u hu
          have : u ≠ n := fun he => hhead₁ (he ▸ hu)
          simp [Links.unlink, this]
    | cons z l₃ =>
        obtain rfl : n = z := Option.some.inj (hn.symm.trans h₂.1.1)
        obtain ⟨hz, -⟩ := List.nodup_cons.mp hnd₂'
        refine path_append.mpr ⟨h₁.retarget (List.nodup_cons.mpr ⟨hhead₁, hnd₁⟩) hp ?_ ?_ ?_ ?_,
          h₂.2.congr ?_ ?_⟩
        · simp [Links.unlink]
        · simp [Links.unlink]
        · intro u _ hne
          simp [Links.unlink, hne]
        · intro u hu
          have : u ≠ n := fun he => hdisj u hu n (by simp) he
          simp [Links.unlink, this]
        · intro u hu
          have : u ≠ q := by
            rintro rfl
            rcases List.mem_cons.mp hq with rfl | hq
            · exact hhead₂ hu
            · exact hdisj u hq u (List.mem_cons_of_mem x hu) rfl
          simp [Links.unlink, this]
        · intro v hv
          have : v ≠ n := by
            rintro rfl
            rcases List.mem_cons.mp hv with rfl | hv
            · exact hhead₂ List.mem_cons_self
            · exact hz hv
          simp [Links.unlink, this]
  · rw [List.nodup_cons, List.nodup_append]
    refine ⟨?_, hnd₁, hnd₂', fun u hu w hw => hdisj u hu w (List.mem_cons_of_mem x hw)⟩
    rw [List.mem_append, not_or]
    exact ⟨hhead₁, hhead₂⟩

/-- `IsRing.unlink` for a node that is only known to be in the list. -/
theorem IsRing.unlink_mem {p n : P} (h : IsRing L head l) (hx : x ∈ l) (hp : L.prev x = some p)
    (hn : L.next x = some n) : IsRing (L.unlink p n) head (l.erase x) := by
  obtain ⟨l₁, l₂, rfl⟩ := List.append_of_mem hx
  have hnd := (List.nodup_cons.mp h.nodup).2
  have hx₁ : x ∉ l₁ := fun hm =>
    (List.nodup_append.mp hnd).2.2 x hm x List.mem_cons_self rfl
  rw [List.erase_append_right _ hx₁, List.erase_cons_head]
  exact h.unlink hp hn

/-! ## Operations on two lists -/

variable {head₁ head₂ p n v : P}

/-- A node of the first list is taken out of it. -/
theorem Pair.unlink (h : Pair L head₁ head₂ l₁ l₂) (hx : x ∈ l₁) (hp : L.prev x = some p)
    (hn : L.next x = some n) : Pair (L.unlink p n) head₁ head₂ (l₁.erase x) l₂ := by
  obtain ⟨p', n', hp', hn', hpm, hnm, -, -⟩ := h.left.neighbours hx
  obtain rfl : p' = p := Option.some.inj (hp'.symm.trans hp)
  obtain rfl : n' = n := Option.some.inj (hn'.symm.trans hn)
  refine ⟨h.left.unlink_mem hx hp hn, h.right.congr ?_ ?_, ?_⟩
  · intro u hu
    have hne : u ≠ p' := fun he => h.disjoint hpm (he ▸ hu)
    exact Function.update_of_ne hne _ _
  · intro u hu
    have hne : u ≠ n' := fun he => h.disjoint hnm (he ▸ hu)
    exact Function.update_of_ne hne _ _
  · intro u hu
    refine h.disjoint ?_
    rcases List.mem_cons.mp hu with rfl | hu
    · exact List.mem_cons_self
    · exact List.mem_cons_of_mem _ (List.mem_of_mem_erase hu)

/-- A new node is put at the end of the first list. -/
theorem Pair.insertBefore (h : Pair L head₁ head₂ l₁ l₂) (hp : L.prev head₁ = some p)
    (hv₁ : v ∉ head₁ :: l₁) (hv₂ : v ∉ head₂ :: l₂) :
    Pair (L.insertBefore head₁ v p) head₁ head₂ (l₁ ++ [v]) l₂ := by
  obtain ⟨p', -, hp', -, hpm, -⟩ := h.left.head_neighbours
  obtain rfl : p' = p := Option.some.inj (hp'.symm.trans hp)
  have hne : ∀ u ∈ head₂ :: l₂, u ≠ p' ∧ u ≠ v ∧ u ≠ head₁ := fun u hu =>
    ⟨fun he => h.disjoint hpm (he ▸ hu), fun he => hv₂ (he ▸ hu),
      fun he => h.disjoint List.mem_cons_self (he ▸ hu)⟩
  refine ⟨h.left.insertBefore hp hv₁, h.right.congr ?_ ?_, ?_⟩
  · intro u hu
    obtain ⟨h1, h2, -⟩ := hne u hu
    simp [Links.insertBefore, h1, h2]
  · intro u hu
    obtain ⟨-, h2, h3⟩ := hne u hu
    simp [Links.insertBefore, h2, h3]
  · intro u hu
    rw [← List.cons_append] at hu
    rcases List.mem_append.mp hu with hu | hu
    · exact h.disjoint hu
    · rw [List.mem_singleton.mp hu]
      exact hv₂

end Ring
