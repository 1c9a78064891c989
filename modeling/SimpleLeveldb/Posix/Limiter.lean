import SimpleLeveldb.Basic
import SimpleLeveldb.Lib.Census

set_option autoImplicit false

/-! # The limiter (`__detail/posix_env.cc`)

`limiter` hands out at most `max_acquires_` resources to any number of threads, with one atomic
counter. `acquire` takes one from the counter first and looks at what was there afterwards; when
nothing was there it gives the one back. In between the counter is too small, and can be negative.
Here the threads take steps in any order, one access of the counter or one local step at a time.
-/

namespace SimpleLeveldb

/-! ## What a limiter is for -/

/-- What may happen to the number of resources that have been handed out: one more, if it was below
`max`; one less; or nothing. -/
inductive HandedOut (max : Int) : Int → Int → Prop
  | grant {n : Int} : n < max → HandedOut max n (n + 1)
  | takeBack {n : Int} : HandedOut max (n + 1) n
  | same {n : Int} : HandedOut max n n

theorem HandedOut.le {max n n' : Int} (h : HandedOut max n n') (hn : n ≤ max) : n' ≤ max := by
  cases h with
  | grant hlt => omega
  | takeBack => omega
  | same => exact hn

/-! ## The code -/

/-- Where a thread is. -/
inductive LimiterPhase where
  /-- in none of the functions -/
  | idle
  /-- in `acquire`, past `fetch_sub`, with `old_acquires_allowed` -/
  | subtracted (old : U32)
  /-- in `acquire`, past the test of `old_acquires_allowed` -/
  | failing
  /-- in `acquire`, past `fetch_add`, with `pre_increment_acquired_allowed` -/
  | restored (old : U32)
  /-- in `release`, past `fetch_add`, with `old_acquires_allowed` -/
  | released (old : U32)
  deriving DecidableEq

/-- `limiter`, with the threads that use it. `held` counts the calls of `acquire` that have returned
true and have had no call of `release` yet. -/
structure Limiter (ι : Type) where
  maxAcquires : U32
  acquiresAllowed : U32
  threads : ι → LimiterPhase
  held : Nat

namespace Limiter

/-- The constructor, with no thread in the functions. -/
def construct (ι : Type) (maxAcquires : U32) : Except Fault (Limiter ι) := do
  require (0 ≤ maxAcquires.toInt)
  return {
    maxAcquires := maxAcquires
    acquiresAllowed := maxAcquires
    threads := fun _ => .idle
    held := 0 }

variable {ι : Type}

section Steps

variable [DecidableEq ι]

/-- The thread `t` goes on to another phase. -/
def goTo (s : Limiter ι) (t : ι) (phase : LimiterPhase) : Limiter ι :=
  { s with threads := Function.update s.threads t phase }

/-- One step of a thread. `release` is called only for a call of `acquire` that returned true, and
once for each. -/
inductive Step : Limiter ι → Except Fault (Limiter ι) → Prop
  /-- `acquire`: `fetch_sub` -/
  | fetchSub {s : Limiter ι} {t : ι} : s.threads t = .idle →
      Step s (.ok ({ s with acquiresAllowed := s.acquiresAllowed - 1 }.goTo t
        (.subtracted s.acquiresAllowed)))
  /-- `acquire` returns true -/
  | succeed {s : Limiter ι} {t : ι} {old : U32} : s.threads t = .subtracted old → 0 < old.toInt →
      Step s (.ok ({ s with held := s.held + 1 }.goTo t .idle))
  | fail {s : Limiter ι} {t : ι} {old : U32} : s.threads t = .subtracted old → ¬ 0 < old.toInt →
      Step s (.ok (s.goTo t .failing))
  /-- `acquire`: `fetch_add` -/
  | fetchAdd {s : Limiter ι} {t : ι} : s.threads t = .failing →
      Step s (.ok ({ s with acquiresAllowed := s.acquiresAllowed + 1 }.goTo t
        (.restored s.acquiresAllowed)))
  /-- `acquire` asserts and returns false -/
  | refuse {s : Limiter ι} {t : ι} {old : U32} : s.threads t = .restored old →
      Step s (do
        require (old.toInt < s.maxAcquires.toInt)
        return s.goTo t .idle)
  /-- `release`: `fetch_add` -/
  | release {s : Limiter ι} {t : ι} {n : Nat} : s.threads t = .idle → s.held = n + 1 →
      Step s (.ok ({ s with acquiresAllowed := s.acquiresAllowed + 1, held := n }.goTo t
        (.released s.acquiresAllowed)))
  /-- `release` asserts and returns -/
  | done {s : Limiter ι} {t : ι} {old : U32} : s.threads t = .released old →
      Step s (do
        require (old.toInt < s.maxAcquires.toInt)
        return s.goTo t .idle)

/-- What a limiter can come to. -/
inductive Reachable (maxAcquires : U32) : Limiter ι → Prop
  | construct {s : Limiter ι} : construct ι maxAcquires = .ok s → Reachable maxAcquires s
  | step {s s' : Limiter ι} : Reachable maxAcquires s → Step s (.ok s') → Reachable maxAcquires s'

end Steps

/-! ## The invariant -/

/-- A thread in this phase has been granted a resource, and has not returned from `acquire` yet. -/
def granting : LimiterPhase → Bool
  | .subtracted old => decide (0 < old.toInt)
  | _ => false

/-- A thread in this phase has taken from the counter what it will give back. -/
def inWindow : LimiterPhase → Bool
  | .subtracted old => !decide (0 < old.toInt)
  | .failing => true
  | _ => false

theorem granting_subtracted (old : U32) :
    granting (.subtracted old) = decide (0 < old.toInt) := rfl

theorem inWindow_subtracted (old : U32) :
    inWindow (.subtracted old) = !decide (0 < old.toInt) := rfl

variable [Fintype ι]

/-- The successful calls of `acquire` not yet released. -/
def acquired (s : Limiter ι) : Nat := s.held + Census.count granting s.threads

/-- The calls of `acquire` between their decrement and their increment. -/
def window (s : Limiter ι) : Nat := Census.count inWindow s.threads

/-- What holds of a limiter after every step. -/
structure Sound (s : Limiter ι) : Prop where
  counter : s.acquiresAllowed = BitVec.ofInt 32 (s.maxAcquires.toInt - s.acquired - s.window)
  acquired_le : (s.acquired : Int) ≤ s.maxAcquires.toInt
  restored : ∀ t old, s.threads t = .restored old → old.toInt < s.maxAcquires.toInt
  released : ∀ t old, s.threads t = .released old → old.toInt < s.maxAcquires.toInt

/-- With fewer than 2^31 threads the counter does not wrap. -/
theorem Sound.counter_toInt {s : Limiter ι} (h : s.Sound) (hthreads : Fintype.card ι < 2 ^ 31) :
    s.acquiresAllowed.toInt = s.maxAcquires.toInt - s.acquired - s.window := by
  have hle := h.acquired_le
  have hwindow : s.window ≤ Fintype.card ι := Census.count_le_card _ _
  have hmax := BitVec.toInt_lt (x := s.maxAcquires)
  rw [h.counter, BitVec.toInt_ofInt, Int.bmod_eq_of_le]
  · omega
  · omega

theorem ofInt_add_one (x : Int) : BitVec.ofInt 32 x + 1 = BitVec.ofInt 32 (x + 1) := by
  have hone : BitVec.ofInt 32 1 = 1 := by decide
  rw [BitVec.ofInt_add, hone]

theorem ofInt_sub_one (x : Int) : BitVec.ofInt 32 x - 1 = BitVec.ofInt 32 (x - 1) := by
  have hadd := ofInt_add_one (x - 1)
  rw [Int.sub_add_cancel] at hadd
  rw [← hadd, BitVec.add_sub_cancel]

theorem Sound.sub_one {s : Limiter ι} (h : s.Sound) {x : Int}
    (hx : x = s.maxAcquires.toInt - s.acquired - s.window - 1) :
    s.acquiresAllowed - 1 = BitVec.ofInt 32 x := by
  rw [h.counter, ofInt_sub_one, hx]

theorem Sound.add_one {s : Limiter ι} (h : s.Sound) {x : Int}
    (hx : x = s.maxAcquires.toInt - s.acquired - s.window + 1) :
    s.acquiresAllowed + 1 = BitVec.ofInt 32 x := by
  rw [h.counter, ofInt_add_one, hx]

theorem sound_construct {maxAcquires : U32} {s : Limiter ι}
    (h : construct ι maxAcquires = .ok s) : s.Sound ∧ s.maxAcquires = maxAcquires := by
  obtain ⟨_, hmax, h⟩ := bind_eq_ok.mp h
  cases h
  have hidle : ∀ p : LimiterPhase → Bool, p .idle = false →
      Census.count p (fun _ : ι => .idle) = 0 := fun p hp => Census.count_const hp
  refine ⟨⟨?_, ?_, fun t old ht => ?_, fun t old ht => ?_⟩, rfl⟩
  · rw [acquired, window, hidle granting rfl, hidle inWindow rfl]
    simp
  · rw [acquired, hidle granting rfl]
    exact of_require hmax
  · cases ht
  · cases ht

/-! ## The steps -/

variable [DecidableEq ι]

/-- What a step may do: the invariant is kept, and the number of resources handed out changes as it
may. -/
structure Follows (s s' : Limiter ι) : Prop where
  sound : s'.Sound
  maxAcquires : s'.maxAcquires = s.maxAcquires
  handedOut : HandedOut s.maxAcquires.toInt s.acquired s'.acquired

/-- The thread `t` goes to a phase with no assertion ahead, or with one that will hold, and leaves
`a` resources handed out and `w` calls in the window. -/
theorem Sound.goTo {s : Limiter ι} (h : s.Sound) {t : ι} {phase : LimiterPhase} {counter : U32}
    (held a w : Nat)
    (ha : a + (granting (s.threads t)).toNat + s.held = s.acquired + held + (granting phase).toNat)
    (hw : w + (inWindow (s.threads t)).toNat = s.window + (inWindow phase).toNat)
    (hcounter : counter = BitVec.ofInt 32 (s.maxAcquires.toInt - a - w))
    (hout : HandedOut s.maxAcquires.toInt s.acquired a)
    (hphase : ∀ old, phase = .restored old ∨ phase = .released old →
      old.toInt < s.maxAcquires.toInt) :
    s.Follows ({ s with acquiresAllowed := counter, held := held }.goTo t phase) := by
  set u : Limiter ι := { s with acquiresAllowed := counter, held := held }.goTo t phase with hu
  have hacquired : u.acquired = a := by
    have hcount := Census.count_update granting s.threads t phase
    show held + Census.count granting (Function.update s.threads t phase) = a
    rw [acquired] at ha
    omega
  have hwindow : u.window = w := by
    have hcount := Census.count_update inWindow s.threads t phase
    show Census.count inWindow (Function.update s.threads t phase) = w
    rw [window] at hw
    omega
  have hthreads : ∀ v, u.threads v = if v = t then phase else s.threads v := fun v =>
    Function.update_apply s.threads t phase v
  refine ⟨⟨?_, ?_, fun v old hv => ?_, fun v old hv => ?_⟩, rfl, ?_⟩
  · rw [hacquired, hwindow]
    exact hcounter
  · rw [hacquired]
    exact hout.le h.acquired_le
  · rw [hthreads] at hv
    split_ifs at hv
    · exact hphase old (.inl hv)
    · exact h.restored v old hv
  · rw [hthreads] at hv
    split_ifs at hv
    · exact hphase old (.inr hv)
    · exact h.released v old hv
  · rw [hacquired]
    exact hout

/-- A thread leaves the function that it is in without a further change. -/
theorem Sound.leave {s : Limiter ι} (h : s.Sound) {t : ι} (hgranting : granting (s.threads t) = false)
    (hwindow : inWindow (s.threads t) = false) : s.Follows (s.goTo t .idle) :=
  h.goTo _ s.acquired s.window (by rw [hgranting]; rfl) (by rw [hwindow]; rfl) h.counter .same
    (by rintro old (he | he) <;> cases he)

/-- `fetch_sub` hands a resource out when the counter was positive; otherwise the thread enters the
window. -/
theorem Sound.fetchSub {s : Limiter ι} (h : s.Sound) (hthreads : Fintype.card ι < 2 ^ 31) {t : ι}
    (ht : s.threads t = .idle) :
    s.Follows ({ s with acquiresAllowed := s.acquiresAllowed - 1 }.goTo t
      (.subtracted s.acquiresAllowed)) := by
  have hcounter := h.counter_toInt hthreads
  have hphase : ∀ old, LimiterPhase.subtracted s.acquiresAllowed = .restored old
      ∨ LimiterPhase.subtracted s.acquiresAllowed = .released old →
        old.toInt < s.maxAcquires.toInt := by
    rintro old (he | he) <;> cases he
  by_cases hpos : 0 < s.acquiresAllowed.toInt
  · -- granted: the counter is positive, so fewer than the maximum are handed out
    refine h.goTo s.held (s.acquired + 1) s.window ?_ ?_ (h.sub_one (by push_cast; omega))
      ?_ hphase
    · rw [ht, granting_subtracted, decide_eq_true hpos]
      simp only [granting, Bool.toNat_false, Bool.toNat_true]
      omega
    · rw [ht, inWindow_subtracted, decide_eq_true hpos]
      rfl
    · push_cast
      exact .grant (by omega)
  · -- refused: the thread is in the window until it has given the one back
    refine h.goTo s.held s.acquired (s.window + 1) ?_ ?_ (h.sub_one (by push_cast; omega))
      .same hphase
    · rw [ht, granting_subtracted, decide_eq_false hpos]
      rfl
    · rw [ht, inWindow_subtracted, decide_eq_false hpos]
      rfl

/-- `fetch_add` of `acquire`: while a thread is in the window, the counter is below its maximum. -/
theorem Sound.fetchAdd {s : Limiter ι} (h : s.Sound) (hthreads : Fintype.card ι < 2 ^ 31) {t : ι}
    (ht : s.threads t = .failing) :
    s.Follows ({ s with acquiresAllowed := s.acquiresAllowed + 1 }.goTo t
      (.restored s.acquiresAllowed)) := by
  have hcounter := h.counter_toInt hthreads
  have hpos : 0 < s.window := Census.count_pos (t := t) (by rw [ht]; rfl)
  have hwindow : s.window - 1 + 1 = s.window := Nat.sub_add_cancel hpos
  refine h.goTo s.held s.acquired (s.window - 1) ?_ ?_ (h.add_one (by omega)) .same ?_
  · rw [ht]
    rfl
  · rw [ht]
    exact hwindow
  · rintro old (he | he) <;> cases he
    omega

/-- `release`: while a resource is handed out, the counter is below its maximum. -/
theorem Sound.release {s : Limiter ι} (h : s.Sound) (hthreads : Fintype.card ι < 2 ^ 31) {t : ι}
    {n : Nat} (ht : s.threads t = .idle) (hheld : s.held = n + 1) :
    s.Follows ({ s with acquiresAllowed := s.acquiresAllowed + 1, held := n }.goTo t
      (.released s.acquiresAllowed)) := by
  have hcounter := h.counter_toInt hthreads
  have hacquired : s.acquired = s.acquired - 1 + 1 := by
    rw [acquired]
    omega
  refine h.goTo _ (s.acquired - 1) s.window ?_ ?_ (h.add_one (by omega)) ?_ ?_
  · rw [ht, hheld]
    simp only [granting, Bool.toNat_false]
    omega
  · rw [ht]
    rfl
  · rw [hacquired]
    push_cast
    exact .takeBack
  · rintro old (he | he) <;> cases he
    omega

/-- **Every step keeps the invariant**, and none fails. -/
theorem Sound.step {s : Limiter ι} (h : s.Sound) (hthreads : Fintype.card ι < 2 ^ 31)
    {r : Except Fault (Limiter ι)} (hstep : Step s r) : ∃ s', r = .ok s' ∧ s.Follows s' := by
  cases hstep with
  | fetchSub ht => exact ⟨_, rfl, h.fetchSub hthreads ht⟩
  | @succeed t old ht hpos =>
      -- this one has been counted since its `fetch_sub`
      refine ⟨_, rfl, h.goTo _ s.acquired s.window ?_ ?_ h.counter .same ?_⟩
      · rw [ht, granting_subtracted, decide_eq_true hpos]
        simp only [granting, Bool.toNat_false, Bool.toNat_true]
        omega
      · rw [ht, inWindow_subtracted, decide_eq_true hpos]
        rfl
      · rintro old (he | he) <;> cases he
  | @fail t old ht hneg =>
      refine ⟨_, rfl, h.goTo _ s.acquired s.window ?_ ?_ h.counter .same ?_⟩
      · rw [ht, granting_subtracted, decide_eq_false hneg]
        rfl
      · rw [ht, inWindow_subtracted, decide_eq_false hneg]
        rfl
      · rintro old (he | he) <;> cases he
  | fetchAdd ht => exact ⟨_, rfl, h.fetchAdd hthreads ht⟩
  | @refuse t old ht =>
      rw [require_of (h.restored t old ht)]
      exact ⟨_, rfl, h.leave (by rw [ht]; rfl) (by rw [ht]; rfl)⟩
  | release ht hheld => exact ⟨_, rfl, h.release hthreads ht hheld⟩
  | @done t old ht =>
      rw [require_of (h.released t old ht)]
      exact ⟨_, rfl, h.leave (by rw [ht]; rfl) (by rw [ht]; rfl)⟩

/-! ## Every run -/

theorem limiter_sound (hthreads : Fintype.card ι < 2 ^ 31) {maxAcquires : U32}
    {s : Limiter ι} (h : Reachable maxAcquires s) : s.Sound ∧ s.maxAcquires = maxAcquires := by
  induction h with
  | construct h => exact sound_construct h
  | step _ hstep ih =>
      obtain ⟨s', he, hfollows⟩ := ih.1.step hthreads hstep
      cases he
      exact ⟨hfollows.sound, hfollows.maxAcquires.trans ih.2⟩

/-- **The limiter never hands out too much**, in whatever order fewer than 2^31 threads take their
steps: at most `max_acquires` resources are handed out, the counter is short of what is left by the
calls in the window, and no assertion fails. -/
theorem acquired_le_of_reachable (hthreads : Fintype.card ι < 2 ^ 31) (maxAcquires : U32)
    (s : Limiter ι) (h : Reachable maxAcquires s) :
    (s.acquired : Int) ≤ maxAcquires.toInt
      ∧ s.acquiresAllowed.toInt = maxAcquires.toInt - s.acquired - s.window
      ∧ ∀ e, ¬ Step s (.error e) := by
  obtain ⟨hsound, rfl⟩ := limiter_sound hthreads h
  refine ⟨hsound.acquired_le, hsound.counter_toInt hthreads, fun e hstep => ?_⟩
  obtain ⟨s', he, -⟩ := hsound.step hthreads hstep
  cases he

/-- Two threads want the only resource: the counter is negative, and one of them has the resource. -/
theorem acquired_le_of_reachable_two : ∃ s : Limiter (Fin 2), s.acquiresAllowed.toInt = -1
    ∧ (s.acquired : Int) ≤ (1 : U32).toInt
    ∧ s.acquiresAllowed.toInt = (1 : U32).toInt - s.acquired - s.window
    ∧ ∀ e, ¬ Step s (.error e) := by
  have h₀ : Reachable (ι := Fin 2) 1 ⟨1, 1, fun _ => .idle, 0⟩ := .construct rfl
  have h₁ := h₀.step (.fetchSub (t := 0) rfl)
  have h₂ := h₁.step (.fetchSub (t := 1) rfl)
  exact ⟨_, by decide, acquired_le_of_reachable (by decide) 1 _ h₂⟩

end Limiter

end SimpleLeveldb
