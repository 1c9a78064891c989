import SimpleLeveldb.Basic

set_option autoImplicit false

/-! # The background job

`MaybeScheduleCompaction` hands a work item to the environment and raises
`background_compaction_scheduled_`; the item runs `background_call` in a thread of its own, which
lowers the flag and calls `MaybeScheduleCompaction` again while it still holds the lock. Here any
number of callers and of work items take steps in any order. The constructor of `db_impl` does not
initialise the flag, which decides everything.
-/

namespace SimpleLeveldb

/-- Where a work item is that has been taken out of the queue. -/
inductive JobPhase where
  /-- in front of the lock -/
  | called
  /-- past the assertion on the flag -/
  | entered
  /-- in `background_compaction` -/
  | compacting
  /-- in `background_compaction`, where it has released the lock for a while -/
  | unlocked
  /-- past its reset of the flag -/
  | reset
  /-- past its call of `MaybeScheduleCompaction` -/
  | rearmed
  /-- past the release of the lock, before its return -/
  | returning
  deriving DecidableEq

/-- `db_impl`, as far as `MaybeScheduleCompaction` and `background_call` read it, with the work items
that the environment has queued and those that run. -/
structure Background where
  backgroundCompactionScheduled : Bool
  shuttingDown : Bool
  bgError : Status
  hasImm : Bool
  hasManualCompaction : Bool
  needsCompaction : Bool
  queued : Nat
  jobs : List JobPhase

/-- A job in this phase holds `mtx_`. -/
def JobPhase.HoldsLock : JobPhase → Prop
  | entered => True
  | compacting => True
  | reset => True
  | rearmed => True
  | called => False
  | unlocked => False
  | returning => False

/-- A job in this phase is past its reset of the flag. -/
def JobPhase.pastReset : JobPhase → Bool
  | reset => true
  | rearmed => true
  | returning => true
  | called => false
  | entered => false
  | compacting => false
  | unlocked => false

namespace Background

/-- `MaybeScheduleCompaction` -/
def maybeScheduleCompaction (s : Background) : Background :=
  if s.backgroundCompactionScheduled then s
  else if s.shuttingDown then s
  else if !s.bgError.isOk then s
  else if !s.hasImm && !s.hasManualCompaction && !s.needsCompaction then s
  else { s with backgroundCompactionScheduled := true, queued := s.queued + 1 }

/-- The constructor of `db_impl`: the flag, `imm_` and `manual_compaction_` are not initialised. -/
structure Constructed (s : Background) : Prop where
  shuttingDown : s.shuttingDown = false
  bgError : s.bgError = .ok
  queued : s.queued = 0
  jobs : s.jobs = []

/-- No job holds the lock. -/
def LockFree (s : Background) : Prop := ∀ phase ∈ s.jobs, ¬ phase.HoldsLock

/-- One step of a caller, of a work item, or of the rest of the database. -/
inductive Step : Background → Except Fault Background → Prop
  /-- someone calls `MaybeScheduleCompaction` with the lock -/
  | call {s : Background} : s.LockFree → Step s (.ok s.maybeScheduleCompaction)
  /-- what the conditions depend on changes -/
  | change {s : Background} (shuttingDown : Bool) (bgError : Status)
      (hasImm hasManualCompaction needsCompaction : Bool) :
      Step s (.ok { s with
        shuttingDown := shuttingDown
        bgError := bgError
        hasImm := hasImm
        hasManualCompaction := hasManualCompaction
        needsCompaction := needsCompaction })
  /-- a thread takes an item out of the queue and runs `bg_work` -/
  | take {s : Background} {n : Nat} : s.queued = n + 1 →
      Step s (.ok { s with queued := n, jobs := .called :: s.jobs })
  /-- `background_call` acquires the lock, and asserts that the flag is set -/
  | enter {s : Background} {l₁ l₂ : List JobPhase} : s.jobs = l₁ ++ .called :: l₂ → s.LockFree →
      Step s (do
        require (s.backgroundCompactionScheduled = true)
        return { s with jobs := l₁ ++ .entered :: l₂ })
  | compact {s : Background} {l₁ l₂ : List JobPhase} : s.jobs = l₁ ++ .entered :: l₂ →
      s.shuttingDown = false → s.bgError = .ok →
      Step s (.ok { s with jobs := l₁ ++ .compacting :: l₂ })
  /-- `log_any_apply` and `RemoveObsoleteFiles` release the lock for a while -/
  | unlock {s : Background} {l₁ l₂ : List JobPhase} : s.jobs = l₁ ++ .compacting :: l₂ →
      Step s (.ok { s with jobs := l₁ ++ .unlocked :: l₂ })
  | lock {s : Background} {l₁ l₂ : List JobPhase} : s.jobs = l₁ ++ .unlocked :: l₂ → s.LockFree →
      Step s (.ok { s with jobs := l₁ ++ .compacting :: l₂ })
  /-- the flag is lowered, behind `background_compaction` or without it -/
  | reset {s : Background} {l₁ l₂ : List JobPhase} {phase : JobPhase} :
      s.jobs = l₁ ++ phase :: l₂ →
      phase = .compacting ∨ phase = .entered ∧ (s.shuttingDown = true ∨ s.bgError ≠ .ok) →
      Step s (.ok { s with backgroundCompactionScheduled := false, jobs := l₁ ++ .reset :: l₂ })
  | rearm {s : Background} {l₁ l₂ : List JobPhase} : s.jobs = l₁ ++ .reset :: l₂ →
      Step s (.ok { s.maybeScheduleCompaction with jobs := l₁ ++ .rearmed :: l₂ })
  | release {s : Background} {l₁ l₂ : List JobPhase} : s.jobs = l₁ ++ .rearmed :: l₂ →
      Step s (.ok { s with jobs := l₁ ++ .returning :: l₂ })
  | ret {s : Background} {l₁ l₂ : List JobPhase} : s.jobs = l₁ ++ .returning :: l₂ →
      Step s (.ok { s with jobs := l₁ ++ l₂ })

/-- What a database can come to from `s₀`. -/
inductive Reachable (s₀ : Background) : Background → Prop
  | start : Reachable s₀ s₀
  | step {s s' : Background} : Reachable s₀ s → Step s (.ok s') → Reachable s₀ s'

/-- While no job is past its reset, the flag says whether one work item is queued or running, and
there are never two; and the assertion on the flag holds. -/
structure AtMostOne (s : Background) : Prop where
  flag : (∀ phase ∈ s.jobs, phase.pastReset = false) →
    (s.backgroundCompactionScheduled = true ↔ s.queued + s.jobs.length = 1)
  le_one : (∀ phase ∈ s.jobs, phase.pastReset = false) → s.queued + s.jobs.length ≤ 1
  asserts : ∀ e, ¬ Step s (.error e)

/-! ## The flag counts the work items -/

/-- The work items that are not past their reset. -/
def active (s : Background) : Nat := s.queued + s.jobs.countP fun phase => !phase.pastReset

/-- The flag is set exactly while there is a work item not past its reset, and there is one only. -/
def Counted (s : Background) : Prop := s.active = s.backgroundCompactionScheduled.toNat

theorem countP_middle (l₁ l₂ : List JobPhase) (phase : JobPhase) :
    (l₁ ++ phase :: l₂).countP (fun phase => !phase.pastReset)
      = (l₁ ++ l₂).countP (fun phase => !phase.pastReset) + (!phase.pastReset).toNat := by
  rw [List.countP_append, List.countP_cons, List.countP_append]
  cases phase.pastReset with
  | true => simp
  | false => simp [Nat.add_assoc]

/-- A job goes on to a phase on the same side of the reset. -/
theorem Counted.middle {s : Background} (h : s.Counted) {l₁ l₂ : List JobPhase}
    {phase phase' : JobPhase} (hjobs : s.jobs = l₁ ++ phase :: l₂)
    (hside : phase'.pastReset = phase.pastReset) :
    Counted { s with jobs := l₁ ++ phase' :: l₂ } := by
  have hactive : s.queued + (l₁ ++ phase' :: l₂).countP (fun phase => !phase.pastReset)
      = s.active := by
    rw [active, hjobs, countP_middle, countP_middle, hside]
  exact hactive.trans h

/-- With a job that is not past its reset the flag is set. -/
theorem Counted.scheduled {s : Background} (h : s.Counted) {phase : JobPhase}
    (hmem : phase ∈ s.jobs) (hphase : phase.pastReset = false) :
    s.backgroundCompactionScheduled = true := by
  have hpos : 0 < s.jobs.countP fun phase => !phase.pastReset :=
    List.countP_pos_iff.mpr ⟨phase, hmem, by rw [hphase]; rfl⟩
  by_contra hflag
  have hzero : s.active = 0 := by
    rw [h, Bool.eq_false_iff.mpr hflag]
    rfl
  unfold active at hzero
  omega

theorem maybeScheduleCompaction_jobs (s : Background) :
    s.maybeScheduleCompaction.jobs = s.jobs := by
  unfold maybeScheduleCompaction
  split_ifs <;> rfl

theorem Counted.maybeScheduleCompaction {s : Background} (h : s.Counted) :
    s.maybeScheduleCompaction.Counted := by
  unfold Background.maybeScheduleCompaction
  split_ifs with hflag
  · exact h
  · exact h
  · exact h
  · exact h
  · have hzero : s.active = 0 := by
      rw [h, Bool.eq_false_iff.mpr hflag]
      rfl
    show s.queued + 1 + s.jobs.countP (fun phase => !phase.pastReset) = 1
    unfold active at hzero
    omega

/-- **Every step keeps the count**, and none fails. -/
theorem Counted.step {s : Background} (h : s.Counted) {r : Except Fault Background}
    (hstep : Step s r) : ∃ s', r = .ok s' ∧ s'.Counted := by
  cases hstep with
  | call _ => exact ⟨_, rfl, h.maybeScheduleCompaction⟩
  | change => exact ⟨_, rfl, h⟩
  | @take n hqueued =>
      refine ⟨_, rfl, ?_⟩
      have hone : s.queued + s.jobs.countP (fun phase => !phase.pastReset)
          = s.backgroundCompactionScheduled.toNat := h
      show n + (JobPhase.called :: s.jobs).countP (fun phase => !phase.pastReset)
        = s.backgroundCompactionScheduled.toNat
      rw [List.countP_cons_of_pos rfl]
      omega
  | enter hjobs _ =>
      have hmem : JobPhase.called ∈ s.jobs := by
        rw [hjobs]
        simp
      have hflag := h.scheduled hmem rfl
      rw [require_of hflag]
      exact ⟨_, rfl, h.middle hjobs rfl⟩
  | compact hjobs _ _ => exact ⟨_, rfl, h.middle hjobs rfl⟩
  | unlock hjobs => exact ⟨_, rfl, h.middle hjobs rfl⟩
  | lock hjobs _ => exact ⟨_, rfl, h.middle hjobs rfl⟩
  | @reset l₁ l₂ phase hjobs hphase =>
      have hbefore : phase.pastReset = false := by
        rcases hphase with rfl | ⟨rfl, -⟩ <;> rfl
      have hflag := h.scheduled (by rw [hjobs]; simp) hbefore
      refine ⟨_, rfl, ?_⟩
      have hone : s.queued + (l₁ ++ phase :: l₂).countP (fun phase => !phase.pastReset) = 1 := by
        rw [← hjobs]
        exact h.trans (by rw [hflag]; rfl)
      rw [countP_middle, hbefore] at hone
      show s.queued + (l₁ ++ JobPhase.reset :: l₂).countP (fun phase => !phase.pastReset) = 0
      rw [countP_middle]
      simp only [Bool.not_false, Bool.toNat_true, JobPhase.pastReset, Bool.not_true,
        Bool.toNat_false] at hone ⊢
      omega
  | rearm hjobs =>
      exact ⟨_, rfl, h.maybeScheduleCompaction.middle
        ((maybeScheduleCompaction_jobs s).trans hjobs) rfl⟩
  | release hjobs => exact ⟨_, rfl, h.middle hjobs rfl⟩
  | @ret l₁ l₂ hjobs =>
      refine ⟨_, rfl, Eq.trans ?_ h⟩
      show s.queued + (l₁ ++ l₂).countP (fun phase => !phase.pastReset) = s.active
      rw [active, hjobs, countP_middle]
      rfl

theorem Counted.atMostOne {s : Background} (h : s.Counted) : s.AtMostOne := by
  have hall : (∀ phase ∈ s.jobs, phase.pastReset = false) →
      s.queued + s.jobs.length = s.backgroundCompactionScheduled.toNat := by
    intro hnone
    rw [← h, active, List.countP_eq_length.mpr fun phase hmem => by rw [hnone phase hmem]; rfl]
  refine ⟨fun hnone => ?_, fun hnone => ?_, fun e hstep => ?_⟩
  · rw [hall hnone]
    cases s.backgroundCompactionScheduled <;> simp
  · rw [hall hnone]
    exact Bool.toNat_le _
  · obtain ⟨s', he, -⟩ := h.step hstep
    cases he

/-- **Every run keeps the count.** -/
theorem Counted.reachable {s₀ s : Background} (h : s₀.Counted) (hs : Reachable s₀ s) :
    s.Counted := by
  induction hs with
  | start => exact h
  | step _ hstep ih =>
      obtain ⟨s', he, hs'⟩ := ih.step hstep
      cases he
      exact hs'

theorem Constructed.active {s : Background} (h : s.Constructed) : s.active = 0 := by
  rw [Background.active, h.queued, h.jobs]
  rfl

/-- A database whose flag happens to be set has no work item for it. -/
theorem not_atMostOne_of_flag {s : Background} (h : s.Constructed)
    (hflag : s.backgroundCompactionScheduled = true) : ¬ s.AtMostOne := by
  intro hone
  have := (hone.flag (by rw [h.jobs]; exact nofun)).mp hflag
  rw [h.queued, h.jobs] at this
  cases this

/-- **At most one background job**, in every run of a database as its constructor leaves it, exactly
when the flag that the constructor leaves out happens to be false. -/
theorem atMostOne_iff {s₀ : Background} (h : s₀.Constructed) :
    (∀ s, Reachable s₀ s → s.AtMostOne) ↔ s₀.backgroundCompactionScheduled = false := by
  constructor
  · intro hall
    by_contra hflag
    exact not_atMostOne_of_flag h (by simpa using hflag) (hall s₀ .start)
  · intro hflag s hs
    have hcounted : s₀.Counted := by
      rw [Counted, h.active, hflag]
      rfl
    exact (hcounted.reachable hs).atMostOne

/-! ## The two databases that the constructor may leave -/

/-- `db_impl` behind its constructor, with the given value in the flag. -/
def constructed (flag : Bool) : Background where
  backgroundCompactionScheduled := flag
  shuttingDown := false
  bgError := .ok
  hasImm := false
  hasManualCompaction := false
  needsCompaction := true
  queued := 0
  jobs := []

theorem constructed_constructed (flag : Bool) : (constructed flag).Constructed :=
  ⟨rfl, rfl, rfl, rfl⟩

theorem atMostOne_iff_constructed :
    (∀ s, Reachable (constructed false) s → s.AtMostOne)
      ↔ (constructed false).backgroundCompactionScheduled = false :=
  atMostOne_iff (constructed_constructed false)

/-- A flag that happens to be set is set while no work item is there. -/
theorem not_forall_atMostOne :
    ¬ ∀ s₀ : Background, s₀.Constructed → ∀ s, Reachable s₀ s → s.AtMostOne := by
  intro hall
  exact not_atMostOne_of_flag (constructed_constructed true) rfl
    (hall _ (constructed_constructed true) _ .start)

end Background

end SimpleLeveldb
