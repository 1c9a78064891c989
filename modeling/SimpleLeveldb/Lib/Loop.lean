import Mathlib.Tactic

set_option autoImplicit false

/-! # Loops given by a body

A `while ( true )` loop is a body `σ → Except ε (σ ⊕ α)`: from a state it goes round again
(`inl`), leaves the loop with a value (`inr`), or stops the program with an error.
`Loop.run limit body n s` makes at most `n` rounds and is the error `limit` when they do not
suffice; more rounds never change an outcome that was reached (`run_mono`). A loop is
reasoned about with these rules: `run_of_variant`, with an invariant that the body keeps, a
variant that it decreases, and the postcondition it leaves with; `run_of_rank`, where the variant
is not a function of the state; `run_of_invariant`, without a variant, for a loop that is known
to have ended; and `run_of_diverges`, for a loop that never ends.
-/

namespace Loop

variable {ε σ α : Type} (limit : ε) {body : σ → Except ε (σ ⊕ α)}

/-- At most `n` rounds of the loop with the given body. -/
def run (body : σ → Except ε (σ ⊕ α)) : Nat → σ → Except ε α
  | 0, _ => .error limit
  | n + 1, s =>
      match body s with
      | .error e => .error e
      | .ok (.inl s') => run body n s'
      | .ok (.inr a) => .ok a

theorem run_inl {s s' : σ} (h : body s = .ok (.inl s')) (n : Nat) :
    run limit body (n + 1) s = run limit body n s' := by
  rw [run, h]

theorem run_inr {s : σ} {a : α} (h : body s = .ok (.inr a)) (n : Nat) :
    run limit body (n + 1) s = .ok a := by
  rw [run, h]

theorem run_error {s : σ} {e : ε} (h : body s = .error e) (n : Nat) :
    run limit body (n + 1) s = .error e := by
  rw [run, h]

/-- More rounds reach the same value. -/
theorem run_mono {n m : Nat} {s : σ} {a : α} (h : run limit body n s = .ok a) (hnm : n ≤ m) :
    run limit body m s = .ok a := by
  induction n generalizing m s with
  | zero => cases h
  | succ n ih =>
      obtain ⟨m, rfl⟩ : ∃ k, m = k + 1 := ⟨m - 1, by omega⟩
      match hb : body s with
      | .error e => rw [run_error limit hb] at h; cases h
      | .ok (.inl s') =>
          rw [run_inl limit hb] at h ⊢
          exact ih h (by omega)
      | .ok (.inr b) =>
          rw [run_inr limit hb] at h ⊢
          exact h

/-- **The ranked loop rule.** `Inv m s` says that `s` is a state with at most `m` further rounds
ahead. A body that goes round again only to a smaller rank, and leaves the loop only with `Post`,
leaves it, with `Post`. -/
theorem run_of_rank (Inv : Nat → σ → Prop) (Post : α → Prop)
    (hbody : ∀ m s, Inv m s → (∃ s' m', body s = .ok (.inl s') ∧ m' < m ∧ Inv m' s')
      ∨ ∃ a, body s = .ok (.inr a) ∧ Post a) :
    ∀ (n m : Nat) (s : σ), Inv m s → m < n → ∃ a, run limit body n s = .ok a ∧ Post a := by
  intro n
  induction n with
  | zero => intro m s _ hlt; omega
  | succ n ih =>
      intro m s hs hlt
      rcases hbody m s hs with ⟨s', m', hb, hm, hs'⟩ | ⟨a, hb, ha⟩
      · rw [run_inl limit hb]
        exact ih m' s' hs' (by omega)
      · exact ⟨a, run_inr limit hb n, ha⟩

/-- **The loop rule.** A body that keeps `Inv`, decreases `μ` on every further round and
leaves the loop only with `Post`, leaves it within `μ s + 1` rounds, with `Post`. -/
theorem run_of_variant (Inv : σ → Prop) (μ : σ → Nat) (Post : α → Prop)
    (hbody : ∀ s, Inv s → (∃ s', body s = .ok (.inl s') ∧ Inv s' ∧ μ s' < μ s)
      ∨ ∃ a, body s = .ok (.inr a) ∧ Post a) :
    ∀ (n : Nat) (s : σ), Inv s → μ s < n → ∃ a, run limit body n s = .ok a ∧ Post a := by
  intro n s hs
  refine run_of_rank limit (fun m s => Inv s ∧ m = μ s) Post ?_ n (μ s) s ⟨hs, rfl⟩
  rintro m s ⟨hs, rfl⟩
  refine (hbody s hs).imp_left ?_
  rintro ⟨s', hb, hs', hμ⟩
  exact ⟨s', μ s', hb, hμ, hs', rfl⟩

/-- **The rule for a loop that is known to end.** A body that keeps `Inv` and leaves only with
`Post` leaves with `Post`, whatever made it end. -/
theorem run_of_invariant (Inv : σ → Prop) (Post : α → Prop)
    (hinl : ∀ s s', Inv s → body s = .ok (.inl s') → Inv s')
    (hinr : ∀ s a, Inv s → body s = .ok (.inr a) → Post a) :
    ∀ (n : Nat) (s : σ) (a : α), Inv s → run limit body n s = .ok a → Post a := by
  intro n
  induction n with
  | zero => intro s a _ h; cases h
  | succ n ih =>
      intro s a hs h
      match hb : body s with
      | .error e => rw [run_error limit hb] at h; cases h
      | .ok (.inl s') =>
          rw [run_inl limit hb] at h
          exact ih s' a (hinl s s' hs hb) h
      | .ok (.inr b) =>
          rw [run_inr limit hb] at h
          exact hinr s a hs (hb.trans (by rw [Except.ok.inj h]))

/-- **The rule for a loop that never ends.** A body that goes round again from every state of
`Inv`, to another one, uses up any number of rounds. -/
theorem run_of_diverges (Inv : σ → Prop) (hbody : ∀ s, Inv s → ∃ s', body s = .ok (.inl s') ∧ Inv s') :
    ∀ (n : Nat) (s : σ), Inv s → run limit body n s = .error limit := by
  intro n
  induction n with
  | zero => intro s _; rfl
  | succ n ih =>
      intro s hs
      obtain ⟨s', hb, hs'⟩ := hbody s hs
      rw [run_inl limit hb]
      exact ih s' hs'

/-- **The simulation rule.** `body'` does to the images what `body` does, as long as that goes
well: a state before a good one, or before a good value, is good as well. -/
theorem run_simulates {σ' α' : Type} {body' : σ' → Except ε (σ' ⊕ α')} (f : σ → σ') (g : α → α')
    (Good : σ → Prop) (Post : α → Prop)
    (hinl : ∀ s s', body s = .ok (.inl s') → Good s' → Good s ∧ body' (f s) = .ok (.inl (f s')))
    (hinr : ∀ s a, body s = .ok (.inr a) → Post a → Good s ∧ body' (f s) = .ok (.inr (g a))) :
    ∀ (n : Nat) (s : σ) (a : α), run limit body n s = .ok a → Post a →
      Good s ∧ run limit body' n (f s) = .ok (g a) := by
  intro n
  induction n with
  | zero => intro s a h; cases h
  | succ n ih =>
      intro s a h ha
      match hb : body s with
      | .error e => rw [run_error limit hb] at h; cases h
      | .ok (.inl s') =>
          rw [run_inl limit hb] at h
          obtain ⟨hs', hrun⟩ := ih s' a h ha
          obtain ⟨hs, hb'⟩ := hinl s s' hb hs'
          exact ⟨hs, by rw [run_inl limit hb', hrun]⟩
      | .ok (.inr c) =>
          rw [run_inr limit hb] at h
          obtain rfl : c = a := Except.ok.inj h
          obtain ⟨hs, hb'⟩ := hinr s c hb ha
          exact ⟨hs, run_inr limit hb' n⟩

end Loop
