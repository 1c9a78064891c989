import Mathlib.Data.List.Chain
import SimpleLeveldb.Lib.Loop

set_option autoImplicit false

/-! # Programs and the states that they go through

A program performs operations on a state one after the other. Besides what it returns, its
meaning is the list of the states behind its operations, so that a program that is stopped
between two of them is stopped in one of these states; a program that ends with an error has
gone through states as well.

`Prog.outcome` forgets the states in between. It turns the constructs of programs into those of
functions from a state to a result and a state (`outcome_bind` and the other rules), which is how
a program is shown to be the same as such a function. `Prog.Keeps R p s Q` is the rule of
reasoning: from `s`, every operation of `p` leads from a state to one that is related to it by
`R`, and when `p` returns, `Q` holds of what it returns and of its last state. `Prog.Traces p s Q` says
of a program that returns something about all the states that it has gone through.
-/

/-- A program with errors in `ε` over states in `σ`: what it returns, and the states behind its
operations. -/
def Prog (ε σ α : Type) : Type := σ → Except ε α × List σ

namespace Prog

variable {ε σ α β τ : Type}

/-! ## Programs -/

/-- The state that the program leaves. -/
def last (p : Prog ε σ α) (s : σ) : σ := (p s).2.getLastD s

/-- No operation. -/
def ret (a : α) : Prog ε σ α := fun _ => (.ok a, [])

/-- One operation. -/
def op (f : σ → α × σ) : Prog ε σ α := fun s => (.ok (f s).1, [(f s).2])

/-- What does not look at the state. -/
def lift (x : Except ε α) : Prog ε σ α := fun _ => (x, [])

/-- A program and then another. -/
def seq (p : Prog ε σ α) (f : α → Prog ε σ β) : Prog ε σ β := fun s =>
  match (p s).1 with
  | .error e => (.error e, (p s).2)
  | .ok a => ((f a (p.last s)).1, (p s).2 ++ (f a (p.last s)).2)

instance : Monad (Prog ε σ) where
  pure := ret
  bind := seq

/-- At most `n` rounds of the loop with the given body. -/
def loop (limit : ε) (body : τ → Prog ε σ (τ ⊕ α)) : Nat → τ → Prog ε σ α
  | 0, _ => lift (.error limit)
  | n + 1, t => do
      match ← body t with
      | .inl t' => loop limit body n t'
      | .inr a => return a

/-! ## Outcomes -/

/-- What a program returns, with the state that it leaves. -/
def outcome (p : Prog ε σ α) (s : σ) : Except ε (α × σ) := (p s).1.map fun a => (a, p.last s)

theorem last_of_error {p : Prog ε σ α} {f : α → Prog ε σ β} {s : σ} {e : ε}
    (h : (p s).1 = .error e) : (p >>= f).last s = p.last s := by
  show (seq p f).last s = _
  simp [last, seq, h]

theorem last_of_ok {p : Prog ε σ α} {f : α → Prog ε σ β} {s : σ} {a : α} (h : (p s).1 = .ok a) :
    (p >>= f).last s = (f a).last (p.last s) := by
  show (seq p f).last s = _
  simp only [last, seq, h]
  cases hl : (f a ((p s).2.getLastD s)).2 with
  | nil => simp
  | cons t l => simp [List.getLastD_eq_getLast?]

@[simp] theorem outcome_ret (a : α) (s : σ) : (pure a : Prog ε σ α).outcome s = .ok (a, s) := rfl

@[simp] theorem outcome_op (f : σ → α × σ) (s : σ) :
    (op f : Prog ε σ α).outcome s = .ok (f s) := rfl

@[simp] theorem outcome_lift (x : Except ε α) (s : σ) :
    (lift x : Prog ε σ α).outcome s = x.map fun a => (a, s) := rfl

/-- **Outcomes follow one another.** -/
theorem outcome_bind (p : Prog ε σ α) (f : α → Prog ε σ β) (s : σ) :
    (p >>= f).outcome s = p.outcome s >>= fun r => (f r.1).outcome r.2 := by
  cases h : (p s).1 with
  | error e =>
      have hseq : ((p >>= f) s).1 = .error e := by
        show (seq p f s).1 = _
        simp [seq, h]
      rw [outcome, outcome, hseq, h]
      rfl
  | ok a =>
      have hseq : ((p >>= f) s).1 = (f a (p.last s)).1 := by
        show (seq p f s).1 = _
        simp [seq, h]
      rw [outcome, outcome, hseq, h, last_of_ok h]
      rfl

theorem last_of_outcome {p : Prog ε σ α} {f : α → Prog ε σ β} {s t : σ} {a : α}
    (h : p.outcome s = .ok (a, t)) : (p >>= f).last s = (f a).last t := by
  unfold outcome at h
  cases hp : (p s).1 with
  | error e =>
      rw [hp] at h
      cases h
  | ok b =>
      rw [hp] at h
      cases h
      exact last_of_ok hp

theorem last_lift_bind (a : α) (f : α → Prog ε σ β) (s : σ) :
    (lift (.ok a) >>= f).last s = (f a).last s := last_of_outcome rfl

/-! ## What every operation keeps -/

/-- From `s` every operation of `p` leads from a state to a related one, and `p` returns only
with `Q`. -/
structure Keeps (R : σ → σ → Prop) (p : Prog ε σ α) (s : σ) (Q : α → σ → Prop) : Prop where
  chain : List.IsChain R (s :: (p s).2)
  post : ∀ a, (p s).1 = .ok a → Q a (p.last s)

variable {R R' S : σ → σ → Prop} {p : Prog ε σ α} {f : α → Prog ε σ β} {s : σ}
  {Q Q' : α → σ → Prop} {P : β → σ → Prop}

/-- The postcondition holds of the outcome. -/
theorem Keeps.of_outcome (h : Keeps R p s Q) {a : α} {t : σ} (ho : p.outcome s = .ok (a, t)) :
    Q a t := by
  unfold outcome at ho
  cases hp : (p s).1 with
  | error e => rw [hp] at ho; cases ho
  | ok b =>
      rw [hp] at ho
      cases ho
      exact h.post _ hp

theorem Keeps.ret {a : α} (h : Q a s) : Keeps R (pure a : Prog ε σ α) s Q where
  chain := List.isChain_singleton s
  post := by
    rintro _ ⟨⟩
    exact h

theorem Keeps.op {f : σ → α × σ} (hR : R s (f s).2) (hQ : Q (f s).1 (f s).2) :
    Keeps R (Prog.op f : Prog ε σ α) s Q where
  chain := List.isChain_pair.mpr hR
  post := by
    rintro _ ⟨⟩
    exact hQ

theorem Keeps.lift {x : Except ε α} (h : ∀ a, x = .ok a → Q a s) :
    Keeps R (Prog.lift x : Prog ε σ α) s Q where
  chain := List.isChain_singleton s
  post := h

/-- The states of a program that follows another begin where that one ends. -/
theorem isChain_join {l l' : List σ} (h : List.IsChain R (s :: l))
    (h' : List.IsChain R (l.getLastD s :: l')) : List.IsChain R (s :: (l ++ l')) := by
  cases l using List.reverseRecOn with
  | nil => exact h'
  | append_singleton l t =>
      rw [List.getLastD_concat] at h'
      rw [List.append_assoc, List.singleton_append, ← List.cons_append]
      exact List.isChain_split.mpr ⟨h, h'⟩

/-- **A program and then another.** -/
theorem Keeps.bind (h : Keeps R p s Q) (hf : ∀ a t, Q a t → Keeps R (f a) t P) :
    Keeps R (p >>= f) s P := by
  cases hp : (p s).1 with
  | error e =>
      have hseq : (p >>= f) s = (.error e, (p s).2) := by
        show seq p f s = _
        simp only [seq, hp]
      refine ⟨?_, fun b hb => ?_⟩
      · rw [hseq]
        exact h.chain
      · rw [hseq] at hb
        cases hb
  | ok a =>
      have hseq : (p >>= f) s = ((f a (p.last s)).1, (p s).2 ++ (f a (p.last s)).2) := by
        show seq p f s = _
        simp only [seq, hp]
      have hnext := hf a _ (h.post a hp)
      refine ⟨?_, fun b hb => ?_⟩
      · rw [hseq]
        exact isChain_join h.chain hnext.chain
      · rw [hseq] at hb
        rw [last_of_ok hp]
        exact hnext.post b hb

/-- One operation and then a program. -/
theorem Keeps.op_bind {g : σ → α × σ} (hR : R s (g s).2) (h : Keeps R (f (g s).1) (g s).2 P) :
    Keeps R (Prog.op g >>= f) s P :=
  (Keeps.op (Q := fun a t => a = (g s).1 ∧ t = (g s).2) hR ⟨rfl, rfl⟩).bind <| by
    rintro a t ⟨rfl, rfl⟩
    exact h

/-- What does not look at the state, and then a program. -/
theorem Keeps.lift_bind {x : Except ε α} (h : ∀ a, x = .ok a → Keeps R (f a) s P) :
    Keeps R (Prog.lift x >>= f) s P :=
  (Keeps.lift (Q := fun a t => x = .ok a ∧ t = s) fun _ hx => ⟨hx, rfl⟩).bind <| by
    rintro a t ⟨hx, rfl⟩
    exact h a hx

theorem Keeps.mono (h : Keeps R p s Q) (hR : ∀ t u, R t u → R' t u) (hQ : ∀ a t, Q a t → Q' a t) :
    Keeps R' p s Q' where
  chain := h.chain.imp hR
  post := fun a ha => hQ a _ (h.post a ha)

/-- What is known of the outcome holds when a program returns. -/
theorem Keeps.with_outcome (h : Keeps R p s Q) :
    Keeps R p s fun a t => Q a t ∧ p.outcome s = .ok (a, t) where
  chain := h.chain
  post := fun a ha => ⟨h.post a ha, by rw [outcome, ha]; rfl⟩

/-- **An invariant** that the operations keep strengthens what each of them does. -/
theorem Keeps.strengthen (h : Keeps R p s Q) (Inv : σ → Prop) (hs : Inv s)
    (hR : ∀ t u, Inv t → R t u → S t u ∧ Inv u) :
    Keeps S p s fun a t => Q a t ∧ Inv t := by
  have hchain : ∀ (l : List σ) (s : σ), Inv s → List.IsChain R (s :: l) →
      List.IsChain S (s :: l) ∧ Inv (l.getLastD s) := by
    intro l
    induction l with
    | nil => exact fun s hs _ => ⟨List.isChain_singleton s, hs⟩
    | cons t l ih =>
        intro s hs hl
        obtain ⟨hst, hl⟩ := List.isChain_cons_cons.mp hl
        obtain ⟨hst', ht⟩ := hR s t hs hst
        obtain ⟨hl', hlast⟩ := ih t ht hl
        refine ⟨List.isChain_cons_cons.mpr ⟨hst', hl'⟩, ?_⟩
        rw [List.getLastD_cons]
        exact hlast
  obtain ⟨hl, hlast⟩ := hchain _ s hs h.chain
  exact ⟨hl, fun a ha => ⟨h.post a ha, hlast⟩⟩

/-- **The loop rule**, for a loop that is known to end: `Inv` holds before every round. -/
theorem Keeps.loop {limit : ε} {body : τ → Prog ε σ (τ ⊕ α)} (Inv : τ → σ → Prop)
    (h : ∀ t s, Inv t s → Keeps R (body t) s fun r s' => match r with
      | .inl t' => Inv t' s'
      | .inr a => Q a s') (n : Nat) (t : τ) (s : σ) (hs : Inv t s) :
    Keeps R (loop limit body n t) s Q := by
  induction n generalizing t s with
  | zero => exact Keeps.lift nofun
  | succ n ih =>
      refine (h t s hs).bind fun r s' hr => ?_
      cases r with
      | inl t' => exact ih t' s' hr
      | inr a => exact Keeps.ret hr

/-! ## Invariants -/

/-- Every operation of `p` leads from a state with `Inv` to one with `Inv`. -/
def Preserves (Inv : σ → Prop) (p : Prog ε σ α) : Prop :=
  ∀ s, Inv s → Keeps (fun _ t => Inv t) p s fun _ t => Inv t

variable {Inv : σ → Prop}

/-- A program that keeps `Inv` may be stopped behind any of its operations. -/
theorem Keeps.stopped (h : Keeps (fun _ t => Inv t) p s Q) (hs : Inv s) {l : List σ}
    (hl : l <+: (p s).2) : Inv (l.getLastD s) := by
  have hchain := List.IsChain.prefix h.chain ((List.prefix_cons_inj s).mpr hl)
  clear h hl
  induction l generalizing s with
  | nil => exact hs
  | cons t l ih =>
      rw [List.getLastD_cons]
      obtain ⟨ht, hchain⟩ := List.isChain_cons_cons.mp hchain
      exact ih ht hchain

theorem Preserves.of_outcome (h : Preserves Inv p) (hs : Inv s) {a : α} {t : σ}
    (ho : p.outcome s = .ok (a, t)) : Inv t :=
  (h s hs).of_outcome ho

theorem Preserves.ret (a : α) : Preserves Inv (pure a : Prog ε σ α) := fun _ hs => Keeps.ret hs

theorem Preserves.op {g : σ → α × σ} (h : ∀ s, Inv s → Inv (g s).2) :
    Preserves Inv (Prog.op g : Prog ε σ α) :=
  fun s hs => Keeps.op (h s hs) (h s hs)

theorem Preserves.lift (x : Except ε α) : Preserves Inv (Prog.lift x : Prog ε σ α) :=
  fun _ hs => Keeps.lift fun _ _ => hs

theorem Preserves.bind (h : Preserves Inv p) (hf : ∀ a, Preserves Inv (f a)) :
    Preserves Inv (p >>= f) :=
  fun s hs => (h s hs).bind fun a t ht => hf a t ht

theorem Preserves.ite {c : Prop} [Decidable c] {q : Prog ε σ α} (hp : Preserves Inv p)
    (hq : Preserves Inv q) : Preserves Inv (if c then p else q) := by
  split_ifs
  · exact hp
  · exact hq

theorem Preserves.loop {limit : ε} {body : τ → Prog ε σ (τ ⊕ α)} (h : ∀ t, Preserves Inv (body t))
    (n : Nat) (t : τ) : Preserves Inv (loop limit body n t) :=
  fun s hs => Keeps.loop (fun _ s => Inv s)
    (fun t s hs => (h t s hs).mono (fun _ _ ht => ht) fun r _ ht => by cases r <;> exact ht) n t s hs

/-! ## What holds of all the states -/

/-- When `p` returns, `Q` holds of what it returns and of the states behind its operations. -/
def Traces (p : Prog ε σ α) (s : σ) (Q : α → List σ → Prop) : Prop :=
  ∀ a, (p s).1 = .ok a → Q a (p s).2

variable {T : α → List σ → Prop} {U : β → List σ → Prop}

theorem Keeps.traces (h : Keeps R p s Q) :
    Traces p s fun a l => List.IsChain R (s :: l) ∧ Q a (l.getLastD s) :=
  fun a ha => ⟨h.chain, h.post a ha⟩

theorem Traces.of_outcome (h : Traces p s T) {a : α} {t : σ} (ho : p.outcome s = .ok (a, t)) :
    T a (p s).2 ∧ t = (p s).2.getLastD s := by
  unfold outcome at ho
  cases hp : (p s).1 with
  | error e => rw [hp] at ho; cases ho
  | ok b =>
      rw [hp] at ho
      cases ho
      exact ⟨h _ hp, rfl⟩

theorem Traces.bind (h : Traces p s T)
    (hf : ∀ a l, T a l → Traces (f a) (l.getLastD s) fun b l' => U b (l ++ l')) :
    Traces (p >>= f) s U := by
  intro b hb
  cases hp : (p s).1 with
  | error e =>
      have hseq : (p >>= f) s = (.error e, (p s).2) := by
        show seq p f s = _
        simp only [seq, hp]
      rw [hseq] at hb
      cases hb
  | ok a =>
      have hseq : (p >>= f) s = ((f a (p.last s)).1, (p s).2 ++ (f a (p.last s)).2) := by
        show seq p f s = _
        simp only [seq, hp]
      rw [hseq] at hb ⊢
      exact hf a _ (h a hp) b hb

theorem Traces.lift_bind {x : Except ε α} (h : ∀ a, x = .ok a → Traces (f a) s U) :
    Traces (Prog.lift x >>= f) s U :=
  Traces.bind (T := fun a l => x = .ok a ∧ l = []) (fun _ ha => ⟨ha, rfl⟩) <| by
    rintro a l ⟨hx, rfl⟩
    exact h a hx

theorem Traces.mono (h : Traces p s T) {T' : α → List σ → Prop} (hT : ∀ a l, T a l → T' a l) :
    Traces p s T' :=
  fun a ha => hT a _ (h a ha)

end Prog
