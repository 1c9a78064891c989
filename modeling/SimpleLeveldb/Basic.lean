import SimpleLeveldb.Lib.Loop
import Mathlib.Data.BitVec

set_option autoImplicit false

/-! # Bytes, statuses and faults

The vocabulary of the other modules. A `char` is a `Byte`, a `slice` or a `core::string` is
the list of its `Bytes`, and the fixed-width unsigned integers of the source are bit vectors.
A function of the source returns a `Status` (`status.h`). What the source leaves undefined or
stops at is a `Fault`: a failed `assert`, a null link that is followed, an access outside an
object, a loop that never ends.
-/

namespace SimpleLeveldb

abbrev Byte := BitVec 8

abbrev Bytes := List Byte

/-- `uint32_t` -/
abbrev U32 := BitVec 32

/-- `uint64_t` -/
abbrev U64 := BitVec 64

/-- The bytes of a string literal. -/
def text (s : String) : Bytes := s.toList.map (fun c => BitVec.ofNat 8 c.toNat)

/-- `snprintf` with `%llu`: the decimal digits of a number. -/
def decimal (n : Nat) : Bytes :=
  if n = 0 then text "0" else (Nat.digits 10 n).reverse.map (fun d => BitVec.ofNat 8 (48 + d))

/-- The digits spell the number. -/
theorem ofDigits_decimal (n : Nat) :
    Nat.ofDigits 10 ((decimal n).map (fun c => c.toNat - 48)).reverse = n := by
  unfold decimal
  by_cases hn : n = 0
  · rw [hn]
    rfl
  · have hdigit : ∀ d ∈ (Nat.digits 10 n).reverse,
        ((fun c : Byte => c.toNat - 48) ∘ fun d => BitVec.ofNat 8 (48 + d)) d = id d := by
      intro d hd
      have : d < 10 := Nat.digits_lt_base (by decide) (List.mem_reverse.mp hd)
      rw [Function.comp_apply, BitVec.toNat_ofNat, id]
      omega
    rw [if_neg hn, List.map_map, List.map_congr_left hdigit, List.map_id,
      List.reverse_reverse, Nat.ofDigits_digits]

theorem decimal_injective : Function.Injective decimal := by
  intro n m h
  rw [← ofDigits_decimal n, h, ofDigits_decimal]

/-- `n` zero bytes. -/
def zeros (n : Nat) : Bytes := List.replicate n 0#8

@[simp] theorem zeros_length (n : Nat) : (zeros n).length = n := by simp [zeros]

/-! ## Statuses -/

/-- `status::code`, without `kOk`. -/
inductive Code where
  | kNotFound
  | kCorruption
  | kNotSupported
  | kInvalidArgument
  | kIOError
  deriving DecidableEq, Repr

/-- `status`: `ok` has a null `state_`; otherwise `state_` holds the code and the message. -/
inductive Status where
  | ok
  | error (code : Code) (msg : Bytes)
  deriving DecidableEq, Repr

namespace Status

def isOk : Status → Bool
  | ok => true
  | error _ _ => false

def isNotFound : Status → Bool
  | error .kNotFound _ => true
  | _ => false

/-- The constructor `status( code, msg, msg2 )`: a non-empty `msg2` follows after `": "`. -/
def make (code : Code) (msg msg2 : Bytes) : Status :=
  error code (if msg2.isEmpty then msg else msg ++ text ": " ++ msg2)

def notFound (msg : Bytes) (msg2 : Bytes := []) : Status := make .kNotFound msg msg2
def corruption (msg : Bytes) (msg2 : Bytes := []) : Status := make .kCorruption msg msg2
def notSupported (msg : Bytes) (msg2 : Bytes := []) : Status := make .kNotSupported msg msg2
def invalidArgument (msg : Bytes) (msg2 : Bytes := []) : Status := make .kInvalidArgument msg msg2
def ioError (msg : Bytes) (msg2 : Bytes := []) : Status := make .kIOError msg msg2

/-- `status::to_string` -/
def toText : Status → Bytes
  | ok => text "OK"
  | error .kNotFound m => text "NotFound: " ++ m
  | error .kCorruption m => text "Corruption: " ++ m
  | error .kNotSupported m => text "Not Implemented: " ++ m
  | error .kInvalidArgument m => text "Invalid Argument: " ++ m
  | error .kIOError m => text "IO Error: " ++ m

@[simp] theorem isOk_ok : ok.isOk = true := rfl

@[simp] theorem isOk_error (c : Code) (m : Bytes) : (error c m).isOk = false := rfl

@[simp] theorem isOk_corruption (m m2 : Bytes) : (corruption m m2).isOk = false := rfl

@[simp] theorem isOk_invalidArgument (m m2 : Bytes) : (invalidArgument m m2).isOk = false := rfl

theorem isOk_iff (s : Status) : s.isOk = true ↔ s = ok := by
  cases s <;> simp

end Status

/-! ## Faults -/

/-- What ends a run of the program that is not a return. -/
inductive Fault where
  /-- an `assert` failed -/
  | assertion
  /-- a null pointer was followed -/
  | nullLink
  /-- a pointer to no live object, or an index outside an array, was followed -/
  | badAccess
  /-- a loop or a recursion went on beyond the rounds it was given -/
  | endless
  deriving DecidableEq, Repr

/-- `assert( p )` -/
def require (p : Prop) [Decidable p] : Except Fault Unit :=
  if p then .ok () else .error .assertion

theorem require_of {p : Prop} [Decidable p] (h : p) : require p = .ok () := if_pos h

theorem require_of_not {p : Prop} [Decidable p] (h : ¬ p) : require p = .error .assertion :=
  if_neg h

theorem of_require {p : Prop} [Decidable p] {u : Unit} (h : require p = .ok u) : p := by
  by_contra hnot
  rw [require_of_not hnot] at h
  cases h

/-- Follow a link. -/
def deref {α : Type} : Option α → Except Fault α
  | some p => .ok p
  | none => .error .nullLink

theorem deref_eq_ok {α : Type} {o : Option α} {a : α} : deref o = .ok a ↔ o = some a := by
  cases o <;> simp [deref]

@[simp] theorem ok_bind {α β : Type} (a : α) (f : α → Except Fault β) :
    (Except.ok a >>= f) = f a := rfl

@[simp] theorem error_bind {α β : Type} (e : Fault) (f : α → Except Fault β) :
    ((Except.error e : Except Fault α) >>= f) = .error e := rfl

/-- A computation that returns went through its first part. -/
theorem bind_eq_ok {α β : Type} {x : Except Fault α} {f : α → Except Fault β} {b : β} :
    (x >>= f) = .ok b ↔ ∃ a, x = .ok a ∧ f a = .ok b := by
  cases x with
  | error e => simp
  | ok a => simp

theorem toOption_eq_some {α : Type} {x : Except Fault α} {a : α} :
    x.toOption = some a ↔ x = .ok a := by
  cases x with
  | error e => simp [Except.toOption]
  | ok a => simp [Except.toOption]

/-- A loop over a list in which nothing goes wrong. -/
theorem mapM_eq_ok {α β : Type} {f : α → Except Fault β} {g : α → β} {l : List α}
    (h : ∀ a ∈ l, f a = .ok (g a)) : l.mapM f = .ok (l.map g) := by
  induction l with
  | nil => rfl
  | cons a l ih =>
      rw [List.mapM_cons, h a List.mem_cons_self, ih fun b hb => h b (List.mem_cons_of_mem a hb)]
      rfl

/-- A loop over a list that changes a state in which nothing goes wrong. -/
theorem foldlM_eq_ok {α β : Type} {f : α → β → Except Fault α} {g : α → β → α} {l : List β}
    (h : ∀ a, ∀ b ∈ l, f a b = .ok (g a b)) (a : α) : l.foldlM f a = .ok (l.foldl g a) := by
  induction l generalizing a with
  | nil => rfl
  | cons b l ih =>
      rw [List.foldlM_cons, h a b List.mem_cons_self]
      exact ih (fun a c hc => h a c (List.mem_cons_of_mem b hc)) _

/-- A loop whose turns all return, returns. -/
theorem exists_foldlM_eq_ok {α β : Type} {f : α → β → Except Fault α} {l : List β}
    (h : ∀ a, ∀ b ∈ l, ∃ a', f a b = .ok a') (a : α) : ∃ a', l.foldlM f a = .ok a' := by
  induction l generalizing a with
  | nil => exact ⟨a, rfl⟩
  | cons b l ih =>
      obtain ⟨a', ha⟩ := h a b List.mem_cons_self
      rw [List.foldlM_cons, ha]
      exact ih (fun a c hc => h a c (List.mem_cons_of_mem b hc)) a'

/-- A loop whose turns all return and keep an invariant, returns with it. -/
theorem exists_foldlM_of_invariant {α β : Type} {f : α → β → Except Fault α} (Inv : α → Prop)
    {l : List β} (h : ∀ a, ∀ b ∈ l, Inv a → ∃ a', f a b = .ok a' ∧ Inv a') {a : α} (ha : Inv a) :
    ∃ a', l.foldlM f a = .ok a' ∧ Inv a' := by
  induction l generalizing a with
  | nil => exact ⟨a, rfl, ha⟩
  | cons b l ih =>
      obtain ⟨a₁, h₁, ha₁⟩ := h a b List.mem_cons_self ha
      rw [List.foldlM_cons, h₁]
      exact ih (fun a c hc => h a c (List.mem_cons_of_mem b hc)) ha₁

/-- What every turn of a loop keeps, the loop keeps. -/
theorem foldlM_invariant {α β : Type} {f : α → β → Except Fault α} (Inv : α → Prop)
    (h : ∀ a b a', Inv a → f a b = .ok a' → Inv a') {l : List β} {a a' : α} (ha : Inv a)
    (hl : l.foldlM f a = .ok a') : Inv a' := by
  induction l generalizing a with
  | nil =>
      cases hl
      exact ha
  | cons b l ih =>
      rw [List.foldlM_cons, bind_eq_ok] at hl
      obtain ⟨a₁, h₁, hl⟩ := hl
      exact ih (h a b a₁ ha h₁) hl

end SimpleLeveldb
