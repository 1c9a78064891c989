import SimpleLeveldb.Lib.Custody
import SimpleLeveldb.Util.Coding

set_option autoImplicit false

/-! # The memory of statuses (`leveldb/status.h`, `leveldb/status.cc`)

Elsewhere a `status` is a value. In the source it is an object with a pointer `state_` to an array
on the heap: constructors and the copy assignment make arrays, the destructor and the copy
assignment delete them, and moves hand them over. Here the objects and the arrays are as the source
has them. A run of statements on any number of objects goes hand in hand with a run on values.
-/

namespace SimpleLeveldb

namespace StatusMemory

/-! ## The arrays -/

/-- A value of `enum class code`. -/
inductive StateCode where
  | kOk
  | error (code : Code)
  /-- a `char` that is none of them -/
  | unknown (c : Byte)
  deriving DecidableEq, Repr

/-- `static_cast< char >( code )` -/
def StateCode.toChar : StateCode → Byte
  | kOk => 0#8
  | error .kNotFound => 1#8
  | error .kCorruption => 2#8
  | error .kNotSupported => 3#8
  | error .kInvalidArgument => 4#8
  | error .kIOError => 5#8
  | unknown c => c

/-- `static_cast< enum code >( c )` -/
def StateCode.ofChar (c : Byte) : StateCode :=
  match c.toNat with
  | 0 => kOk
  | 1 => error .kNotFound
  | 2 => error .kCorruption
  | 3 => error .kNotSupported
  | 4 => error .kInvalidArgument
  | 5 => error .kIOError
  | _ => unknown c

theorem StateCode.ofChar_toChar (code : Code) :
    ofChar (error code).toChar = error code := by
  cases code <;> rfl

/-- `memcpy` of `src` to an array, from `off` on -/
def memcpy (dst : Bytes) (off : Nat) (src : Bytes) : Except Fault Bytes :=
  if off + src.length ≤ dst.length then
    .ok (dst.take off ++ src ++ dst.drop (off + src.length))
  else .error .badAccess

/-- The `n` bytes of an array from `off` on -/
def bytesAt (src : Bytes) (off n : Nat) : Except Fault Bytes :=
  if off + n ≤ src.length then .ok ((src.drop off).take n) else .error .badAccess

/-- `new char[ n ]`, where `n` is an `int32_t`: its memory holds whatever it held before. -/
def newArray (newChars : Nat → Bytes) (n : Int) : Except Fault Bytes :=
  if 0 ≤ n ∧ n < 2 ^ 31 then .ok (newChars n.toNat) else .error .badAccess

/-- The array that the constructor `status( code, msg, msg2 )` stores in `state_` -/
def construct (newChars : Nat → Bytes) (code : StateCode) (msg msg2 : Bytes) :
    Except Fault Bytes := do
  require (code ≠ .kOk)
  let len1 : U32 := BitVec.ofNat 32 msg.length
  let len2 : U32 := BitVec.ofNat 32 msg2.length
  let size : U32 := len1 + if len2 ≠ 0#32 then 2#32 + len2 else 0#32
  let result ← newArray newChars (size.toInt + 5)
  let result ← memcpy result 0 (encodeFixed32 size)
  let result ← memcpy result 4 [code.toChar]
  let result ← memcpy result 5 (msg.take len1.toNat)
  if len2 ≠ 0#32 then
    let result ← memcpy result (5#32 + len1).toNat (text ":")
    let result ← memcpy result (6#32 + len1).toNat (text " ")
    memcpy result (7 + len1.toNat) (msg2.take len2.toNat)
  else return result

/-- `status::copy_state` -/
def copyState (newChars : Nat → Bytes) (state : Bytes) : Except Fault Bytes := do
  let size := decodeFixed32 (← bytesAt state 0 4)
  memcpy (newChars (size + 5#32).toNat) 0 (← bytesAt state 0 (size + 5#32).toNat)

/-- `status::code`, of a `state_` that is not null -/
def codeAt (state : Bytes) : Except Fault StateCode := do
  return StateCode.ofChar ((← bytesAt state 4 1).getD 0 0#8)

/-- What `status::to_string` puts before the message; for an unknown code `type` has no value. -/
def typeText : StateCode → Except Fault Bytes
  | .kOk => .ok (text "OK")
  | .error .kNotFound => .ok (text "NotFound: ")
  | .error .kCorruption => .ok (text "Corruption: ")
  | .error .kNotSupported => .ok (text "Not Implemented: ")
  | .error .kInvalidArgument => .ok (text "Invalid Argument: ")
  | .error .kIOError => .ok (text "IO Error: ")
  | .unknown _ => .error .badAccess

/-- `status::to_string`, of a `state_` that is not null -/
def textAt (state : Bytes) : Except Fault Bytes := do
  let type ← typeText (← codeAt state)
  let length := decodeFixed32 (← bytesAt state 0 4)
  return type ++ (← bytesAt state 5 length.toNat)

/-! ## Objects and statements -/

variable {V A : Type}

/-- The `status` objects that are alive, with their `state_`, and the arrays on the heap. -/
structure Memory (V A : Type) where
  objects : V → Option (Option A)
  arrays : A → Option Bytes

namespace Memory

/-- `state_` of an object -/
def state (st : Memory V A) (v : V) : Except Fault (Option A) :=
  match st.objects v with
  | some s => .ok s
  | none => .error .badAccess

/-- What `state_` points to -/
def array (st : Memory V A) (a : A) : Except Fault Bytes :=
  match st.arrays a with
  | some state => .ok state
  | none => .error .badAccess

def isOk (st : Memory V A) (v : V) : Except Fault Bool := do
  return (← st.state v).isNone

def code (st : Memory V A) (v : V) : Except Fault StateCode := do
  match ← st.state v with
  | none => return .kOk
  | some a => codeAt (← st.array a)

/-- `is_not_found` and its siblings -/
def isCode (c : Code) (st : Memory V A) (v : V) : Except Fault Bool := do
  return (← st.code v) = .error c

def isNotFound (st : Memory V A) (v : V) : Except Fault Bool := st.isCode .kNotFound v
def isCorruption (st : Memory V A) (v : V) : Except Fault Bool := st.isCode .kCorruption v
def isIoError (st : Memory V A) (v : V) : Except Fault Bool := st.isCode .kIOError v
def isNotSupported (st : Memory V A) (v : V) : Except Fault Bool := st.isCode .kNotSupported v
def isInvalidArgument (st : Memory V A) (v : V) : Except Fault Bool := st.isCode .kInvalidArgument v

/-- `status::to_string` -/
def toText (st : Memory V A) (v : V) : Except Fault Bytes := do
  match ← st.state v with
  | none => return text "OK"
  | some a => textAt (← st.array a)

section Objects

variable [DecidableEq V]

def setObject (st : Memory V A) (v : V) (s : Option (Option A)) : Memory V A :=
  { st with objects := Function.update st.objects v s }

@[simp] theorem setObject_self (st : Memory V A) (v : V) (s : Option (Option A)) :
    (st.setObject v s).objects v = s := by
  simp [setObject]

theorem setObject_of_ne (st : Memory V A) {v w : V} (hw : w ≠ v) (s : Option (Option A)) :
    (st.setObject v s).objects w = st.objects w := by
  simp [setObject, hw]

@[simp] theorem setObject_setObject (st : Memory V A) (v : V) (s t : Option (Option A)) :
    (st.setObject v s).setObject v t = st.setObject v t := by
  simp [setObject]

/-- Two stores swap what two objects have. -/
theorem setObject_swap {st : Memory V A} {v rhs : V} {s r : Option (Option A)}
    (hv : st.objects v = s) (hrhs : st.objects rhs = r) :
    (st.setObject v r).setObject rhs s
      = { st with objects := fun w => st.objects (Equiv.swap v rhs w) } := by
  have hcomp := Equiv.comp_swap_eq_update rhs v st.objects
  rw [hv, hrhs, Equiv.swap_comm] at hcomp
  rw [setObject, setObject, ← hcomp]
  rfl

@[simp] theorem setObject_arrays (st : Memory V A) (v : V) (s : Option (Option A)) :
    (st.setObject v s).arrays = st.arrays := rfl

end Objects

section Arrays

variable [DecidableEq A]

def setArray (st : Memory V A) (a : A) (state : Option Bytes) : Memory V A :=
  { st with arrays := Function.update st.arrays a state }

@[simp] theorem setArray_self (st : Memory V A) (a : A) (state : Option Bytes) :
    (st.setArray a state).arrays a = state := by
  simp [setArray]

theorem setArray_of_ne (st : Memory V A) {a b : A} (hb : b ≠ a) (state : Option Bytes) :
    (st.setArray a state).arrays b = st.arrays b := by
  simp [setArray, hb]

@[simp] theorem setArray_objects (st : Memory V A) (a : A) (state : Option Bytes) :
    (st.setArray a state).objects = st.objects := rfl

/-- `delete[] state_` -/
def delete (st : Memory V A) : Option A → Except Fault (Memory V A)
  | none => .ok st
  | some a => do
      let _ ← st.array a
      return st.setArray a none

end Arrays

/-- `state_ = ( rhs.state_ == nullptr ) ? nullptr : copy_state( rhs.state_ )` -/
def copyInto [DecidableEq V] [DecidableEq A] (newChars : Nat → Bytes) (a : A) (st : Memory V A)
    (v rhs : V) : Except Fault (Memory V A) := do
  match ← st.state rhs with
  | none => return st.setObject v (some none)
  | some r =>
      let result ← copyState newChars (← st.array r)
      return (st.setArray a (some result)).setObject v (some (some a))

theorem setArray_setObject [DecidableEq V] [DecidableEq A] (st : Memory V A) (v : V)
    (s : Option (Option A)) (a : A) (state : Option Bytes) :
    (st.setObject v s).setArray a state = (st.setArray a state).setObject v s := rfl

/-- What is copied does not depend on the object that is written. -/
theorem copyInto_setObject [DecidableEq V] [DecidableEq A] (newChars : Nat → Bytes) (a : A)
    (st : Memory V A) {v rhs : V} (hne : rhs ≠ v) (s : Option (Option A)) :
    (st.setObject v s).copyInto newChars a v rhs = st.copyInto newChars a v rhs := by
  have hstate : (st.setObject v s).state rhs = st.state rhs := by
    rw [state, st.setObject_of_ne hne, state]
  rw [copyInto, copyInto, hstate]
  cases st.state rhs with
  | error e => rfl
  | ok r =>
      cases r with
      | none => simp
      | some b =>
          have harray : (st.setObject v s).array b = st.array b := rfl
          simp only [ok_bind, harray]
          cases st.array b with
          | error e => rfl
          | ok bytes => simp only [ok_bind, setArray_setObject, setObject_setObject]

end Memory

/-- The statements on `status` objects. -/
inductive Op (V : Type) where
  /-- `status()` -/
  | default (v : V)
  /-- `not_found( msg, msg2 )` and its siblings -/
  | make (v : V) (code : Code) (msg msg2 : Bytes)
  /-- `status( const status& rhs )` -/
  | copy (v rhs : V)
  /-- `status( status&& rhs )` -/
  | move (v rhs : V)
  /-- `operator=( const status& rhs )` -/
  | assign (v rhs : V)
  /-- `operator=( status&& rhs )` -/
  | moveAssign (v rhs : V)
  /-- `~status()` -/
  | destroy (v : V)
  deriving DecidableEq, Repr

section Run

variable [DecidableEq V] [DecidableEq A]

/-- A statement, where `new char[]` gives the address `a`. -/
def Op.exec (newChars : Nat → Bytes) (a : A) (st : Memory V A) : Op V → Except Fault (Memory V A)
  | default v => .ok (st.setObject v (some none))
  | make v code msg msg2 => do
      let result ← construct newChars (.error code) msg msg2
      return (st.setArray a (some result)).setObject v (some (some a))
  | copy v rhs => st.copyInto newChars a v rhs
  | move v rhs => do
      let r ← st.state rhs
      return (st.setObject v (some r)).setObject rhs (some none)
  | assign v rhs => do
      let s ← st.state v
      let r ← st.state rhs
      if s ≠ r then
        let st ← st.delete s
        st.copyInto newChars a v rhs
      else return st
  | moveAssign v rhs => do
      let s ← st.state v
      let r ← st.state rhs
      return (st.setObject v (some r)).setObject rhs (some s)
  | destroy v => do
      let s ← st.state v
      let st ← st.delete s
      return st.setObject v none

/-- What a statement does to the values of the objects; `none` is an object that is not alive. -/
def Op.apply (values : V → Option Status) : Op V → V → Option Status
  | default v => Function.update values v (some .ok)
  | make v code msg msg2 => Function.update values v (some (Status.make code msg msg2))
  | copy v rhs => Function.update values v (values rhs)
  | move v rhs => Function.update (Function.update values v (values rhs)) rhs (some .ok)
  | assign v rhs => Function.update values v (values rhs)
  | moveAssign v rhs => fun w => values (Equiv.swap v rhs w)
  | destroy v => Function.update values v none

/-- A constructor makes an object where there is none, and everything else is done with objects
that are alive. -/
def Op.Allowed (values : V → Option Status) : Op V → Prop
  | default v => values v = none
  | make v _ _ _ => values v = none
  | copy v rhs => values v = none ∧ values rhs ≠ none
  | move v rhs => values v = none ∧ values rhs ≠ none
  | assign v rhs => values v ≠ none ∧ values rhs ≠ none
  | moveAssign v rhs => values v ≠ none ∧ values rhs ≠ none
  | destroy v => values v ≠ none

/-- The size of the array fits an `int32_t`. -/
def Op.Fits : Op V → Prop
  | make _ _ msg msg2 => msg.length + msg2.length + 7 < 2 ^ 31
  | _ => True

/-- There is no array at the address `a` when the statement makes one: the assignment has by then deleted
the array of its object. -/
def Op.Free (st : Memory V A) (a : A) : Op V → Prop
  | assign v _ => st.arrays a = none ∨ st.objects v = some (some a)
  | _ => st.arrays a = none

/-- The memories that a run can come to, with the values of the objects; an array is made at an
address where there is none then. -/
inductive Reachable : Memory V A → (V → Option Status) → Prop
  | init : Reachable ⟨fun _ => none, fun _ => none⟩ fun _ => none
  | step {st st' : Memory V A} {values : V → Option Status} {op : Op V} {a : A}
      {newChars : Nat → Bytes} : Reachable st values → op.Allowed values → op.Fits →
      (∀ n, (newChars n).length = n) → op.Free st a → op.exec newChars a st = .ok st' →
      Reachable st' (op.apply values)

end Run

/-! ## What the functions on arrays compute -/

/-- The array that stands for a code and a message -/
def layout (code : Code) (msg : Bytes) : Bytes :=
  encodeFixed32 (BitVec.ofNat 32 msg.length) ++ (StateCode.error code).toChar :: msg

theorem layout_length (code : Code) (msg : Bytes) : (layout code msg).length = msg.length + 5 := by
  simp [layout]
  omega

/-- `memcpy` behind what has been written already -/
theorem memcpy_written (written src rest : Bytes) (hroom : src.length ≤ rest.length) {n : Nat}
    (hn : n = written.length) :
    memcpy (written ++ rest) n src = .ok ((written ++ src) ++ rest.drop src.length) := by
  have hin : n + src.length ≤ (written ++ rest).length := by
    rw [List.length_append]
    omega
  rw [memcpy, if_pos hin, hn, List.take_left, List.drop_append, List.drop_eq_nil_of_le (by omega),
    List.nil_append, Nat.add_sub_cancel_left]

theorem bytesAt_eq (front part back : Bytes) {off n : Nat} (hoff : off = front.length)
    (hn : n = part.length) : bytesAt (front ++ (part ++ back)) off n = .ok part := by
  have hin : off + n ≤ (front ++ (part ++ back)).length := by
    simp only [List.length_append]
    omega
  rw [bytesAt, if_pos hin, hoff, List.drop_left, hn, List.take_left]

/-- The length that is stored in an array -/
theorem bytesAt_length (code : Code) (msg : Bytes) :
    bytesAt (layout code msg) 0 4 = .ok (encodeFixed32 (BitVec.ofNat 32 msg.length)) :=
  bytesAt_eq [] (encodeFixed32 (BitVec.ofNat 32 msg.length)) _ rfl rfl

theorem decodeFixed32_length {msg : Bytes} (hmsg : msg.length + 5 < 2 ^ 31) :
    (decodeFixed32 (encodeFixed32 (BitVec.ofNat 32 msg.length))).toNat = msg.length := by
  have hback := decodeFixed32_encodeFixed32 (BitVec.ofNat 32 msg.length) []
  rw [List.append_nil] at hback
  rw [hback, BitVec.toNat_ofNat]
  omega

theorem codeAt_layout (code : Code) (msg : Bytes) :
    codeAt (layout code msg) = .ok (.error code) := by
  have hchar : bytesAt (layout code msg) 4 1 = .ok [(StateCode.error code).toChar] :=
    bytesAt_eq (encodeFixed32 (BitVec.ofNat 32 msg.length)) [(StateCode.error code).toChar] msg rfl rfl
  rw [codeAt, hchar, ok_bind, List.getD_cons_zero, StateCode.ofChar_toChar]
  rfl

theorem textAt_layout {code : Code} {msg : Bytes} (hmsg : msg.length + 5 < 2 ^ 31) :
    textAt (layout code msg) = .ok (Status.error code msg).toText := by
  have hlayout : layout code msg
      = (encodeFixed32 (BitVec.ofNat 32 msg.length) ++ [(StateCode.error code).toChar])
        ++ (msg ++ []) := by
    simp [layout]
  have hmessage : bytesAt (layout code msg) 5 msg.length = .ok msg := by
    rw [hlayout]
    exact bytesAt_eq _ _ _ rfl rfl
  rw [textAt, codeAt_layout, ok_bind, bytesAt_length]
  cases code <;>
    · simp only [typeText, ok_bind]
      rw [decodeFixed32_length hmsg, hmessage]
      rfl

/-- **A copy** is the same array. -/
theorem copyState_layout {newChars : Nat → Bytes} (hnew : ∀ n, (newChars n).length = n)
    {code : Code} {msg : Bytes} (hmsg : msg.length + 5 < 2 ^ 31) :
    copyState newChars (layout code msg) = .ok (layout code msg) := by
  have hlength := decodeFixed32_length hmsg
  have hsize : (decodeFixed32 (encodeFixed32 (BitVec.ofNat 32 msg.length)) + 5#32).toNat
      = (layout code msg).length := by
    rw [BitVec.toNat_add, hlength, layout_length, BitVec.toNat_ofNat]
    omega
  have hall : bytesAt (layout code msg) 0 (layout code msg).length = .ok (layout code msg) := by
    have hself := bytesAt_eq [] (layout code msg) [] rfl rfl
    rwa [List.nil_append, List.append_nil] at hself
  have hcopy := memcpy_written [] (layout code msg) (newChars (layout code msg).length)
    (by rw [hnew]) rfl
  rw [List.nil_append, List.nil_append, List.drop_eq_nil_of_le (by rw [hnew]), List.append_nil]
    at hcopy
  rw [copyState, bytesAt_length, ok_bind]
  simp only [hsize, hall, ok_bind]
  exact hcopy

theorem newArray_eq (newChars : Nat → Bytes) (size : U32) (hsize : size.toNat + 5 < 2 ^ 31) :
    newArray newChars (size.toInt + 5) = .ok (newChars (size.toNat + 5)) := by
  have hint : size.toInt + 5 = (size.toNat + 5 : Nat) := by
    rw [BitVec.toInt_eq_toNat_of_lt (by omega)]
    rfl
  rw [hint, newArray, if_pos (by omega), Int.toNat_natCast]

/-- The length, the code and the first message are written in front. -/
theorem header_written {junk msg : Bytes} (size : U32) (c : Byte)
    (hroom : 5 + msg.length ≤ junk.length) (rest : Bytes → Except Fault Bytes) :
    (do
      let result ← memcpy junk 0 (encodeFixed32 size)
      let result ← memcpy result 4 [c]
      let result ← memcpy result 5 msg
      rest result)
    = rest (encodeFixed32 size ++ [c] ++ msg ++ junk.drop (5 + msg.length)) := by
  have hlength := memcpy_written [] (encodeFixed32 size) junk
    (by rw [encodeFixed32_length]; omega) (n := 0) rfl
  have hcode := memcpy_written (encodeFixed32 size) [c] (junk.drop 4)
    (by rw [List.length_drop, List.length_singleton]; omega) (n := 4) rfl
  have hmsg := memcpy_written (encodeFixed32 size ++ [c]) msg (junk.drop 5)
    (by rw [List.length_drop]; omega) (n := 5) rfl
  rw [List.nil_append, List.nil_append, encodeFixed32_length] at hlength
  rw [List.drop_drop, List.length_singleton] at hcode
  rw [List.drop_drop] at hmsg
  rw [hlength, ok_bind, hcode, ok_bind, hmsg, ok_bind]

/-- The second message is written behind the first, and fills the array. -/
theorem second_written {written junk msg2 : Bytes} {a b c : Nat} (ha : a = written.length)
    (hb : b = a + 1) (hc : c = a + 2) (hroom : junk.length = 2 + msg2.length) :
    (do
      let result ← memcpy (written ++ junk) a (text ":")
      let result ← memcpy result b (text " ")
      memcpy result c msg2)
    = .ok (written ++ text ": " ++ msg2) := by
  have hone : (text ":").length ≤ junk.length := by
    rw [hroom]
    exact Nat.le_add_right_of_le (by decide)
  have hcolon := memcpy_written written (text ":") junk hone ha
  have hblank := memcpy_written (written ++ text ":") (text " ") (junk.drop 1)
    (by rw [List.length_drop, hroom]; simp [text]) (n := b)
    (by rw [List.length_append, hb, ha]; rfl)
  have hmsg2 := memcpy_written (written ++ text ":" ++ text " ") msg2 (junk.drop 2)
    (by rw [List.length_drop, hroom]; omega) (n := c)
    (by rw [List.length_append, List.length_append, hc, ha]; rfl)
  have hnone : (junk.drop 2).drop msg2.length = [] :=
    List.drop_eq_nil_of_le (by rw [List.length_drop, hroom]; omega)
  have hmid : written ++ text ":" ++ text " " = written ++ text ": " := by
    rw [List.append_assoc]
    rfl
  rw [hnone, List.append_nil, hmid] at hmsg2
  rw [hcolon, ok_bind]
  show (memcpy (written ++ text ":" ++ junk.drop 1) b (text " ") >>= fun result =>
    memcpy result c msg2) = _
  rw [hblank, ok_bind, List.drop_drop, hmid]
  exact hmsg2

/-- **The constructor** writes the whole array. -/
theorem construct_layout {newChars : Nat → Bytes} (hnew : ∀ n, (newChars n).length = n)
    (code : Code) {msg msg2 : Bytes} (hfits : msg.length + msg2.length + 7 < 2 ^ 31) :
    ∃ full, construct newChars (.error code) msg msg2 = .ok (layout code full)
      ∧ Status.make code msg msg2 = .error code full ∧ full.length + 5 < 2 ^ 31 := by
  have hlen1 : (BitVec.ofNat 32 msg.length).toNat = msg.length := by
    rw [BitVec.toNat_ofNat]
    omega
  have hlen2 : (BitVec.ofNat 32 msg2.length).toNat = msg2.length := by
    rw [BitVec.toNat_ofNat]
    omega
  have htake1 : msg.take (BitVec.ofNat 32 msg.length).toNat = msg := by
    rw [hlen1, List.take_length]
  have htake2 : msg2.take (BitVec.ofNat 32 msg2.length).toNat = msg2 := by
    rw [hlen2, List.take_length]
  have hcode : require (StateCode.error code ≠ .kOk) = .ok () := require_of nofun
  cases hmsg2 : msg2.isEmpty with
  | true =>
      obtain rfl := List.isEmpty_iff.mp hmsg2
      refine ⟨msg, ?_, by simp [Status.make], by omega⟩
      have harray := newArray_eq newChars (BitVec.ofNat 32 msg.length)
        (by rw [hlen1]; omega)
      have hrest : (newChars (msg.length + 5)).drop (5 + msg.length) = [] :=
        List.drop_eq_nil_of_le (by rw [hnew]; omega)
      rw [construct, hcode, ok_bind]
      simp only [List.length_nil, ne_eq, not_true_eq_false, if_false,
        BitVec.add_zero]
      rw [harray, ok_bind, htake1, header_written _ _ (by rw [hnew, hlen1]; omega), hlen1, hrest,
        List.append_nil, List.append_assoc]
      rfl
  | false =>
      have hne : BitVec.ofNat 32 msg2.length ≠ 0#32 := by
        intro hzero
        rw [hzero] at hlen2
        have hnil : msg2 = [] := List.length_eq_zero_iff.mp hlen2.symm
        rw [hnil] at hmsg2
        cases hmsg2
      have hfull : (msg ++ text ": " ++ msg2).length = msg.length + 2 + msg2.length := by
        rw [List.length_append, List.length_append]
        rfl
      refine ⟨msg ++ text ": " ++ msg2, ?_, by rw [Status.make, hmsg2]; rfl, ?_⟩
      · have hsize : (BitVec.ofNat 32 msg.length + (2#32 + BitVec.ofNat 32 msg2.length)).toNat
            = (msg ++ text ": " ++ msg2).length := by
          rw [hfull, BitVec.toNat_add, BitVec.toNat_add, hlen1, hlen2, BitVec.toNat_ofNat]
          omega
        have hafter : (5#32 + BitVec.ofNat 32 msg.length).toNat = 5 + msg.length := by
          rw [BitVec.toNat_add, hlen1, BitVec.toNat_ofNat]
          omega
        have hafter' : (6#32 + BitVec.ofNat 32 msg.length).toNat = 5 + msg.length + 1 := by
          rw [BitVec.toNat_add, hlen1, BitVec.toNat_ofNat]
          omega
        have harray := newArray_eq newChars
          (BitVec.ofNat 32 msg.length + (2#32 + BitVec.ofNat 32 msg2.length))
          (by rw [hsize, hfull]; omega)
        rw [construct, hcode, ok_bind]
        simp only [hne, ne_eq, not_false_eq_true, if_true]
        rw [harray, ok_bind, htake1, header_written _ _ (by rw [hnew, hsize, hfull]; omega), htake2,
          second_written (by rw [hafter, List.length_append, List.length_append]; rfl)
            (by rw [hafter, hafter']) (by rw [hafter, hlen1]; omega)
            (by rw [List.length_drop, hnew, hsize, hfull]; omega)]
        rw [layout, ← hsize, BitVec.ofNat_toNat, BitVec.setWidth_eq]
        simp only [List.append_assoc, List.cons_append, List.nil_append]
      · rw [hfull]
        omega

/-! ## The objects stand for values -/

/-- The `state_` of an object that stands for a value -/
inductive Stands (arrays : A → Option Bytes) : Option Status → Option (Option A) → Prop
  | dead : Stands arrays none none
  | ok : Stands arrays (some .ok) (some none)
  | error {code : Code} {msg : Bytes} {a : A} : arrays a = some (layout code msg) →
      msg.length + 5 < 2 ^ 31 → Stands arrays (some (.error code msg)) (some (some a))

namespace Stands

variable {arrays arrays' : A → Option Bytes} {value : Option Status} {s : Option (Option A)}

theorem frame (h : Stands arrays value s) (hkept : ∀ a, s = some (some a) → arrays' a = arrays a) :
    Stands arrays' value s := by
  cases h with
  | dead => exact .dead
  | ok => exact .ok
  | error harray hmsg => exact .error ((hkept _ rfl).trans harray) hmsg

theorem object (h : Stands arrays value s) (hvalue : value ≠ none) : ∃ t, s = some t := by
  cases h with
  | dead => exact absurd rfl hvalue
  | ok => exact ⟨_, rfl⟩
  | error => exact ⟨_, rfl⟩

theorem no_object (h : Stands arrays value s) (hvalue : value = none) : s = none := by
  cases h with
  | dead => rfl
  | ok => cases hvalue
  | error => cases hvalue

end Stands

/-- The array that an object owns -/
def Memory.owned (st : Memory V A) (v : V) : Option A := (st.objects v).join

/-- Every object stands for its value, and every array has exactly one owner. -/
structure Represents (st : Memory V A) (values : V → Option Status) : Prop where
  stands : ∀ v, Stands st.arrays (values v) (st.objects v)
  custody : Custody st.owned (fun a => st.arrays a ≠ none)

namespace Represents

variable {st : Memory V A} {values : V → Option Status} {newChars : Nat → Bytes} {v rhs : V} {a : A}
  {s : Option A}

theorem object (h : Represents st values) (hv : values v ≠ none) :
    ∃ s, st.objects v = some s ∧ st.state v = .ok s := by
  obtain ⟨s, hs⟩ := (h.stands v).object hv
  exact ⟨s, hs, by rw [Memory.state, hs]⟩

/-- Objects with the same `state_` have the same value. -/
theorem value_eq (h : Represents st values) (hv : st.objects v = some s)
    (hrhs : st.objects rhs = some s) : values v = values rhs := by
  have hstands := h.stands v
  have hstands' := h.stands rhs
  rw [hv] at hstands
  rw [hrhs] at hstands'
  cases s with
  | none =>
      generalize values v = x at hstands
      generalize values rhs = y at hstands'
      cases hstands
      cases hstands'
      rfl
  | some a =>
      have hsame : v = rhs := h.custody.sole v rhs a (by rw [Memory.owned, hv]; rfl)
        (by rw [Memory.owned, hrhs]; rfl)
      rw [hsame]

/-- Nobody owns an array that is yet to be made. -/
theorem ne_of_object (h : Represents st values) (ha : st.arrays a = none) {b : A}
    (hv : st.objects v = some (some b)) : b ≠ a := by
  rintro rfl
  exact h.custody.valid v b (by rw [Memory.owned, hv]; rfl) ha

/-- A memory where some objects hand over their `state_` to each other -/
theorem swap [DecidableEq V] (h : Represents st values) (v rhs : V) :
    Represents { st with objects := fun w => st.objects (Equiv.swap v rhs w) }
      fun w => values (Equiv.swap v rhs w) where
  stands := fun _ => h.stands _
  custody := h.custody.swap v rhs

variable [DecidableEq V]

/-- A new object without an array -/
theorem null (h : Represents st values) (hv : values v = none) :
    Represents (st.setObject v (some none)) (Function.update values v (some .ok)) where
  stands := by
    intro w
    by_cases hw : w = v
    · rw [hw, Memory.setObject_self, Function.update_self]
      exact .ok
    · rw [st.setObject_of_ne hw, Function.update_of_ne hw]
      exact h.stands w
  custody := by
    refine h.custody.congr (fun w => ?_) fun _ => Iff.rfl
    by_cases hw : w = v
    · rw [hw, Memory.owned, Memory.owned, Memory.setObject_self, (h.stands v).no_object hv]
      rfl
    · rw [Memory.owned, st.setObject_of_ne hw, Memory.owned]

variable [DecidableEq A]

/-- A new object with a new array -/
theorem new (h : Represents st values) (hv : values v = none) (ha : st.arrays a = none)
    {code : Code} {msg : Bytes} (hmsg : msg.length + 5 < 2 ^ 31) :
    Represents ((st.setArray a (some (layout code msg))).setObject v (some (some a)))
      (Function.update values v (some (.error code msg))) where
  stands := by
    intro w
    rw [Memory.setObject_arrays]
    by_cases hw : w = v
    · rw [hw, Memory.setObject_self, Function.update_self]
      exact .error (st.setArray_self a _) hmsg
    · rw [Memory.setObject_of_ne _ hw, Function.update_of_ne hw]
      exact (h.stands w).frame fun b hb => st.setArray_of_ne (h.ne_of_object ha hb) _
  custody := by
    refine h.custody.take (x := a) (o := v) (fun hlive => hlive ha) ?_ ?_ (fun w hw => ?_) fun b => ?_
    · rw [Memory.owned, (h.stands v).no_object hv]
      rfl
    · rw [Memory.owned, Memory.setObject_self]
      rfl
    · rw [Memory.owned, Memory.setObject_of_ne _ hw]
      rfl
    · rw [Memory.setObject_arrays]
      by_cases hb : b = a
      · simp [hb]
      · simp [st.setArray_of_ne hb, hb]

/-- **The end of an object**: its array is there to be deleted. -/
theorem delete (h : Represents st values) (hv : st.objects v = some s) :
    ∃ st', st.delete s = .ok st' ∧ (∀ b, st.arrays b = none ∨ s = some b → st'.arrays b = none)
      ∧ Represents (st'.setObject v none) (Function.update values v none) := by
  cases s with
  | none =>
      refine ⟨st, rfl, fun _ hb => hb.resolve_right nofun, fun w => ?_,
        h.custody.congr (fun w => ?_) fun _ => Iff.rfl⟩
      · by_cases hw : w = v
        · rw [hw, Memory.setObject_self, Function.update_self]
          exact .dead
        · rw [st.setObject_of_ne hw, Function.update_of_ne hw]
          exact h.stands w
      · by_cases hw : w = v
        · rw [hw, Memory.owned, Memory.owned, Memory.setObject_self, hv]
          rfl
        · rw [Memory.owned, st.setObject_of_ne hw, Memory.owned]
  | some a =>
      have howned : st.owned v = some a := by
        rw [Memory.owned, hv]
        rfl
      obtain ⟨state, harray⟩ := Option.ne_none_iff_exists'.mp (h.custody.valid v a howned)
      refine ⟨st.setArray a none, ?_, fun b hb => ?_, fun w => ?_, ?_⟩
      · rw [Memory.delete, Memory.array, harray]
        rfl
      · by_cases hba : b = a
        · rw [hba, Memory.setArray_self]
        · rw [st.setArray_of_ne hba]
          exact hb.resolve_right fun he => hba (Option.some.inj he).symm
      · rw [Memory.setObject_arrays]
        by_cases hw : w = v
        · rw [hw, Memory.setObject_self, Function.update_self]
          exact .dead
        · rw [Memory.setObject_of_ne _ hw, Function.update_of_ne hw]
          refine (h.stands w).frame fun b hb => st.setArray_of_ne ?_ _
          rintro rfl
          exact hw (h.custody.sole w v b (by rw [Memory.owned, hb]; rfl) howned)
      · refine h.custody.drop howned ?_ (fun w hw => ?_) fun b => ?_
        · rw [Memory.owned, Memory.setObject_self]
          rfl
        · rw [Memory.owned, Memory.setObject_of_ne _ hw]
          rfl
        · rw [Memory.setObject_arrays]
          by_cases hb : b = a
          · simp [hb]
          · simp [st.setArray_of_ne hb, hb]

/-- **A copy** -/
theorem copyInto (h : Represents st values) (hv : values v = none) (hrhs : values rhs ≠ none)
    (ha : st.arrays a = none) (hnew : ∀ n, (newChars n).length = n) :
    ∃ st', st.copyInto newChars a v rhs = .ok st'
      ∧ Represents st' (Function.update values v (values rhs)) := by
  obtain ⟨s, hs, hstate⟩ := h.object hrhs
  have hstands := h.stands rhs
  rw [Memory.copyInto, hstate, ok_bind]
  cases hvalue : values rhs with
  | none => exact absurd hvalue hrhs
  | some value =>
      rw [hs, hvalue] at hstands
      cases hstands with
      | ok => exact ⟨_, rfl, h.null hv⟩
      | error harray hmsg =>
          refine ⟨_, ?_, h.new hv ha hmsg⟩
          simp only [Memory.array, harray, ok_bind, copyState_layout hnew hmsg]
          rfl

/-- **A statement** returns, and does to the objects what it does to the values. -/
theorem exec (h : Represents st values) {op : Op V} (hop : op.Allowed values) (hfits : op.Fits)
    (ha : op.Free st a) (hnew : ∀ n, (newChars n).length = n) :
    ∃ st', op.exec newChars a st = .ok st' ∧ Represents st' (op.apply values) := by
  cases op with
  | default v => exact ⟨_, rfl, h.null hop⟩
  | make v code msg msg2 =>
      obtain ⟨full, hconstruct, hmake, hfull⟩ := construct_layout hnew code hfits
      refine ⟨_, by rw [Op.exec, hconstruct]; rfl, ?_⟩
      rw [Op.apply, hmake]
      exact h.new hop ha hfull
  | copy v rhs => exact h.copyInto hop.1 hop.2 ha hnew
  | move v rhs =>
      obtain ⟨r, hr, hstate⟩ := h.object hop.2
      have hne : rhs ≠ v := by
        rintro rfl
        exact hop.2 hop.1
      refine ⟨_, by rw [Op.exec, hstate]; rfl, ?_⟩
      -- the new object is empty first, and the two swap what they have
      have hmoved : (st.setObject v (some r)).setObject rhs (some none)
          = ((st.setObject v (some none)).setObject v (some r)).setObject rhs (some none) := by
        rw [Memory.setObject_setObject]
      rw [hmoved, Memory.setObject_swap (Memory.setObject_self _ _ _)
        ((st.setObject_of_ne hne _).trans hr)]
      have hvalues : (Op.move v rhs).apply values
          = fun w => Function.update values v (some .ok) (Equiv.swap v rhs w) := by
        have hcomp := Equiv.comp_swap_eq_update rhs v (Function.update values v (some .ok))
        rw [Function.update_self, Function.update_of_ne hne, Function.update_idem,
          Equiv.swap_comm] at hcomp
        exact hcomp.symm
      rw [hvalues]
      exact (h.null hop.1).swap v rhs
  | assign v rhs =>
      obtain ⟨s, hs, hstate⟩ := h.object hop.1
      obtain ⟨r, hr, hrstate⟩ := h.object hop.2
      rw [Op.exec, hstate, ok_bind, hrstate, ok_bind]
      by_cases heq : s = r
      · refine ⟨st, if_neg (not_not_intro heq), ?_⟩
        rw [Op.apply, ← h.value_eq (heq ▸ hs) hr, Function.update_eq_self]
        exact h
      · rw [if_pos heq]
        have hne : rhs ≠ v := by
          rintro rfl
          exact heq (Option.some.inj (hs.symm.trans hr))
        obtain ⟨st', hdelete, hkept, h'⟩ := h.delete hs
        have hfree : st.arrays a = none ∨ s = some a :=
          ha.imp_right fun hv => Option.some.inj (hs.symm.trans hv)
        have hvalue : Function.update values v none rhs = values rhs := Function.update_of_ne hne _ _
        obtain ⟨st'', hcopy, h''⟩ := h'.copyInto (Function.update_self v _ _)
          (fun hnone => hop.2 (hvalue.symm.trans hnone)) (hkept a hfree) hnew
        rw [Memory.copyInto_setObject _ _ _ hne] at hcopy
        rw [hvalue, Function.update_idem] at h''
        exact ⟨st'', by rw [hdelete]; exact hcopy, h''⟩
  | moveAssign v rhs =>
      obtain ⟨s, hs, hstate⟩ := h.object hop.1
      obtain ⟨r, hr, hrstate⟩ := h.object hop.2
      refine ⟨_, by rw [Op.exec, hstate, ok_bind, hrstate]; rfl, ?_⟩
      rw [Memory.setObject_swap hs hr]
      exact h.swap v rhs
  | destroy v =>
      obtain ⟨s, hs, hstate⟩ := h.object hop
      obtain ⟨st', hdelete, -, h'⟩ := h.delete hs
      exact ⟨_, by rw [Op.exec, hstate, ok_bind, hdelete]; rfl, h'⟩

end Represents

/-! ## What the objects read as -/

/-- `status::code`, of a value -/
def stateCode : Status → StateCode
  | .ok => .kOk
  | .error code _ => .error code

section Reads

variable {st : Memory V A} {values : V → Option Status} {v : V} {value : Status}

theorem Represents.reads (h : Represents st values) (hv : values v = some value) :
    st.isOk v = .ok value.isOk ∧ st.code v = .ok (stateCode value)
      ∧ st.toText v = .ok value.toText := by
  have hstands := h.stands v
  rw [hv] at hstands
  generalize hs : st.objects v = s at hstands
  cases hstands with
  | ok =>
      have hstate : st.state v = .ok none := by rw [Memory.state, hs]
      refine ⟨?_, ?_, ?_⟩
      · rw [Memory.isOk, hstate]
        rfl
      · rw [Memory.code, hstate]
        rfl
      · rw [Memory.toText, hstate]
        rfl
  | error harray hmsg =>
      rename_i code msg a
      have hstate : st.state v = .ok (some a) := by rw [Memory.state, hs]
      have hload : st.array a = .ok (layout code msg) := by rw [Memory.array, harray]
      refine ⟨?_, ?_, ?_⟩
      · rw [Memory.isOk, hstate]
        rfl
      · simp only [Memory.code, hstate, ok_bind, hload, codeAt_layout]
        rfl
      · simp only [Memory.toText, hstate, ok_bind, hload, textAt_layout hmsg]

theorem Represents.isCode (h : Represents st values) (hv : values v = some value) (c : Code) :
    st.isCode c v = .ok (decide (stateCode value = .error c)) := by
  rw [Memory.isCode, (h.reads hv).2.1]
  rfl

end Reads

/-! ## Runs -/

section Results

variable [DecidableEq V] [DecidableEq A] {st : Memory V A} {values : V → Option Status}

theorem Reachable.represents (h : Reachable st values) : Represents st values := by
  induction h with
  | init => exact ⟨fun _ => .dead, Custody.none_held fun _ hlive => hlive rfl⟩
  | step _ hop hfits hnew ha hexec ih =>
      obtain ⟨st', hexec', h'⟩ := ih.exec hop hfits ha hnew
      rw [hexec] at hexec'
      cases hexec'
      exact h'

/-- A run goes on with any statement that is allowed. -/
theorem Reachable.goOn (h : Reachable st values) (op : Op V) (hop : op.Allowed values)
    (hfits : op.Fits) {a : A} (ha : op.Free st a) {newChars : Nat → Bytes}
    (hnew : ∀ n, (newChars n).length = n) :
    ∃ st', op.exec newChars a st = .ok st' ∧ Reachable st' (op.apply values) := by
  obtain ⟨st', hexec, -⟩ := h.represents.exec hop hfits ha hnew
  exact ⟨st', hexec, h.step hop hfits hnew ha hexec⟩

/-- The values of two objects with messages, of which the first is then assigned the second. -/
def assignedValues : Fin 2 → Option Status :=
  (Op.assign 0 1).apply ((Op.make 1 .kNotFound (text "c") []).apply
    ((Op.make 0 .kCorruption (text "a") (text "b")).apply fun _ => none))

/-- The assignment gets the address of the array that it has deleted. -/
theorem exists_assigned : ∃ st : Memory (Fin 2) Nat, Reachable st assignedValues := by
  obtain ⟨st₁, hexec₁, h₁⟩ := Reachable.init.goOn (V := Fin 2) (A := Nat)
    (.make 0 .kCorruption (text "a") (text "b")) rfl (by show 1 + 1 + 7 < 2 ^ 31; decide)
    (a := 0) rfl zeros_length
  have hfirst : st₁.arrays 1 = none ∧ st₁.objects 0 = some (some 0) := by
    obtain ⟨full, hconstruct, -⟩ := construct_layout zeros_length .kCorruption
      (show (text "a").length + (text "b").length + 7 < 2 ^ 31 by decide)
    rw [Op.exec, hconstruct] at hexec₁
    cases hexec₁
    exact ⟨rfl, rfl⟩
  obtain ⟨st₂, hexec₂, h₂⟩ := h₁.goOn (.make 1 .kNotFound (text "c") []) rfl
    (by show 1 + 0 + 7 < 2 ^ 31; decide) hfirst.1 zeros_length
  have hsecond : st₂.objects 0 = some (some 0) := by
    obtain ⟨full, hconstruct, -⟩ := construct_layout zeros_length .kNotFound
      (show (text "c").length + ([] : Bytes).length + 7 < 2 ^ 31 by decide)
    rw [Op.exec, hconstruct] at hexec₂
    cases hexec₂
    exact hfirst.2
  obtain ⟨st₃, -, h₃⟩ := h₂.goOn (.assign 0 1) ⟨by simp [Op.apply], by simp [Op.apply]⟩ trivial
    (.inr hsecond) zeros_length
  exact ⟨st₃, h₃⟩

/-- **Objects are values**: in every run no statement goes wrong, and what is read of an object is
what is read of its value. -/
theorem objects_are_values (h : Reachable st values) :
    (∀ (op : Op V) (a : A) (newChars : Nat → Bytes), op.Allowed values → op.Fits →
        op.Free st a → (∀ n, (newChars n).length = n) →
        ∃ st', op.exec newChars a st = .ok st' ∧ Represents st' (op.apply values))
      ∧ ∀ v value, values v = some value →
        st.isOk v = .ok value.isOk ∧ st.code v = .ok (stateCode value)
          ∧ st.toText v = .ok value.toText
          ∧ ∀ c, st.isCode c v = .ok (decide (stateCode value = .error c)) := by
  have hrep := h.represents
  refine ⟨fun op a newChars hop hfits ha hnew => hrep.exec hop hfits ha hnew, fun v value hv => ?_⟩
  obtain ⟨hok, hcode, htext⟩ := hrep.reads hv
  exact ⟨hok, hcode, htext, hrep.isCode hv⟩

theorem objects_are_values_assigned :
    ∃ st : Memory (Fin 2) Nat, st.toText 0 = .ok (text "NotFound: c")
      ∧ st.isNotFound 0 = .ok true := by
  obtain ⟨st, h⟩ := exists_assigned
  obtain ⟨-, -, htext, hcode⟩ := (objects_are_values h).2 0
    (.make .kNotFound (text "c") []) rfl
  exact ⟨st, htext, hcode .kNotFound⟩

/-- **No array is lost**: every array that is not deleted is the `state_` of exactly one object, and
when no object is alive there is no array. -/
theorem arrays_owned (h : Reachable st values) :
    (∀ a, st.arrays a ≠ none → ∃! v, st.objects v = some (some a))
      ∧ ((∀ v, values v = none) → ∀ a, st.arrays a = none) := by
  have hrep := h.represents
  refine ⟨fun a ha => ?_, fun hnone a => ?_⟩
  · obtain ⟨v, hv⟩ := hrep.custody.held a ha
    refine ⟨v, Option.join_eq_some_iff.mp hv, fun w hw => ?_⟩
    exact hrep.custody.sole w v a (by rw [Memory.owned, hw]; rfl) hv
  · by_contra ha
    refine hrep.custody.not_live (fun v => ?_) a ha
    rw [Memory.owned, (hrep.stands v).no_object (hnone v)]
    rfl

theorem arrays_owned_assigned :
    ∃ st : Memory (Fin 2) Nat, (∃ state, st.state 0 = .ok state)
      ∧ ∀ a, st.arrays a ≠ none → ∃! v, st.objects v = some (some a) := by
  obtain ⟨st, h⟩ := exists_assigned
  obtain ⟨state, -, hstate⟩ := h.represents.object (v := 0) (by simp [assignedValues, Op.apply])
  exact ⟨st, ⟨state, hstate⟩, (arrays_owned h).1⟩

end Results

end StatusMemory

end SimpleLeveldb
