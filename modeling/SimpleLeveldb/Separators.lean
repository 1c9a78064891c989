import SimpleLeveldb.KeyOrder

set_option autoImplicit false

/-! # Separators of internal keys (`db_format.cc`)

`find_shortest_separator` and `find_short_successor` shorten an index key: the user's comparator
shortens the user key, and the greatest sequence number is put behind it. The shortened key stays in
range because its user key is really greater than the one before.
-/

namespace SimpleLeveldb

/-! ## The functions -/

def kMaxSequenceNumber : U64 := (1 <<< 56) - 1

def kValueTypeForSeek : ValueType := .kTypeValue

/-- `pack_sequence_and_type` -/
def packSequenceAndType (seq : U64) (t : ValueType) : Except Fault U64 := do
  require (seq ≤ kMaxSequenceNumber)
  require (t.byte.toInt ≤ kValueTypeForSeek.byte.toInt)
  return (seq <<< 8) ||| t.byte.signExtend 64

/-- `comparator`, with the functions that change a key in place: they give the new key. -/
structure IndexComparator extends Comparator where
  findShortestSeparator : (start limit : Bytes) → Bytes
  findShortSuccessor : (key : Bytes) → Bytes

namespace IndexComparator

/-- The comparator of the internal keys. -/
def icmp (user : IndexComparator) : InternalKeyComparator := ⟨user.toComparator⟩

/-- `put_fixed64( &tmp, pack_sequence_and_type( kMaxSequenceNumber, kValueTypeForSeek ) )` -/
def putSeekTrailer (tmp : Bytes) : Except Fault Bytes := do
  return tmp ++ encodeFixed64 (← packSequenceAndType kMaxSequenceNumber kValueTypeForSeek)

/-- `internal_key_comparator::find_shortest_separator`: what it leaves in `*start`. -/
def internalShortestSeparator (user : IndexComparator) (start limit : Bytes) :
    Except Fault Bytes := do
  let userStart ← extractUserKey start
  let userLimit ← extractUserKey limit
  let tmp := user.findShortestSeparator userStart userLimit
  if tmp.length < userStart.length ∧ user.compare userStart tmp < 0 then
    let tmp ← putSeekTrailer tmp
    require ((← user.icmp.compare start tmp) < 0)
    require ((← user.icmp.compare tmp limit) < 0)
    return tmp
  else return start

/-- `internal_key_comparator::find_short_successor`: what it leaves in `*key`. -/
def internalShortSuccessor (user : IndexComparator) (key : Bytes) : Except Fault Bytes := do
  let userKey ← extractUserKey key
  let tmp := user.findShortSuccessor userKey
  if tmp.length < userKey.length ∧ user.compare userKey tmp < 0 then
    let tmp ← putSeekTrailer tmp
    require ((← user.icmp.compare key tmp) < 0)
    return tmp
  else return key

/-- What a user's comparator promises of its functions. -/
structure Lawful (user : IndexComparator) : Prop where
  total : ThreeWay.IsTotal user.compare
  unchanged : ∀ start limit, ¬ user.compare start limit < 0 →
    user.findShortestSeparator start limit = start
  separator_ge : ∀ start limit, user.compare start limit < 0 →
    user.compare start (user.findShortestSeparator start limit) ≤ 0
  separator_lt : ∀ start limit, user.compare start limit < 0 →
    user.compare (user.findShortestSeparator start limit) limit < 0
  successor_ge : ∀ key, user.compare key (user.findShortSuccessor key) ≤ 0

end IndexComparator

/-! ## Keys that are made -/

/-- A user key with a trailer. -/
def FullKey.make (userKey : Bytes) (trailer : U64) : FullKey :=
  ⟨userKey ++ encodeFixed64 trailer, by simp [encodeFixed64]⟩

@[simp] theorem FullKey.userKey_make (userKey : Bytes) (trailer : U64) :
    (make userKey trailer).userKey = userKey := by
  simp [FullKey.userKey, make, encodeFixed64]

@[simp] theorem FullKey.length_make (userKey : Bytes) (trailer : U64) :
    (make userKey trailer).val.length = userKey.length + 8 := by
  simp [make, encodeFixed64]

theorem FullKey.length_userKey (key : FullKey) : key.userKey.length + 8 = key.val.length := by
  have := key.property
  rw [FullKey.userKey, List.length_take]
  omega

/-- A smaller user key comes first, whatever the trailers are. -/
theorem InternalKeyComparator.order_of_user_lt {icmp : InternalKeyComparator} {a b : FullKey}
    (h : icmp.userComparator.compare a.userKey b.userKey < 0) : icmp.order a b < 0 := by
  rw [order, ThreeWay.lex, if_neg h.ne]
  exact h

namespace IndexComparator

variable {user : IndexComparator}

/-- The trailer is packed without a fault. -/
theorem exists_putSeekTrailer (tmp : Bytes) :
    ∃ trailer, putSeekTrailer tmp = .ok (FullKey.make tmp trailer).val :=
  ⟨_, rfl⟩

/-! ## The range is kept -/

/-- A key that may stand for `start` in an index, in front of `limit`. -/
structure Separates (user : IndexComparator) (start limit s : Bytes) : Prop where
  full : 8 ≤ s.length
  short : s.length ≤ start.length
  ge : ∃ r, user.icmp.compare start s = .ok r ∧ r ≤ 0
  lt : ∃ r, user.icmp.compare s limit = .ok r ∧ r < 0

/-- A key that may stand for `key` at the end of an index. -/
structure Succeeds (user : IndexComparator) (key k : Bytes) : Prop where
  short : k.length ≤ key.length
  ge : ∃ r, user.icmp.compare key k = .ok r ∧ r ≤ 0

/-- Both functions return, and the keys they leave are in range. -/
structure KeepsRange (user : IndexComparator) : Prop where
  separator : ∀ (start limit : FullKey) (r : Int), user.icmp.compare start.val limit.val = .ok r →
    r < 0 → ∃ s, user.internalShortestSeparator start.val limit.val = .ok s
      ∧ user.Separates start.val limit.val s
  successor : ∀ key : FullKey, ∃ k, user.internalShortSuccessor key.val = .ok k
    ∧ user.Succeeds key.val k

/-- A key is behind itself. -/
theorem Lawful.compare_self (h : user.Lawful) (key : FullKey) :
    ∃ r, user.icmp.compare key.val key.val = .ok r ∧ r ≤ 0 :=
  ⟨_, user.icmp.compare_eq key key, ((InternalKeyComparator.isTotal_order h.total).refl key).le⟩

/-- The assertion about two keys whose user keys are in order. -/
theorem compare_of_user_lt {a b : FullKey} (h : user.compare a.userKey b.userKey < 0) :
    ∃ r, user.icmp.compare a.val b.val = .ok r ∧ r < 0 :=
  ⟨_, user.icmp.compare_eq a b, InternalKeyComparator.order_of_user_lt h⟩

/-- A user key that gets shorter has been changed, so the keys have different user keys. -/
theorem Lawful.separator_lt_of_shorter (h : user.Lawful) {start limit : Bytes}
    (hshort : (user.findShortestSeparator start limit).length < start.length) :
    user.compare (user.findShortestSeparator start limit) limit < 0 := by
  apply h.separator_lt
  by_contra hnot
  rw [h.unchanged start limit hnot] at hshort
  exact lt_irrefl _ hshort

theorem Lawful.separator (h : user.Lawful) {start limit : FullKey}
    (hlt : user.icmp.order start limit < 0) :
    ∃ s, user.internalShortestSeparator start.val limit.val = .ok s
      ∧ user.Separates start.val limit.val s := by
  rw [internalShortestSeparator, start.extractUserKey, limit.extractUserKey]
  simp only [ok_bind]
  split_ifs with hshort
  · obtain ⟨hlength, hstart⟩ := hshort
    set tmp := user.findShortestSeparator start.userKey limit.userKey with htmp
    obtain ⟨trailer, hput⟩ := exists_putSeekTrailer tmp
    obtain ⟨r, hr, hr0⟩ := @compare_of_user_lt user start (.make tmp trailer) (by simpa using hstart)
    obtain ⟨s, hs, hs0⟩ := @compare_of_user_lt user (.make tmp trailer) limit
      (by simpa using h.separator_lt_of_shorter hlength)
    refine ⟨(FullKey.make tmp trailer).val, ?_, ?_⟩
    · simp only [hput, ok_bind, hr, hs, require_of hr0, require_of hs0]
      rfl
    · refine ⟨(FullKey.make tmp trailer).property, ?_, ⟨r, hr, hr0.le⟩, s, hs, hs0⟩
      rw [FullKey.length_make, ← start.length_userKey]
      omega
  · exact ⟨start.val, rfl, start.property, le_rfl, h.compare_self start, _,
      user.icmp.compare_eq start limit, hlt⟩

theorem Lawful.successor (h : user.Lawful) (key : FullKey) :
    ∃ k, user.internalShortSuccessor key.val = .ok k ∧ user.Succeeds key.val k := by
  rw [internalShortSuccessor, key.extractUserKey]
  simp only [ok_bind]
  split_ifs with hshort
  · obtain ⟨hlength, hkey⟩ := hshort
    set tmp := user.findShortSuccessor key.userKey with htmp
    obtain ⟨trailer, hput⟩ := exists_putSeekTrailer tmp
    obtain ⟨r, hr, hr0⟩ := @compare_of_user_lt user key (.make tmp trailer) (by simpa using hkey)
    refine ⟨(FullKey.make tmp trailer).val, ?_, ?_, r, hr, hr0.le⟩
    · simp only [hput, ok_bind, hr, require_of hr0]
      rfl
    · rw [FullKey.length_make, ← key.length_userKey]
      omega
  · exact ⟨key.val, rfl, le_rfl, h.compare_self key⟩

/-- **Index keys stay in range**, and no assertion fails, for every user comparator that keeps its
promises. -/
theorem Lawful.keepsRange (h : user.Lawful) : user.KeepsRange where
  separator start limit r hr hlt := by
    rw [user.icmp.compare_eq] at hr
    cases hr
    exact h.separator hlt
  successor := h.successor

/-! ## Bytes in lexicographic order -/

/-- The lexicographic order of the bytes. -/
def bytewise (a b : Bytes) : Int :=
  match compare a b with
  | .lt => -1
  | .eq => 0
  | .gt => 1

theorem ordering_bytewise : ThreeWay.ordering bytewise = compare := by
  funext a b
  unfold ThreeWay.ordering bytewise
  cases compare a b <;> rfl

/-- The first byte, increased, is tried in place of the key. -/
def oneByte (key : Bytes) : Bytes := [key.headD 0 + 1]

def oneByteComparator : IndexComparator where
  name := text "one byte"
  compare := bytewise
  findShortestSeparator start limit :=
    if bytewise start (oneByte start) < 0 ∧ bytewise (oneByte start) limit < 0
      ∧ bytewise start limit < 0 then oneByte start else start
  findShortSuccessor key := if bytewise key (oneByte key) < 0 then oneByte key else key

theorem isTotal_bytewise : ThreeWay.IsTotal bytewise := by
  rw [ThreeWay.isTotal_iff, ordering_bytewise]
  infer_instance

theorem oneByteComparator_lawful : oneByteComparator.Lawful where
  total := isTotal_bytewise
  unchanged start limit h := if_neg fun hall => h hall.2.2
  separator_ge start limit h := by
    show bytewise start (ite _ _ _) ≤ 0
    split_ifs with hall
    · exact hall.1.le
    · exact (isTotal_bytewise.refl start).le
  separator_lt start limit h := by
    show bytewise (ite _ _ _) limit < 0
    split_ifs with hall
    · exact hall.2.1
    · exact h
  successor_ge key := by
    show bytewise key (ite _ _ _) ≤ 0
    split_ifs with hkey
    · exact hkey.le
    · exact (isTotal_bytewise.refl key).le

theorem oneByteComparator_keepsRange : oneByteComparator.KeepsRange :=
  oneByteComparator_lawful.keepsRange

/-- Between `abc` and `xyz`, the user key `b`. -/
example : ((oneByteComparator.internalShortestSeparator (text "abc" ++ zeros 8)
    (text "xyz" ++ zeros 8)).toOption.map List.length) = some 9 := by
  decide +kernel

end IndexComparator

end SimpleLeveldb
