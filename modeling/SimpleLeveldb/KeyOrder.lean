import SimpleLeveldb.Lib.ThreeWay
import SimpleLeveldb.Version.VersionSet

set_option autoImplicit false

/-! # The order of internal keys

Internal keys are compared by their user keys, and among equal user keys by their last eight bytes, the
greater number first. When the user's comparator is total, so is this order, and `by_smallest_key` is a
strict weak order on files.
-/

namespace SimpleLeveldb

/-- The last eight bytes determine the number in them. -/
theorem decodeFixed64_injective {x y : Bytes} (hx : x.length = 8) (hy : y.length = 8)
    (h : decodeFixed64 x = decodeFixed64 y) : x = y := by
  match x, hx, y, hy with
  | [x0, x1, x2, x3, x4, x5, x6, x7], _, [y0, y1, y2, y3, y4, y5, y6, y7], _ =>
      rw [← encodeFixed64_decodeFixed64 x0 x1 x2 x3 x4 x5 x6 x7 [], h, encodeFixed64_decodeFixed64]

/-! ## Keys with a user key -/

/-- A byte string that has a user key and a trailer. -/
abbrev FullKey := { key : Bytes // 8 ≤ key.length }

namespace FullKey

/-- What stands before the last eight bytes. -/
def userKey (key : FullKey) : Bytes := key.val.take (key.val.length - 8)

/-- The last eight bytes. -/
def trailer (key : FullKey) : Bytes := key.val.drop (key.val.length - 8)

theorem extractUserKey (key : FullKey) : extractUserKey key.val = .ok key.userKey :=
  extractUserKey_of_le key.property

theorem trailer_length (key : FullKey) : key.trailer.length = 8 := by
  have := key.property
  rw [trailer, List.length_drop]
  omega

theorem keyTrailer_eq_iff (a b : FullKey) :
    keyTrailer a.val = keyTrailer b.val ↔ a.trailer = b.trailer := by
  constructor
  · exact decodeFixed64_injective a.trailer_length b.trailer_length
  · intro h
    exact congrArg decodeFixed64 h

theorem ne_nil (key : FullKey) : key.val ≠ [] := by
  intro h
  have := key.property
  rw [h] at this
  exact absurd this (by decide)

end FullKey

/-! ## The comparison -/

namespace InternalKeyComparator

open ThreeWay (IsTotal ascending lex)

/-- The order of two full keys: ascending user keys, and then descending trailers. -/
def order (icmp : InternalKeyComparator) : FullKey → FullKey → Int :=
  lex (fun a b => icmp.userComparator.compare a.userKey b.userKey)
    fun a b => ascending (keyTrailer b.val).toNat (keyTrailer a.val).toNat

/-- **`compare`** on full keys. -/
theorem compare_eq (icmp : InternalKeyComparator) (a b : FullKey) :
    icmp.compare a.val b.val = .ok (icmp.order a b) := by
  rw [compare, a.extractUserKey, b.extractUserKey]
  simp only [ok_bind, order, lex, ascending, GT.gt, BitVec.lt_def]
  split_ifs with h <;> first | rfl | rw [h]; rfl

theorem compareKeys_eq (icmp : InternalKeyComparator) (a b : FullKey) :
    icmp.compareKeys a.val b.val = .ok (icmp.order a b) := by
  rw [compareKeys, InternalKey.encode_of_ne_nil a.ne_nil, InternalKey.encode_of_ne_nil b.ne_nil]
  exact icmp.compare_eq a b

theorem isTotal_order {icmp : InternalKeyComparator} (h : IsTotal icmp.userComparator.compare) :
    IsTotal icmp.order :=
  (h.comap FullKey.userKey).lex
    (ThreeWay.isTotal_ascending.comap fun a : FullKey => (keyTrailer a.val).toNat).swap

end InternalKeyComparator

/-! ## The order of files -/

namespace VersionSet

open ThreeWay (IsTotal ascending lex)

/-- A file whose smallest key is a full key. -/
abbrev KeyedFile := { f : FileMetaData // 8 ≤ f.smallest.length }

/-- The smallest key of a file. -/
def KeyedFile.key (f : KeyedFile) : FullKey := ⟨f.val.smallest, f.property⟩

/-- The order of files: by their smallest keys, and then by their numbers. -/
def fileOrder (icmp : InternalKeyComparator) : KeyedFile → KeyedFile → Int :=
  lex (fun f g => icmp.order f.key g.key) fun f g => ascending f.val.number.toNat g.val.number.toNat

/-- **`by_smallest_key`** on files with full keys. -/
theorem bySmallestKey_eq (icmp : InternalKeyComparator) (f g : KeyedFile) :
    bySmallestKey icmp f.val g.val = .ok (decide (fileOrder icmp f g < 0)) := by
  have hkeys : icmp.compareKeys f.val.smallest g.val.smallest = .ok (icmp.order f.key g.key) :=
    icmp.compareKeys_eq f.key g.key
  rw [bySmallestKey, hkeys]
  simp only [ok_bind, fileOrder, lex, ne_eq, ite_not]
  split_ifs with h
  · simp only [ThreeWay.ascending_neg_iff, BitVec.lt_def]
    rfl
  · rfl

theorem isTotal_fileOrder {icmp : InternalKeyComparator}
    (h : IsTotal icmp.userComparator.compare) : IsTotal (fileOrder icmp) :=
  ((InternalKeyComparator.isTotal_order h).comap KeyedFile.key).lex
    (ThreeWay.isTotal_ascending.comap fun f : KeyedFile => f.val.number.toNat)

end VersionSet

/-! ## The order is total -/

/-- What the order of internal keys, and of files by their smallest keys, must be. -/
structure InternalKeyComparator.Total (icmp : InternalKeyComparator) : Prop where
  returns : ∀ a b : FullKey, ∃ r, icmp.compare a.val b.val = .ok r
  antisymm : ∀ (a b : FullKey) (r s : Int), icmp.compare a.val b.val = .ok r →
    icmp.compare b.val a.val = .ok s → r.sign = -s.sign
  trans : ∀ (a b c : FullKey) (r s t : Int), icmp.compare a.val b.val = .ok r →
    icmp.compare b.val c.val = .ok s → icmp.compare a.val c.val = .ok t → r ≤ 0 → s ≤ 0 → t ≤ 0
  equal_iff : ∀ a b : FullKey, icmp.compare a.val b.val = .ok 0
    ↔ icmp.userComparator.compare a.userKey b.userKey = 0 ∧ a.trailer = b.trailer
  descending : ∀ (a b : FullKey) (r : Int), icmp.userComparator.compare a.userKey b.userKey = 0 →
    icmp.compare a.val b.val = .ok r → (r < 0 ↔ keyTrailer b.val < keyTrailer a.val)
  files : IsStrictWeakOrder VersionSet.KeyedFile
    fun f g => VersionSet.bySmallestKey icmp f.val g.val = .ok true
  numbers : ∀ f g : VersionSet.KeyedFile, VersionSet.bySmallestKey icmp f.val g.val = .ok false →
    VersionSet.bySmallestKey icmp g.val f.val = .ok false → f.val.number = g.val.number

/-- **The order of internal keys is total** for every total order of user keys. -/
theorem InternalKeyComparator.compare_total {icmp : InternalKeyComparator}
    (h : ThreeWay.IsTotal icmp.userComparator.compare) : icmp.Total where
  returns a b := ⟨_, icmp.compare_eq a b⟩
  antisymm a b r s hr hs := by
    rw [icmp.compare_eq] at hr hs
    cases hr
    cases hs
    exact (isTotal_order h).antisymm a b
  trans a b c r s t hr hs ht hab hbc := by
    rw [icmp.compare_eq] at hr hs ht
    cases hr
    cases hs
    cases ht
    exact (isTotal_order h).trans a b c hab hbc
  equal_iff a b := by
    rw [icmp.compare_eq, Except.ok.injEq, order, ThreeWay.lex_eq_zero,
      ThreeWay.ascending_eq_zero_iff, BitVec.toNat_inj, eq_comm (a := keyTrailer b.val),
      FullKey.keyTrailer_eq_iff]
  descending a b r heq hr := by
    rw [icmp.compare_eq] at hr
    cases hr
    rw [order, ThreeWay.lex, if_pos heq, ThreeWay.ascending_neg_iff, BitVec.lt_def]
  files := by
    have hlt : (fun f g : VersionSet.KeyedFile =>
        VersionSet.bySmallestKey icmp f.val g.val = .ok true)
        = fun f g => VersionSet.fileOrder icmp f g < 0 := by
      funext f g
      rw [VersionSet.bySmallestKey_eq, Except.ok.injEq, decide_eq_true_eq]
    rw [hlt]
    exact (VersionSet.isTotal_fileOrder h).strictWeak
  numbers f g hfg hgf := by
    rw [VersionSet.bySmallestKey_eq, Except.ok.injEq, decide_eq_false_iff_not] at hfg hgf
    have hzero := (VersionSet.isTotal_fileOrder h).eq_zero_iff.mpr ⟨hfg, hgf⟩
    have hnumbers := (ThreeWay.lex_eq_zero.mp hzero).2
    exact BitVec.toNat_inj.mp (ThreeWay.ascending_eq_zero_iff.mp hnumbers)

theorem isTotal_length : ThreeWay.IsTotal fun a b : Bytes => (a.length : Int) - b.length := by
  refine ⟨fun a b => ?_, fun a b c hab hbc => ?_⟩
  · rw [← Int.sign_neg, neg_sub]
  · omega

/-- User keys that are ordered by their lengths. -/
theorem InternalKeyComparator.compare_total_length :
    InternalKeyComparator.Total ⟨⟨text "length", fun a b => (a.length : Int) - b.length⟩⟩ :=
  InternalKeyComparator.compare_total isTotal_length

end SimpleLeveldb
