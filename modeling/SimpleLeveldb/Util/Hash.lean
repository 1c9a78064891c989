import SimpleLeveldb.Util.Coding

set_option autoImplicit false

/-! # Hashing (`util/hash.cc`) -/

namespace SimpleLeveldb.Hash

/-- `m` -/
def factor : U32 := 0xc6a4a793

/-- The `switch`, on the bytes that are left. -/
def rest (h : U32) : Bytes → U32
  | [] => h
  | b₀ :: bs =>
      -- a byte that is not there adds nothing
      let h := h + ((bs.getD 1 0#8).setWidth 32 <<< 16) + ((bs.getD 0 0#8).setWidth 32 <<< 8)
        + b₀.setWidth 32
      let h := h * factor
      h ^^^ (h >>> 24)

/-- The loop, four bytes at a time. -/
def words (h : U32) : Bytes → U32
  | b₀ :: b₁ :: b₂ :: b₃ :: bs =>
      let h := (h + decodeFixed32 [b₀, b₁, b₂, b₃]) * factor
      words (h ^^^ (h >>> 16)) bs
  | bs => rest h bs

/-- `Hash` -/
protected def hash (data : Bytes) (seed : U32) : U32 :=
  words (seed ^^^ (BitVec.ofNat 32 data.length * factor)) data

end SimpleLeveldb.Hash
