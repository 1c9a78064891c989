import SimpleLeveldb.Filename

set_option autoImplicit false

/-! # The options of a database (`options.h`, `db_impl.cc`)

`sanitize_options` clips the numbers among the options to ranges whose ends are `int`s. A number of
type `size_t` is narrowed to an `int` before it is compared with the ends, so that a number from
2^31 on is clipped as another one (`clipToRange_eq_iff`).
-/

namespace SimpleLeveldb

/-- A pointer that is not null. -/
abbrev Address := Nat

/-- `options`, without `env`: the environment is passed beside it. A null pointer is `none`. -/
structure FullOptions where
  comparator : Address
  createIfMissing : Bool := false
  errorIfExists : Bool := false
  paranoidChecks : Bool := false
  infoLog : Option Address := none
  blockCache : Option Address := none
  blockSize : U64 := 4 * 1024
  writeBufferSize : U64 := 4 * 1024 * 1024
  maxOpenFiles : U32 := 1000
  maxFileSize : U64 := 2 * 1024 * 1024
  reuseLogs : Bool := false
  filterPolicy : Option Address := none

/-- `env::new_logger` -/
def Env.newLogger (fname : Bytes) (env : Env) : Status × Env :=
  env.act fun env => (.ok, { env with files := env.files.insert fname { data := [] } })

def kNumNonTableCacheFiles : U32 := 10

/-- `clip_to_range`, with `*ptr` before and after: `static_cast< int >` narrows it for the
comparisons, and an `int` that is assigned to it is extended. -/
def clipToRange {w : Nat} (value : BitVec w) (minvalue maxvalue : U32) : BitVec w :=
  let value := if (value.setWidth 32).toInt > maxvalue.toInt then maxvalue.signExtend w else value
  if (value.setWidth 32).toInt < minvalue.toInt then minvalue.signExtend w else value

/-- The directory and the logger of a database that was given none. -/
def makeInfoLog (dbname : Bytes) (logger : Address) (env : Env) : Option Address × Env :=
  let (_, env) := env.createDir dbname
  let (_, env) := env.renameFile (infoLogFileName dbname) (oldInfoLogFileName dbname)
  let (s, env) := env.newLogger (infoLogFileName dbname)
  (if s.isOk then some logger else none, env)

/-- `sanitize_options`: `logger` and `cache` are what `new_logger` and `new_lru_cache` make. -/
def sanitizeOptions (dbname : Bytes) (icmp iPolicy logger cache : Address) (src : FullOptions)
    (env : Env) : FullOptions × Env :=
  let result : FullOptions := { src with
    comparator := icmp
    filterPolicy := if src.filterPolicy.isSome then some iPolicy else none
    maxOpenFiles := clipToRange src.maxOpenFiles (64 + kNumNonTableCacheFiles) 50000
    writeBufferSize := clipToRange src.writeBufferSize (64 <<< 10) (1 <<< 30)
    maxFileSize := clipToRange src.maxFileSize (1 <<< 20) (1 <<< 30)
    blockSize := clipToRange src.blockSize (1 <<< 10) (4 <<< 20) }
  let (infoLog, env) := match result.infoLog with
    | some infoLog => (some infoLog, env)
    | none => makeInfoLog dbname logger env
  ({ result with infoLog := infoLog, blockCache := result.blockCache.or (some cache) }, env)

/-! ## What the options are to be -/

/-- `r` is `v`, clamped to the numbers from `lo` to `hi`. -/
def ClampedTo (lo hi v r : Int) : Prop := (lo ≤ r ∧ r ≤ hi) ∧ r = max lo (min hi v)

/-- The numbers among the options `src` are clamped in `result`. -/
structure Sanitized (src result : FullOptions) : Prop where
  maxOpenFiles : ClampedTo 74 50000 src.maxOpenFiles.toInt result.maxOpenFiles.toInt
  writeBufferSize : ClampedTo (64 * 1024) (1024 * 1024 * 1024) src.writeBufferSize.toNat
    result.writeBufferSize.toNat
  maxFileSize : ClampedTo (1024 * 1024) (1024 * 1024 * 1024) src.maxFileSize.toNat
    result.maxFileSize.toNat
  blockSize : ClampedTo 1024 (4 * 1024 * 1024) src.blockSize.toNat result.blockSize.toNat

/-- The number `v` is an `int`, or its low 32 bits are an `int` above `maxvalue`. -/
def NarrowsRight (v : U64) (maxvalue : Int) : Prop :=
  v.toNat < 2 ^ 31 ∨ maxvalue < (v.setWidth 32).toInt

instance (v : U64) (maxvalue : Int) : Decidable (NarrowsRight v maxvalue) :=
  inferInstanceAs (Decidable (_ ∨ _))

/-! ## Clipping -/

/-- The `int` that the low 32 bits of a number are. -/
theorem toInt_setWidth_cases (v : U64) :
    (v.toNat < 2 ^ 31 → (v.setWidth 32).toInt = v.toNat)
      ∧ (0 < (v.setWidth 32).toInt → (v.setWidth 32).toInt ≤ v.toNat) := by
  have hlow : (v.setWidth 32).toNat = v.toNat % 2 ^ 32 := BitVec.toNat_setWidth 32 v
  have hint := BitVec.toInt_eq_toNat_cond (v.setWidth 32)
  rw [hlow] at hint
  constructor
  · intro hv
    rw [hint]
    split_ifs <;> omega
  · intro hpos
    rw [hint] at hpos ⊢
    split_ifs at hpos ⊢ <;> omega

/-- An end of a range, as a `size_t` and back. -/
theorem signExtend_of_nonneg {x : U32} (h : 0 ≤ x.toInt) :
    ((x.signExtend 64).toNat : Int) = x.toInt ∧ (x.signExtend 64).setWidth 32 = x := by
  have hmsb : x.msb = false := by
    rw [BitVec.msb_eq_toInt]
    exact decide_eq_false (not_lt.mpr h)
  rw [BitVec.signExtend_eq_setWidth_of_msb_false hmsb]
  constructor
  · have := x.isLt
    rw [BitVec.toInt_eq_toNat_of_msb hmsb, BitVec.toNat_setWidth, Nat.mod_eq_of_lt (by omega)]
  · rw [BitVec.setWidth_setWidth_of_le x (by decide), BitVec.setWidth_eq]

/-- **A `size_t` is clamped** exactly when it narrows to the right `int`. -/
theorem clipToRange_eq_iff (v : U64) (lo hi : U32) (hlo : 0 ≤ lo.toInt) (hlt : lo.toInt < hi.toInt) :
    ClampedTo lo.toInt hi.toInt v.toNat (clipToRange v lo hi).toNat ↔ NarrowsRight v hi.toInt := by
  obtain ⟨hint, hpos⟩ := toInt_setWidth_cases v
  obtain ⟨hlo', -⟩ := signExtend_of_nonneg hlo
  obtain ⟨hhi', hback⟩ := signExtend_of_nonneg (hlo.trans hlt.le)
  have hmax : hi.toInt < 2 ^ 31 := by
    have := BitVec.toInt_lt (x := hi)
    omega
  rw [ClampedTo, NarrowsRight, clipToRange]
  by_cases habove : (v.setWidth 32).toInt > hi.toInt
  · -- clipped to the upper end
    rw [if_pos habove, hback, if_neg (by omega), hhi']
    constructor
    · intro _
      exact .inr habove
    · intro _
      omega
  · rw [if_neg habove]
    by_cases hbelow : (v.setWidth 32).toInt < lo.toInt
    · -- clipped to the lower end
      rw [if_pos hbelow, hlo']
      constructor <;> intro h <;> omega
    · rw [if_neg hbelow]
      constructor <;> intro h <;> omega

/-- An `int` is clamped. -/
theorem clipToRange_int (v : U32) (lo hi : U32) (hle : lo.toInt ≤ hi.toInt) :
    ClampedTo lo.toInt hi.toInt v.toInt (clipToRange v lo hi).toInt := by
  rw [ClampedTo, clipToRange]
  simp only [BitVec.setWidth_eq, BitVec.signExtend_eq]
  split_ifs <;> omega

/-- **The options are clamped** exactly when each of the three `size_t`s narrows to the right `int`. -/
theorem sanitizeOptions_clamps_iff (dbname : Bytes) (icmp iPolicy logger cache : Address)
    (src : FullOptions) (env : Env) :
    Sanitized src (sanitizeOptions dbname icmp iPolicy logger cache src env).1
      ↔ NarrowsRight src.writeBufferSize (2 ^ 30) ∧ NarrowsRight src.maxFileSize (2 ^ 30)
        ∧ NarrowsRight src.blockSize (2 ^ 22) := by
  have hfiles := clipToRange_int src.maxOpenFiles (64 + kNumNonTableCacheFiles) 50000 (by decide)
  have hbuffer := clipToRange_eq_iff src.writeBufferSize (64 <<< 10) (1 <<< 30) (by decide) (by decide)
  have hsize := clipToRange_eq_iff src.maxFileSize (1 <<< 20) (1 <<< 30) (by decide) (by decide)
  have hblock := clipToRange_eq_iff src.blockSize (1 <<< 10) (4 <<< 20) (by decide) (by decide)
  constructor
  · rintro ⟨-, h₁, h₂, h₃⟩
    exact ⟨hbuffer.mp h₁, hsize.mp h₂, hblock.mp h₃⟩
  · rintro ⟨h₁, h₂, h₃⟩
    exact ⟨hfiles, hbuffer.mpr h₁, hsize.mpr h₂, hblock.mpr h₃⟩

/-- A write buffer of 4 GiB becomes one of 64 KiB. -/
theorem not_sanitized_four_gib : ¬ ∀ (dbname : Bytes) (icmp iPolicy logger cache : Address)
    (src : FullOptions) (env : Env),
    Sanitized src (sanitizeOptions dbname icmp iPolicy logger cache src env).1 := by
  intro hall
  have hclamped := hall [] 0 0 0 0 { comparator := 0, writeBufferSize := 2 ^ 32 } ⟨∅, [], [], 0⟩
  exact absurd hclamped.writeBufferSize.2 (by decide)

end SimpleLeveldb
