import SimpleLeveldb.Basic
import SimpleLeveldb.Lib.Regions

set_option autoImplicit false

/-! # The arena (`util/arena.h`, `util/arena.cc`)

An address is a number, a null pointer is 0, and a `size_t` is a number below `2 ^ 64`. What
`new char[n]` returns is a parameter `alloc` that may depend on the blocks so far: as every call
of `new` adds a block, any sequence of answers is such a function. The code keeps of a block only
the address; here its size stands beside it.
-/

namespace SimpleLeveldb

/-- A block of `blocks_`, `size` bytes from `base`. -/
structure Block where
  base : Nat
  size : Nat
  deriving DecidableEq, Repr

/-- The addresses of the bytes of a block. -/
def Block.range (b : Block) : Set Nat := Set.Ico b.base (b.base + b.size)

structure Arena where
  allocPtr : Nat
  allocBytesRemaining : Nat
  blocks : List Block
  memoryUsage : Nat
  deriving DecidableEq, Repr

namespace Arena

/-- The constructor. -/
def new : Arena := ⟨0, 0, [], 0⟩

def kBlockSize : Nat := 4096

/-- `align`: a pointer has 8 bytes. -/
def align : Nat := 8

section

variable (alloc : List Block → Nat → Nat)

def allocateNewBlock (blockBytes : Nat) (s : Arena) : Nat × Arena :=
  let result := alloc s.blocks blockBytes
  (result, { s with
    blocks := s.blocks ++ [⟨result, blockBytes⟩]
    memoryUsage := (s.memoryUsage + (blockBytes + 8) % 2 ^ 64) % 2 ^ 64 })

def allocateFallback (bytes : Nat) (s : Arena) : Nat × Arena :=
  if bytes > kBlockSize / 4 then allocateNewBlock alloc bytes s
  else
    -- the bytes that remain in the current block are wasted
    let (ptr, s) := allocateNewBlock alloc kBlockSize s
    (ptr, { s with allocPtr := ptr + bytes, allocBytesRemaining := kBlockSize - bytes })

def allocate (bytes : Nat) (s : Arena) : Except Fault (Nat × Arena) := do
  require (0 < bytes)
  if bytes ≤ s.allocBytesRemaining then
    pure (s.allocPtr, { s with
      allocPtr := s.allocPtr + bytes
      allocBytesRemaining := s.allocBytesRemaining - bytes })
  else pure (allocateFallback alloc bytes s)

/-- `slop`: the bytes from the pointer to the next aligned one. -/
def slop (ptr : Nat) : Nat :=
  let currentMod := ptr &&& (align - 1)
  if currentMod = 0 then 0 else align - currentMod

def allocateAligned (bytes : Nat) (s : Arena) : Except Fault (Nat × Arena) := do
  let needed := (bytes + slop s.allocPtr) % 2 ^ 64
  let (result, s) :=
    if needed ≤ s.allocBytesRemaining then
      (s.allocPtr + slop s.allocPtr, { s with
        allocPtr := s.allocPtr + needed
        allocBytesRemaining := s.allocBytesRemaining - needed })
    else allocateFallback alloc bytes s
  require (result &&& (align - 1) = 0)
  pure (result, s)

/-! ## Runs -/

inductive Call where
  | allocate (bytes : Nat)
  | allocateAligned (bytes : Nat)
  deriving DecidableEq, Repr

def Call.bytes : Call → Nat
  | allocate bytes => bytes
  | allocateAligned bytes => bytes

def Call.isAligned : Call → Bool
  | allocate _ => false
  | allocateAligned _ => true

def call (s : Arena) : Call → Except Fault (Nat × Arena)
  | .allocate bytes => allocate alloc bytes s
  | .allocateAligned bytes => allocateAligned alloc bytes s

/-- Calls one after another, each with what it returned. -/
def run (s : Arena) : List Call → Except Fault (List (Call × Nat) × Arena)
  | [] => pure ([], s)
  | c :: cs => do
      let (result, s) ← call alloc s c
      let (results, s) ← run s cs
      pure ((c, result) :: results, s)

end

/-- What `new[]` promises: a new block does not overlap those there are, and is aligned. -/
structure Fresh (alloc : List Block → Nat → Nat) : Prop where
  fresh : ∀ blocks n, ∀ b ∈ blocks, Disjoint b.range (Block.range ⟨alloc blocks n, n⟩)
  aligned : ∀ blocks n, alloc blocks n % 8 = 0

/-- The bytes that a call has returned. -/
def region (x : Call × Nat) : Set Nat := Set.Ico x.2 (x.2 + x.1.bytes)

/-- The bytes of the current block that are left. -/
def unused (s : Arena) : Set Nat := Set.Ico s.allocPtr (s.allocPtr + s.allocBytesRemaining)

/-- The blocks with what each of them counts: its size and a pointer. -/
def total (s : Arena) : Nat := (s.blocks.map fun b => b.size + 8).sum

/-! ## The invariant -/

/-- After calls with the `results`. -/
structure Inv (results : List (Call × Nat)) (s : Arena) : Prop where
  carved : Regions.Carved (s.blocks.map Block.range) (results.map region) s.unused
  aligned : ∀ x ∈ results, x.1.isAligned = true → x.2 % 8 = 0
  large : ∀ b ∈ s.blocks, 1024 < b.size
  usage : s.memoryUsage = s.total % 2 ^ 64

theorem inv_new : Inv [] new where
  carved := by
    have hunused : new.unused = ∅ := Set.Ico_self 0
    rw [hunused]
    exact Regions.carved_nil
  aligned := by simp
  large := by simp [new]
  usage := rfl

theorem and_align_eq (ptr : Nat) : ptr &&& (align - 1) = ptr % 8 :=
  Nat.and_two_pow_sub_one_eq_mod ptr 3

/-- The address behind the slop is aligned, and at most seven bytes away. -/
theorem slop_spec (ptr : Nat) : slop ptr ≤ 7 ∧ (ptr + slop ptr) % 8 = 0 := by
  simp only [slop, and_align_eq]
  rw [align]
  split_ifs <;> omega

variable {alloc : List Block → Nat → Nat} {results : List (Call × Nat)} {s : Arena} {c : Call}

/-- A result that is put behind the others. -/
theorem aligned_concat {r : Nat} (h : ∀ x ∈ results, x.1.isAligned = true → x.2 % 8 = 0)
    (hr : c.isAligned = true → r % 8 = 0) :
    ∀ x ∈ results ++ [(c, r)], x.1.isAligned = true → x.2 % 8 = 0 := by
  intro x hx
  rcases List.mem_append.mp hx with hx | hx
  · exact h x hx
  · rw [List.mem_singleton.mp hx]
    exact hr

/-- **The current block**: a call skips some bytes at the front of what is left and takes its own
behind them. -/
theorem Inv.take (h : Inv results s) (hbytes : 0 < c.bytes) {skip : Nat}
    (hfits : c.bytes + skip ≤ s.allocBytesRemaining)
    (halign : c.isAligned = true → (s.allocPtr + skip) % 8 = 0) :
    Inv (results ++ [(c, s.allocPtr + skip)]) { s with
      allocPtr := s.allocPtr + (c.bytes + skip)
      allocBytesRemaining := s.allocBytesRemaining - (c.bytes + skip) } where
  carved := by
    rw [List.map_append, List.map_singleton]
    refine h.carved.take ?_ ?_ ?_ ?_
    · exact Set.nonempty_Ico.mpr (Nat.lt_add_of_pos_right hbytes)
    · exact Set.Ico_subset_Ico (by simp) (by simp only; omega)
    · exact Set.Ico_subset_Ico (by simp) (by simp only; omega)
    -- the region ends where the rest begins
    · rw [Set.disjoint_left]
      intro x hx hx'
      simp only [region, unused, Set.mem_Ico] at hx hx'
      omega
  aligned := aligned_concat h.aligned halign
  large := h.large
  usage := h.usage

/-- A new block has its place behind the others, and is counted. -/
theorem newBlock_spec (alloc : List Block → Nat → Nat) (h : Inv results s) {n : Nat}
    (hn : 1024 < n) :
    (∀ b ∈ (allocateNewBlock alloc n s).2.blocks, 1024 < b.size)
      ∧ (allocateNewBlock alloc n s).2.memoryUsage
        = (allocateNewBlock alloc n s).2.total % 2 ^ 64 := by
  constructor
  · intro b hb
    rcases List.mem_append.mp hb with hb | hb
    · exact h.large b hb
    · rw [List.mem_singleton.mp hb]
      exact hn
  · have htotal : (allocateNewBlock alloc n s).2.total = s.total + (n + 8) := by
      simp [total, allocateNewBlock]
    rw [htotal]
    simp only [allocateNewBlock, h.usage]
    omega

/-- A fresh block meets no range of a block. -/
theorem Fresh.ranges (hfresh : Fresh alloc) (n : Nat) :
    ∀ u ∈ s.blocks.map Block.range, Disjoint u (Block.range ⟨alloc s.blocks n, n⟩) := by
  intro u hu
  obtain ⟨b, hb, rfl⟩ := List.mem_map.mp hu
  exact hfresh.fresh s.blocks n b hb

/-- **The fallback**: a large region is a block of its own, a small one is the front of a new
current block. -/
theorem Inv.fallback (hfresh : Fresh alloc) (h : Inv results s) (hbytes : 0 < c.bytes) :
    (allocateFallback alloc c.bytes s).1 % 8 = 0
      ∧ Inv (results ++ [(c, (allocateFallback alloc c.bytes s).1)])
        (allocateFallback alloc c.bytes s).2 := by
  unfold allocateFallback
  by_cases hlarge : c.bytes > kBlockSize / 4
  · rw [if_pos hlarge]
    have hspec := newBlock_spec alloc h hlarge
    refine ⟨hfresh.aligned _ _, ?_, ?_, hspec.1, hspec.2⟩
    · have hown := h.carved.own (hfresh.ranges c.bytes)
      simp only [allocateNewBlock, List.map_append, List.map_singleton]
      exact hown
    · exact aligned_concat h.aligned (fun _ => hfresh.aligned _ _)
  · rw [if_neg hlarge]
    have hspec := newBlock_spec alloc h (by decide : 1024 < kBlockSize)
    have hsmall : c.bytes ≤ 1024 := Nat.le_of_not_lt hlarge
    -- the new block becomes the current one, and the region is taken from its front
    have hrefill : Inv results { (allocateNewBlock alloc kBlockSize s).2 with
        allocPtr := (allocateNewBlock alloc kBlockSize s).1
        allocBytesRemaining := kBlockSize } := by
      refine ⟨?_, h.aligned, hspec.1, hspec.2⟩
      have hcarved := h.carved.refill (hfresh.ranges kBlockSize)
      simp only [allocateNewBlock, List.map_append, List.map_singleton]
      exact hcarved
    have haligned : (alloc s.blocks kBlockSize) % 8 = 0 := hfresh.aligned _ _
    have hfits : c.bytes + 0 ≤ kBlockSize := by rw [kBlockSize]; omega
    exact ⟨haligned, hrefill.take hbytes hfits (fun _ => haligned)⟩

/-- **One call** returns and keeps the invariant. -/
theorem call_spec (hfresh : Fresh alloc) (h : Inv results s) (hbytes : 0 < c.bytes)
    (hsize : c.bytes + 7 < 2 ^ 64) :
    ∃ r s', call alloc s c = .ok (r, s') ∧ Inv (results ++ [(c, r)]) s' := by
  cases c with
  | allocate bytes =>
      have hpos : 0 < bytes := hbytes
      rw [call, allocate, require_of hpos]
      by_cases hfits : bytes ≤ s.allocBytesRemaining
      · have hfits' : (Call.allocate bytes).bytes + 0 ≤ s.allocBytesRemaining := hfits
        exact ⟨_, _, if_pos hfits, h.take hbytes hfits' (by simp [Call.isAligned])⟩
      · exact ⟨_, _, if_neg hfits, (h.fallback (c := .allocate bytes) hfresh hbytes).2⟩
  | allocateAligned bytes =>
      have hslop := slop_spec s.allocPtr
      -- the slop is at most seven bytes, so that the sum does not wrap around
      have hneeded : (bytes + slop s.allocPtr) % 2 ^ 64 = bytes + slop s.allocPtr :=
        Nat.mod_eq_of_lt (by have : bytes + 7 < 2 ^ 64 := hsize; omega)
      rw [call, allocateAligned, hneeded]
      by_cases hfits : bytes + slop s.allocPtr ≤ s.allocBytesRemaining
      · have htake := h.take (c := .allocateAligned bytes) hbytes hfits (fun _ => hslop.2)
        refine ⟨_, _, ?_, htake⟩
        simp only [if_pos hfits]
        rw [require_of (by rw [and_align_eq]; exact hslop.2)]
        rfl
      · have hfall := h.fallback (c := .allocateAligned bytes) hfresh hbytes
        refine ⟨_, _, ?_, hfall.2⟩
        simp only [if_neg hfits]
        rw [require_of (by rw [and_align_eq]; exact hfall.1)]
        rfl

/-- **Runs**, by induction on the calls; the invariant carries the results before them. -/
theorem run_spec (hfresh : Fresh alloc) (h : Inv results s) (calls : List Call)
    (hcalls : ∀ c ∈ calls, 0 < c.bytes ∧ c.bytes + 7 < 2 ^ 64) :
    ∃ more s', run alloc s calls = .ok (more, s') ∧ more.map Prod.fst = calls
      ∧ Inv (results ++ more) s' := by
  induction calls generalizing results s with
  | nil => exact ⟨[], s, rfl, rfl, by rwa [List.append_nil]⟩
  | cons c cs ih =>
      obtain ⟨hc, hcs⟩ := List.forall_mem_cons.mp hcalls
      obtain ⟨r, s₁, hcall, h₁⟩ := call_spec hfresh h hc.1 hc.2
      obtain ⟨more, s₂, hrun, hmap, h₂⟩ := ih h₁ hcs
      refine ⟨(c, r) :: more, s₂, ?_, ?_, ?_⟩
      · rw [run, hcall]
        simp only [Except.bind, bind]
        rw [hrun]
        rfl
      · rw [List.map_cons, hmap]
      · rw [List.append_assoc] at h₂
        exact h₂

/-! ## What the arena promises -/

/-- Every block is large, so that the pointers count for little beside them. -/
theorem sum_usage_le {l : List Block} (h : ∀ b ∈ l, 1024 < b.size) :
    128 * (l.map fun b => b.size + 8).sum ≤ 129 * (l.map Block.size).sum := by
  induction l with
  | nil => exact le_refl 0
  | cons b l ih =>
      have hb := h b List.mem_cons_self
      have hl := ih (fun b' hb' => h b' (List.mem_cons_of_mem b hb'))
      simp only [List.map_cons, List.sum_cons]
      omega

/-- In the lower half of the address space the count does not wrap around. -/
theorem Inv.total_lt (h : Inv results s) (hlow : ∀ b ∈ s.blocks, b.base + b.size ≤ 2 ^ 63) :
    s.total < 2 ^ 64 := by
  have hdis : ((s.blocks.map fun b => (b.base, b.size)).map
      fun r => Set.Ico r.1 (r.1 + r.2)).Pairwise Disjoint := by
    rw [List.map_map]
    exact h.carved.apart
  have hsizes : ((s.blocks.map fun b => (b.base, b.size)).map Prod.snd).sum ≤ 2 ^ 63 := by
    apply Regions.sum_size_le hdis
    intro r hr
    obtain ⟨b, hb, rfl⟩ := List.mem_map.mp hr
    exact hlow b hb
  rw [List.map_map] at hsizes
  have hsum := sum_usage_le h.large
  have hsizes' : (s.blocks.map Block.size).sum ≤ 2 ^ 63 := hsizes
  rw [total]
  omega

/-- What holds after calls with the `results`. `memory_usage()` is a `size_t`, so that the sum over
the blocks is taken modulo `2 ^ 64`; it is the sum itself as long as the blocks lie in the lower
half of the address space. -/
structure Sound (results : List (Call × Nat)) (s : Arena) : Prop where
  disjoint : (results.map region).Pairwise Disjoint
  inside : ∀ x ∈ results, ∃ b ∈ s.blocks, region x ⊆ b.range
  aligned : ∀ x ∈ results, x.1.isAligned = true → x.2 % 8 = 0
  unused : 0 < s.allocBytesRemaining →
    (∀ x ∈ results, Disjoint (region x) s.unused) ∧ ∃ b ∈ s.blocks, s.unused ⊆ b.range
  usage : s.memoryUsage = (s.blocks.map fun b => b.size + 8).sum % 2 ^ 64
  usage_exact : (∀ b ∈ s.blocks, b.base + b.size ≤ 2 ^ 63) →
    s.memoryUsage = (s.blocks.map fun b => b.size + 8).sum

theorem Inv.sound (h : Inv results s) : Sound results s where
  disjoint := h.carved.disjoint
  inside := by
    intro x hx
    obtain ⟨u, hu, hsub⟩ := h.carved.inside (region x) (List.mem_map_of_mem hx)
    obtain ⟨b, hb, rfl⟩ := List.mem_map.mp hu
    exact ⟨b, hb, hsub⟩
  aligned := h.aligned
  unused := by
    intro hrem
    constructor
    · intro x hx
      exact h.carved.unused (region x) (List.mem_map_of_mem hx)
    · rcases h.carved.room with hempty | ⟨u, hu, hsub⟩
      · have hne : s.unused.Nonempty := Set.nonempty_Ico.mpr (Nat.lt_add_of_pos_right hrem)
        exact absurd hempty hne.ne_empty
      · obtain ⟨b, hb, rfl⟩ := List.mem_map.mp hu
        exact ⟨b, hb, hsub⟩
  usage := h.usage
  usage_exact := by
    intro hlow
    rw [h.usage, Nat.mod_eq_of_lt (h.total_lt hlow), total]

/-- **Allocations are disjoint**: every sequence of calls returns (no assertion fails), and its
results do not overlap each other or what is left of the current block. -/
theorem allocations_disjoint (hfresh : Fresh alloc) (calls : List Call)
    (hcalls : ∀ c ∈ calls, 0 < c.bytes ∧ c.bytes + 7 < 2 ^ 64) :
    ∃ results s, run alloc new calls = .ok (results, s) ∧ results.map Prod.fst = calls
      ∧ Sound results s := by
  obtain ⟨results, s, hrun, hmap, hinv⟩ := run_spec hfresh inv_new calls hcalls
  exact ⟨results, s, hrun, hmap, hinv.sound⟩

/-- Blocks put one behind the other, at multiples of 8. -/
def bump (blocks : List Block) (_ : Nat) : Nat :=
  8 * (blocks.foldr (fun b n => max n (b.base + b.size)) 0 / 8 + 1)

theorem lt_bump {blocks : List Block} {b : Block} (hb : b ∈ blocks) (n : Nat) :
    b.base + b.size < bump blocks n := by
  have hmax : b.base + b.size ≤ blocks.foldr (fun b n => max n (b.base + b.size)) 0 := by
    induction blocks with
    | nil => cases hb
    | cons b' blocks ih =>
        rw [List.foldr_cons]
        rcases List.mem_cons.mp hb with rfl | hb
        · exact le_max_right _ _
        · exact le_trans (ih hb) (le_max_left _ _)
  rw [bump]
  omega

theorem fresh_bump : Fresh bump where
  fresh := by
    intro blocks n b hb
    rw [Set.disjoint_left]
    intro x hx hx'
    have hlt := lt_bump hb n
    simp only [Block.range, Set.mem_Ico] at hx hx'
    omega
  aligned := fun blocks n => Nat.mul_mod_right 8 _

/-- A run through every branch: a first block, its aligned rest, a block of its own, and a second
block where the rest is too short. -/
theorem allocations_disjoint_bump :
    Fresh bump ∧ (∀ c ∈ [Call.allocate 3, .allocateAligned 4000, .allocateAligned 1025,
        .allocate 100], 0 < c.bytes ∧ c.bytes + 7 < 2 ^ 64)
      ∧ ∃ results s, run bump new [.allocate 3, .allocateAligned 4000, .allocateAligned 1025,
          .allocate 100] = .ok (results, s)
        ∧ results.map Prod.fst = [.allocate 3, .allocateAligned 4000, .allocateAligned 1025,
          .allocate 100]
        ∧ Sound results s :=
  ⟨fresh_bump, by decide, allocations_disjoint fresh_bump _ (by decide)⟩

example : (run bump new [.allocate 3, .allocateAligned 4000, .allocateAligned 1025,
    .allocate 100]).map (fun x => x.1.map Prod.snd) = .ok [8, 16, 4112, 5144] := by
  rfl

end Arena

end SimpleLeveldb
