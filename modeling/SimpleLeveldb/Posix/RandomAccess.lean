import SimpleLeveldb.Posix.Errno

set_option autoImplicit false

/-! # Random access (`__detail/posix_env.cc`)

A file that is opened for random access is mapped into memory as long as `mmap_limiter_` allows it,
and otherwise read with `pread`. The two readers agree inside the file. A range that reaches past the
end is cut short by `pread`, and refused by the reader of a mapping. This one adds `offset + n` with 64
bits, and takes a range past `2 ^ 64` for one near the start (`PosixMmapReadableFile.read_wrapped`).
-/

namespace SimpleLeveldb

/-- What the system calls on the file return. `pread` and `mmap` work on the file that is open. -/
structure RandomKernel where
  /-- `open`, when the file is opened and when it is opened again -/
  openFile : Except Errno Unit
  reopen : Except Errno Unit
  /-- `get_file_size`, which the repository leaves without a body -/
  fileSize : Status × U64
  /-- `mmap`: the bytes of a mapping of this length -/
  mmap : Nat → Except Errno Bytes
  /-- `pread` at an `off_t` -/
  pread : Int → Nat → Except Errno Bytes

/-- The slice that a reader returns: bytes in `scratch`, or a part of the mapping. -/
inductive ReadSlice where
  | scratch (bytes : Bytes)
  | mapped (start size : Nat)
  deriving DecidableEq

/-- The slice `slice()`. -/
def ReadSlice.empty : ReadSlice := .scratch []

/-- The bytes of a slice, if it does not reach outside the mapping. -/
def ReadSlice.bytes (mapping : Bytes) : ReadSlice → Option Bytes
  | .scratch bytes => some bytes
  | .mapped start size =>
      if start + size ≤ mapping.length then some ((mapping.drop start).take size) else none

/-! ## The readers -/

/-- `posix_random_access_file` -/
structure PosixRandomAccessFile where
  hasPermanentFd : Bool
  filename : Bytes

/-- `posix_random_access_file::read`, with `*result` before and after. -/
def PosixRandomAccessFile.read (f : PosixRandomAccessFile) (k : RandomKernel) (offset n : U64)
    (result : ReadSlice) : Status × ReadSlice :=
  match if f.hasPermanentFd then .ok () else k.reopen with
  | .error e => (posixError f.filename e, result)
  | .ok _ =>
      match k.pread offset.toInt n.toNat with
      | .error e => (posixError f.filename e, .scratch [])
      | .ok bytes => (.ok, .scratch bytes)

/-- `posix_mmap_readable_file`: `mapping` is the memory from `mmap_base_` on, `length_` bytes of
it. -/
structure PosixMmapReadableFile where
  mapping : Bytes
  length : U64
  filename : Bytes

/-- `posix_mmap_readable_file::read`: `offset + n` is computed with 64 bits. -/
def PosixMmapReadableFile.read (f : PosixMmapReadableFile) (offset n : U64) : Status × ReadSlice :=
  if offset + n > f.length then (posixError f.filename EINVAL, .empty)
  else (.ok, .mapped offset.toNat n.toNat)

/-- What `new_random_access_file` makes. -/
inductive RandomAccessFile where
  | pread (f : PosixRandomAccessFile)
  | mmap (f : PosixMmapReadableFile)

/-- `random_access_file::read` -/
def RandomAccessFile.read (k : RandomKernel) (offset n : U64) (result : ReadSlice) :
    RandomAccessFile → Status × ReadSlice
  | .pread f => f.read k offset n result
  | .mmap f => f.read offset n

/-- `new_random_access_file`, with what `mmap_limiter_` and `fd_limiter_` answer: the status,
`*result`, and whether `mmap_limiter_` is given its resource back. -/
def newRandomAccessFile (k : RandomKernel) (mmapAcquired fdAcquired : Bool) (filename : Bytes) :
    Status × Option RandomAccessFile × Bool :=
  match k.openFile with
  | .error e => (posixError filename e, none, false)
  | .ok _ =>
      if !mmapAcquired then (.ok, some (.pread ⟨fdAcquired, filename⟩), false)
      else if k.fileSize.1.isOk then
        match k.mmap k.fileSize.2.toNat with
        | .ok mapping => (.ok, some (.mmap ⟨mapping, k.fileSize.2, filename⟩), false)
        | .error e => (posixError filename e, none, true)
      else (k.fileSize.1, none, true)

/-! ## What the system calls do -/

/-- The system calls on a file with this content, which does not change. A negative offset is refused,
or counts as one past the end. -/
structure RandomKernel.Serves (k : RandomKernel) (content : Bytes) : Prop where
  length_lt : content.length < 2 ^ 63
  fileSize : k.fileSize.1 = .ok → k.fileSize.2.toNat = content.length
  mmap : ∀ mapping, k.mmap content.length = .ok mapping → mapping = content
  pread : ∀ (offset : Int) (n : Nat), 0 ≤ offset →
    k.pread offset n = .ok ((content.drop offset.toNat).take n)
  negative : ∀ (offset : Int) (n : Nat), offset < 0 →
    k.pread offset n = .error EINVAL ∨ k.pread offset n = .ok []

/-- The two readers return the same kind of status, and with OK the same bytes of the file, none of
them outside. -/
def ReadersAgree (k : RandomKernel) (content : Bytes) (f g : RandomAccessFile) (offset n : U64)
    (result : ReadSlice) : Prop :=
  (f.read k offset n result).1.kind = (g.read k offset n result).1.kind
    ∧ ((g.read k offset n result).1 = .ok →
      ∃ bytes, (f.read k offset n result).2.bytes content = some bytes
        ∧ (g.read k offset n result).2.bytes content = some bytes)

/-! ## Reading -/

variable {k : RandomKernel} {content filename : Bytes}

/-- A reader of a mapping maps the whole file. -/
theorem newRandomAccessFile_mmap (h : k.Serves content) {fd : Bool} {f : RandomAccessFile}
    {s : Status} {back : Bool} (hopen : newRandomAccessFile k true fd filename = (s, some f, back)) :
    ∃ g : PosixMmapReadableFile, f = .mmap g ∧ g.mapping = content
      ∧ g.length.toNat = content.length ∧ g.filename = filename := by
  unfold newRandomAccessFile at hopen
  cases hfile : k.openFile with
  | error e => simp [hfile] at hopen
  | ok _ =>
      simp only [hfile, Bool.not_true, Bool.false_eq_true, if_false] at hopen
      split_ifs at hopen with hsize
      · have hlen := h.fileSize ((Status.isOk_iff _).mp hsize)
        cases hmap : k.mmap k.fileSize.2.toNat with
        | error e => simp [hmap] at hopen
        | ok mapping =>
            rw [hmap] at hopen
            cases hopen
            rw [hlen] at hmap
            exact ⟨_, rfl, h.mmap mapping hmap, hlen, rfl⟩
      · simp at hopen

theorem newRandomAccessFile_pread {fd : Bool} {f : RandomAccessFile} {s : Status} {back : Bool}
    (hopen : newRandomAccessFile k false fd filename = (s, some f, back)) :
    f = .pread ⟨fd, filename⟩ := by
  unfold newRandomAccessFile at hopen
  cases hfile : k.openFile with
  | error e => simp [hfile] at hopen
  | ok _ =>
      rw [hfile] at hopen
      cases hopen
      rfl

/-- The reader of a mapping, where the end of the range is a number of 64 bits. -/
theorem PosixMmapReadableFile.read_eq (g : PosixMmapReadableFile) {offset n : U64}
    (hend : offset.toNat + n.toNat < 2 ^ 64) :
    g.read offset n =
      if offset.toNat + n.toNat ≤ g.length.toNat then (.ok, .mapped offset.toNat n.toNat)
      else (posixError g.filename EINVAL, .empty) := by
  have hadd : (offset + n).toNat = offset.toNat + n.toNat := by
    rw [BitVec.toNat_add, Nat.mod_eq_of_lt hend]
  have hguard : offset + n > g.length ↔ ¬ offset.toNat + n.toNat ≤ g.length.toNat := by
    rw [gt_iff_lt, BitVec.lt_def, hadd, not_le]
  unfold PosixMmapReadableFile.read
  by_cases hfits : offset.toNat + n.toNat ≤ g.length.toNat
  · rw [if_neg (fun h => hguard.mp h hfits), if_pos hfits]
  · rw [if_pos (hguard.mpr hfits), if_neg hfits]

/-- Where the end of the range wraps around to a place in the file, the slice lies outside the
mapping. -/
theorem PosixMmapReadableFile.read_wrapped (g : PosixMmapReadableFile) {offset n : U64}
    (hmapping : g.mapping.length = g.length.toNat) (hend : 2 ^ 64 ≤ offset.toNat + n.toNat)
    (hwrap : offset.toNat + n.toNat - 2 ^ 64 ≤ g.length.toNat) :
    (g.read offset n).1 = .ok ∧ (g.read offset n).2.bytes g.mapping = none := by
  have hoffset := offset.isLt
  have hn := n.isLt
  have hlength := g.length.isLt
  have hadd : (offset + n).toNat = offset.toNat + n.toNat - 2 ^ 64 := by
    rw [BitVec.toNat_add, Nat.mod_eq_sub_mod hend, Nat.mod_eq_of_lt (by omega)]
  have hguard : ¬ offset + n > g.length := by
    rw [gt_iff_lt, BitVec.lt_def, hadd, not_lt]
    exact hwrap
  rw [PosixMmapReadableFile.read, if_neg hguard]
  exact ⟨rfl, if_neg (by omega)⟩

/-- The other reader gives what is left of the file. An offset that is negative as an `off_t` may be
refused. -/
theorem PosixRandomAccessFile.read_eq (h : k.Serves content) (f : PosixRandomAccessFile)
    (hfd : f.hasPermanentFd = true ∨ k.reopen = .ok ()) (offset n : U64) (result : ReadSlice) :
    f.read k offset n result = (.ok, .scratch ((content.drop offset.toNat).take n.toNat))
      ∨ 2 ^ 63 ≤ offset.toNat
        ∧ f.read k offset n result = (posixError f.filename EINVAL, .scratch []) := by
  have hopened : (if f.hasPermanentFd then .ok () else k.reopen) = (.ok () : Except Errno Unit) := by
    rcases hfd with hperm | hreopen
    · rw [if_pos hperm]
    · rw [hreopen, ite_self]
  unfold PosixRandomAccessFile.read
  rw [hopened]
  by_cases hsmall : offset.toNat < 2 ^ 63
  · have hint : offset.toInt = (offset.toNat : Int) := BitVec.toInt_eq_toNat_of_lt (by omega)
    left
    rw [hint, h.pread _ _ (Int.natCast_nonneg _), Int.toNat_natCast]
  · -- as an `off_t` the offset is negative, and the file ends before it
    have hneg : offset.toInt < 0 := by
      have hlt := offset.isLt
      rw [BitVec.toInt_eq_toNat_cond, if_neg (by omega)]
      omega
    rcases h.negative offset.toInt n.toNat hneg with herror | hempty
    · right
      rw [herror]
      exact ⟨by omega, rfl⟩
    · left
      have hlt := h.length_lt
      rw [hempty, List.drop_eq_nil_of_le (by omega), List.take_nil]

/-- **The reads of the two readers.** Whatever the limiters answered, inside the file they give the
same bytes. A range that ends past the file is refused by the reader of a mapping, with the error
`EINVAL`, and cut short by the other one. Without a descriptor of its own, this one has to open the
file again, and may fail there. -/
theorem randomAccess_read_spec (h : k.Serves content) {fd fd' back back' : Bool} {s s' : Status}
    {f g : RandomAccessFile} (hf : newRandomAccessFile k false fd filename = (s, some f, back))
    (hg : newRandomAccessFile k true fd' filename = (s', some g, back')) {offset n : U64}
    (hend : offset.toNat + n.toNat < 2 ^ 64) (result : ReadSlice) :
    (offset.toNat + n.toNat ≤ content.length →
        (g.read k offset n result).1 = .ok
          ∧ (g.read k offset n result).2.bytes content
            = some ((content.drop offset.toNat).take n.toNat)
          ∧ (fd = true ∨ k.reopen = .ok () →
            f.read k offset n result = (.ok, .scratch ((content.drop offset.toNat).take n.toNat))
              ∧ ReadersAgree k content f g offset n result))
      ∧ (content.length < offset.toNat + n.toNat →
        g.read k offset n result = (posixError filename EINVAL, .empty)
          ∧ (fd = true ∨ k.reopen = .ok () →
            f.read k offset n result = (.ok, .scratch ((content.drop offset.toNat).take n.toNat))
              ∨ 2 ^ 63 ≤ offset.toNat
                ∧ f.read k offset n result = (posixError filename EINVAL, .scratch [])))
      ∧ (∀ e, fd = false → k.reopen = .error e →
        f.read k offset n result = (posixError filename e, result)) := by
  obtain ⟨m, rfl, -, hlength, rfl⟩ := newRandomAccessFile_mmap h hg
  obtain rfl := newRandomAccessFile_pread hf
  have hmmap := m.read_eq hend
  rw [hlength] at hmmap
  refine ⟨?_, ?_, ?_⟩
  · intro hinside
    rw [if_pos hinside] at hmmap
    have hslice : RandomAccessFile.read k offset n result (.mmap m)
        = (.ok, .mapped offset.toNat n.toNat) := hmmap
    have hbytes : (ReadSlice.mapped offset.toNat n.toNat).bytes content
        = some ((content.drop offset.toNat).take n.toNat) := if_pos hinside
    refine ⟨by rw [hslice], by rw [hslice]; exact hbytes, fun hfd => ?_⟩
    have hread : RandomAccessFile.read k offset n result (.pread ⟨fd, m.filename⟩)
        = (.ok, .scratch ((content.drop offset.toNat).take n.toNat)) := by
      rcases PosixRandomAccessFile.read_eq h ⟨fd, m.filename⟩ hfd offset n result with hok | ⟨hbig, -⟩
      · exact hok
      · have hlt := h.length_lt
        omega
    unfold ReadersAgree
    rw [hread, hslice]
    exact ⟨rfl, rfl, fun _ => ⟨_, rfl, hbytes⟩⟩
  · intro hpast
    rw [if_neg (by omega)] at hmmap
    exact ⟨hmmap, fun hfd =>
      PosixRandomAccessFile.read_eq h ⟨fd, m.filename⟩ hfd offset n result⟩
  · rintro e rfl hreopen
    show PosixRandomAccessFile.read _ k offset n result = _
    rw [PosixRandomAccessFile.read, if_neg Bool.false_ne_true, hreopen]

/-! ## A file that answers every call -/

/-- The system calls on a regular file. -/
def RandomKernel.onFile (content : Bytes) : RandomKernel where
  openFile := .ok ()
  reopen := .ok ()
  fileSize := (.ok, BitVec.ofNat 64 content.length)
  mmap length := if length = 0 then .error EINVAL else .ok (content.take length)
  pread offset n :=
    if offset < 0 then .error EINVAL else .ok ((content.drop offset.toNat).take n)

theorem RandomKernel.onFile_serves (h : content.length < 2 ^ 63) : (onFile content).Serves content where
  length_lt := h
  fileSize _ := by
    show (BitVec.ofNat 64 content.length).toNat = content.length
    rw [BitVec.toNat_ofNat, Nat.mod_eq_of_lt (by omega)]
  mmap mapping hmap := by
    simp only [onFile] at hmap
    split_ifs at hmap with hzero
    cases hmap
    exact List.take_length
  pread offset n hoffset := if_neg (not_lt.mpr hoffset)
  negative offset n hoffset := .inl (if_pos hoffset)

/-- The three last bytes of a file of four. -/
theorem randomAccess_read_spec_four :
    ∃ f g : RandomAccessFile,
      newRandomAccessFile (.onFile (text "abcd")) false true (text "f") = (.ok, some f, false)
        ∧ newRandomAccessFile (.onFile (text "abcd")) true true (text "f") = (.ok, some g, false)
        ∧ (f.read (.onFile (text "abcd")) 1 3 .empty) = (.ok, .scratch (text "bcd"))
        ∧ (g.read (.onFile (text "abcd")) 1 3 .empty).2.bytes (text "abcd") = some (text "bcd") := by
  have hserves : (RandomKernel.onFile (text "abcd")).Serves (text "abcd") :=
    RandomKernel.onFile_serves (by decide)
  have hend : (1 : U64).toNat + (3 : U64).toNat < 2 ^ 64 := by decide
  have hpread : newRandomAccessFile (.onFile (text "abcd")) false true (text "f")
      = (.ok, some (.pread ⟨true, text "f"⟩), false) := rfl
  have hmmap : newRandomAccessFile (.onFile (text "abcd")) true true (text "f")
      = (.ok, some (.mmap ⟨text "abcd", 4, text "f"⟩), false) := rfl
  have hinside := (randomAccess_read_spec hserves hpread hmmap hend .empty).1 (by decide)
  exact ⟨_, _, hpread, hmmap, (hinside.2.2 (.inl rfl)).1, hinside.2.1⟩

/-- Two bytes of a file of one: the reader of a mapping refuses, the other one gives the byte. -/
theorem not_readersAgree :
    ¬ ∀ (k : RandomKernel) (content filename : Bytes) (fd fd' back back' : Bool) (s s' : Status)
        (f g : RandomAccessFile), k.Serves content →
        newRandomAccessFile k false fd filename = (s, some f, back) →
        newRandomAccessFile k true fd' filename = (s', some g, back') →
        (fd = true ∨ k.reopen = .ok ()) →
        ∀ (offset n : U64) (result : ReadSlice), ReadersAgree k content f g offset n result := by
  intro h
  have hserves : (RandomKernel.onFile (text "a")).Serves (text "a") :=
    RandomKernel.onFile_serves (by decide)
  have hagree := h _ _ (text "f") true true false false .ok .ok _ _ hserves rfl rfl (.inl rfl)
    0 2 .empty
  exact absurd hagree.1 (by decide)

end SimpleLeveldb
