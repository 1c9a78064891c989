import SimpleLeveldb.Posix.Errno

set_option autoImplicit false

/-! # The buffered writer (`__detail/posix_env.cc`)

A `posix_writable_file` gathers what is appended in `buf_`, and writes it out when the buffer is full
and at a flush. Data takes three ways: into the buffer, split across a flush, or around the buffer.
`write` may take a part of what it is given, and may be interrupted. The file and the buffer
together hold what was appended (`PosixWritableFile.run_spec`).
-/

namespace SimpleLeveldb

def kWritableFileBufferSize : Nat := 65536

/-- What one call of `write` does: it takes so many bytes, or fails with this `errno`. -/
inductive WriteAnswer where
  | wrote (n : Nat)
  | failed (e : Errno)

/-- The open file, and what the next system calls return. -/
structure WriteKernel where
  file : Bytes
  /-- the calls of `write`; when none is left, a call takes all it is given -/
  writes : List WriteAnswer
  /-- the calls of `open`, `fdatasync` and `close`; when none is left, they succeed -/
  others : List (Except Errno Unit)

/-- A call of `open`, `fdatasync` or `close`. -/
def WriteKernel.other (k : WriteKernel) : Except Errno Unit × WriteKernel :=
  match k.others with
  | [] => (.ok (), k)
  | answer :: others => (answer, { k with others := others })

/-- Such a call leaves the file as it is. -/
theorem WriteKernel.other_eq (k : WriteKernel) :
    ∃ answer others, k.other = (answer, { k with others := others }) := by
  unfold other
  split
  · exact ⟨_, _, rfl⟩
  · exact ⟨_, _, rfl⟩

/-! ## The name of the file -/

/-- `core::string::rfind` of a character -/
def rfind (c : Byte) : Bytes → Option Nat
  | [] => none
  | b :: s =>
      match rfind c s with
      | some i => some (i + 1)
      | none => if b = c then some 0 else none

/-- `posix_writable_file::dir_name` -/
def dirName (filename : Bytes) : Except Fault Bytes :=
  match rfind 47 filename with
  | none => .ok (text ".")
  | some separatorPos => do
      require (47 ∉ filename.drop (separatorPos + 1))
      return filename.take separatorPos

/-- `posix_writable_file::base_name` -/
def baseName (filename : Bytes) : Except Fault Bytes :=
  match rfind 47 filename with
  | none => .ok filename
  | some separatorPos => do
      require (47 ∉ filename.drop (separatorPos + 1))
      return filename.drop (separatorPos + 1)

/-- `posix_writable_file::is_manifest` -/
def isManifest (filename : Bytes) : Except Fault Bool := do
  return (text "MANIFEST").isPrefixOf (← baseName filename)

theorem rfind_eq_none {c : Byte} {s : Bytes} (h : rfind c s = none) : c ∉ s := by
  induction s with
  | nil => exact List.not_mem_nil
  | cons b s ih =>
      rw [rfind] at h
      cases hs : rfind c s with
      | some i => simp [hs] at h
      | none =>
          rw [hs] at h
          split_ifs at h with hb
          rw [List.mem_cons, not_or]
          exact ⟨fun heq => hb heq.symm, ih hs⟩

/-- The asserts of `dir_name` and `base_name`: no separator follows the last one. -/
theorem rfind_eq_some {c : Byte} {s : Bytes} {i : Nat} (h : rfind c s = some i) :
    c ∉ s.drop (i + 1) := by
  induction s generalizing i with
  | nil => cases h
  | cons b s ih =>
      rw [rfind] at h
      cases hs : rfind c s with
      | some j =>
          rw [hs] at h
          cases h
          exact ih hs
      | none =>
          rw [hs] at h
          split_ifs at h with hb
          cases h
          exact rfind_eq_none hs

/-! ## The buffer -/

/-- `char buf_[ kWritableFileBufferSize ]` -/
structure WriteBuffer where
  bytes : Bytes
  length_eq : bytes.length = kWritableFileBufferSize

/-- `memcpy( buf_ + pos, data, data.size() )` -/
def WriteBuffer.memcpy (buf : WriteBuffer) (pos : Nat) (data : Bytes) : Except Fault WriteBuffer :=
  if h : pos + data.length ≤ kWritableFileBufferSize then
    .ok {
      bytes := buf.bytes.take pos ++ data ++ buf.bytes.drop (pos + data.length)
      length_eq := by
        rw [List.length_append, List.length_append, List.length_take, List.length_drop, buf.length_eq]
        omega }
  else .error .badAccess

/-- A copy that fits: the bytes before stay, the data follow them. -/
theorem WriteBuffer.memcpy_ok (buf : WriteBuffer) {pos : Nat} {data : Bytes}
    (h : pos + data.length ≤ kWritableFileBufferSize) :
    ∃ buf' : WriteBuffer, buf.memcpy pos data = .ok buf'
      ∧ buf'.bytes.take (pos + data.length) = buf.bytes.take pos ++ data := by
  refine ⟨_, dif_pos h, ?_⟩
  have hlen : (buf.bytes.take pos ++ data).length = pos + data.length := by
    rw [List.length_append, List.length_take, buf.length_eq, Nat.min_eq_left (by omega)]
  exact List.take_left' hlen

/-- The difference of two `size_t` -/
def sizeSub (a b : Nat) : Nat := (a + 2 ^ 64 - b) % 2 ^ 64

theorem sizeSub_of_le {a b : Nat} (hb : b ≤ a) (ha : a < 2 ^ 64) : sizeSub a b = a - b := by
  unfold sizeSub
  omega

/-! ## The file -/

/-- `posix_writable_file`, as long as it is open. -/
structure PosixWritableFile where
  buf : WriteBuffer
  pos : Nat
  isManifest : Bool
  filename : Bytes
  dirname : Bytes

namespace PosixWritableFile

/-- The constructor: the buffer holds any bytes. -/
def create (buf : WriteBuffer) (filename : Bytes) : Except Fault PosixWritableFile := do
  return {
    buf, filename
    pos := 0
    isManifest := ← SimpleLeveldb.isManifest filename
    dirname := ← dirName filename }

/-- The loop of `write_unbuffered`: the status, the answers that are left and the file. -/
def writeLoop (filename : Bytes) : List WriteAnswer → Bytes → Bytes →
    Status × List WriteAnswer × Bytes
  | [], file, data => (.ok, [], file ++ data)
  | answer :: writes, file, data =>
      if data.length = 0 then (.ok, answer :: writes, file)
      else
        match answer with
        | .failed e =>
            if e.number = EINTR.number then writeLoop filename writes file data
            else (posixError filename e, writes, file)
        -- at least a byte is taken, and at most all
        | .wrote n =>
            let writeResult := max 1 (min n data.length)
            writeLoop filename writes (file ++ data.take writeResult) (data.drop writeResult)

/-- `write_unbuffered` -/
def writeUnbuffered (f : PosixWritableFile) (k : WriteKernel) (data : Bytes) :
    Status × WriteKernel :=
  let (stat, writes, file) := writeLoop f.filename k.writes k.file data
  (stat, { k with writes, file })

/-- `flush_buffer`: `write_unbuffered` must not read past the buffer. -/
def flushBuffer (f : PosixWritableFile) (k : WriteKernel) :
    Except Fault (Status × PosixWritableFile × WriteKernel) :=
  if f.pos ≤ kWritableFileBufferSize then
    let (stat, k) := f.writeUnbuffered k (f.buf.bytes.take f.pos)
    .ok (stat, { f with pos := 0 }, k)
  else .error .badAccess

def append (f : PosixWritableFile) (k : WriteKernel) (data : Bytes) :
    Except Fault (Status × PosixWritableFile × WriteKernel) := do
  let copySize := min data.length (sizeSub kWritableFileBufferSize f.pos)
  let buf ← f.buf.memcpy f.pos (data.take copySize)
  let f := { f with buf, pos := f.pos + copySize }
  let writeData := data.drop copySize
  if writeData.length = 0 then return (.ok, f, k)
  let (stat, f, k) ← f.flushBuffer k
  if !stat.isOk then return (stat, f, k)
  if writeData.length < kWritableFileBufferSize then
    let buf ← f.buf.memcpy 0 writeData
    return (.ok, { f with buf, pos := writeData.length }, k)
  let (stat, k) := f.writeUnbuffered k writeData
  return (stat, f, k)

def flush (f : PosixWritableFile) (k : WriteKernel) :
    Except Fault (Status × PosixWritableFile × WriteKernel) :=
  f.flushBuffer k

/-- `sync_fd` -/
def syncFd (fdPath : Bytes) (k : WriteKernel) : Status × WriteKernel :=
  match k.other with
  | (.ok _, k) => (.ok, k)
  | (.error e, k) => (posixError fdPath e, k)

/-- `sync_dir_if_manifest`: what `close` returns is not looked at. -/
def syncDirIfManifest (f : PosixWritableFile) (k : WriteKernel) : Status × WriteKernel :=
  if !f.isManifest then (.ok, k)
  else
    match k.other with
    | (.error e, k) => (posixError f.dirname e, k)
    | (.ok _, k) =>
        let (stat, k) := syncFd f.dirname k
        (stat, k.other.2)

def sync (f : PosixWritableFile) (k : WriteKernel) :
    Except Fault (Status × PosixWritableFile × WriteKernel) := do
  let (stat, k) := f.syncDirIfManifest k
  if !stat.isOk then return (stat, f, k)
  let (stat, f, k) ← f.flushBuffer k
  if !stat.isOk then return (stat, f, k)
  let (stat, k) := syncFd f.filename k
  return (stat, f, k)

/-- `close`: afterwards the file is only destroyed. -/
def close (f : PosixWritableFile) (k : WriteKernel) : Except Fault (Status × WriteKernel) := do
  let (stat, _, k) ← f.flushBuffer k
  match k.other with
  | (.ok _, k) => return (stat, k)
  | (.error e, k) => return (if stat.isOk then posixError f.filename e else stat, k)

end PosixWritableFile

/-! ## Runs -/

/-- A call on an open file -/
inductive WritableCall where
  | append (data : Bytes)
  | flush
  | sync

/-- What the call adds to the stream. -/
def WritableCall.data : WritableCall → Bytes
  | .append data => data
  | .flush => []
  | .sync => []

/-- The calls after which the buffer must be empty. -/
def WritableCall.empties : WritableCall → Bool
  | .append _ => false
  | .flush => true
  | .sync => true

/-- The data of all appends, in order. -/
def appended (calls : List WritableCall) : Bytes := calls.flatMap WritableCall.data

namespace PosixWritableFile

def call (f : PosixWritableFile) (k : WriteKernel) :
    WritableCall → Except Fault (Status × PosixWritableFile × WriteKernel)
  | .append data => f.append k data
  | .flush => f.flush k
  | .sync => f.sync k

/-- The calls one after the other, up to the first that returns an error: with the status the calls
that were made. -/
def run (f : PosixWritableFile) (k : WriteKernel) : List WritableCall →
    Except Fault (Status × List WritableCall × PosixWritableFile × WriteKernel)
  | [] => .ok (.ok, [], f, k)
  | c :: calls => do
      let (stat, f, k) ← f.call k c
      if !stat.isOk then return (stat, [c], f, k)
      let (stat, made, f, k) ← f.run k calls
      return (stat, c :: made, f, k)

/-- The stream that the file and the buffer hold together. -/
def Holds (f : PosixWritableFile) (k : WriteKernel) (stream : Bytes) : Prop :=
  f.pos ≤ kWritableFileBufferSize ∧ k.file ++ f.buf.bytes.take f.pos = stream

/-! ## Writing -/

/-- The loop writes a part of the data, and all of it unless it fails. -/
theorem writeLoop_spec (filename : Bytes) (writes : List WriteAnswer) (file data : Bytes) :
    ∃ written rest, data = written ++ rest
      ∧ (writeLoop filename writes file data).2.2 = file ++ written
      ∧ ((writeLoop filename writes file data).1 = .ok → rest = []) := by
  induction writes generalizing file data with
  | nil => exact ⟨data, [], (List.append_nil data).symm, rfl, fun _ => rfl⟩
  | cons answer writes ih =>
      unfold writeLoop
      by_cases hdata : data.length = 0
      · rw [if_pos hdata, List.length_eq_zero_iff.mp hdata]
        exact ⟨[], [], rfl, (List.append_nil file).symm, fun _ => rfl⟩
      · rw [if_neg hdata]
        cases answer with
        | failed e =>
            -- an interrupted call is made again, with the same data
            by_cases hint : e.number = EINTR.number
            · simp only [if_pos hint]
              exact ih file data
            · simp only [if_neg hint]
              exact ⟨[], data, rfl, (List.append_nil file).symm,
                fun h => absurd h (posixError_ne_ok filename e)⟩
        | wrote n =>
            -- the loop goes on behind what was taken
            obtain ⟨written, rest, hsplit, hfile, hok⟩ :=
              ih (file ++ data.take (max 1 (min n data.length)))
                (data.drop (max 1 (min n data.length)))
            refine ⟨data.take (max 1 (min n data.length)) ++ written, rest, ?_, ?_, hok⟩
            · rw [List.append_assoc, ← hsplit, List.take_append_drop]
            · rw [hfile, List.append_assoc]

theorem writeUnbuffered_spec (f : PosixWritableFile) (k : WriteKernel) (data : Bytes) :
    ((f.writeUnbuffered k data).1 = .ok → (f.writeUnbuffered k data).2.file = k.file ++ data)
      ∧ (f.writeUnbuffered k data).2.file <+: k.file ++ data := by
  obtain ⟨written, rest, rfl, hfile, hok⟩ := writeLoop_spec f.filename k.writes k.file data
  have hwritten : (f.writeUnbuffered k (written ++ rest)).2.file = k.file ++ written := hfile
  constructor
  · intro hs
    rw [hwritten, hok hs, List.append_nil]
  · rw [hwritten, ← List.append_assoc]
    exact List.prefix_append _ _

/-- A flush empties the buffer. -/
theorem flushBuffer_spec {f : PosixWritableFile} {k : WriteKernel} {stream : Bytes}
    (h : f.Holds k stream) :
    ∃ s k', f.flushBuffer k = .ok (s, { f with pos := 0 }, k')
      ∧ (s = .ok → k'.file = stream) ∧ k'.file <+: stream := by
  obtain ⟨hpos, rfl⟩ := h
  have hwrite := f.writeUnbuffered_spec k (f.buf.bytes.take f.pos)
  exact ⟨_, _, if_pos hpos, hwrite.1, hwrite.2⟩

/-- What fits into the buffer is copied there. -/
theorem holds_memcpy {f : PosixWritableFile} {k : WriteKernel} {stream : Bytes}
    (h : f.Holds k stream) (data : Bytes) (hfits : f.pos + data.length ≤ kWritableFileBufferSize) :
    ∃ buf, f.buf.memcpy f.pos data = .ok buf
      ∧ ({ f with buf, pos := f.pos + data.length } : PosixWritableFile).Holds k (stream ++ data) := by
  obtain ⟨hpos, rfl⟩ := h
  obtain ⟨buf, hcopy, htake⟩ := f.buf.memcpy_ok hfits
  refine ⟨buf, hcopy, hfits, ?_⟩
  show k.file ++ buf.bytes.take (f.pos + data.length) = _
  rw [htake, List.append_assoc]

/-- The three ways of the data: into the buffer, split across a flush, around the buffer. -/
theorem append_spec {f : PosixWritableFile} {k : WriteKernel} {stream : Bytes} (h : f.Holds k stream)
    (data : Bytes) :
    ∃ s f' k', f.append k data = .ok (s, f', k') ∧ (s = .ok → f'.Holds k' (stream ++ data))
      ∧ k'.file <+: stream ++ data := by
  have hpos := h.1
  have hroom : sizeSub kWritableFileBufferSize f.pos = kWritableFileBufferSize - f.pos :=
    sizeSub_of_le hpos (by decide)
  set copySize := min data.length (kWritableFileBufferSize - f.pos) with hcopySize
  have hlen : (data.take copySize).length = copySize := by
    rw [List.length_take]
    exact Nat.min_eq_left (by omega)
  obtain ⟨buf, hcopy, hheld⟩ := holds_memcpy h (data.take copySize) (by omega)
  rw [hlen] at hheld
  have hsplit : stream ++ data = stream ++ data.take copySize ++ data.drop copySize := by
    rw [List.append_assoc, List.take_append_drop]
  unfold append
  simp only [hroom, ← hcopySize, hcopy, ok_bind]
  by_cases hrest : (data.drop copySize).length = 0
  · -- all of the data fits
    rw [if_pos hrest]
    have hall : stream ++ data = stream ++ data.take copySize := by
      rw [hsplit, List.length_eq_zero_iff.mp hrest, List.append_nil]
    rw [hall]
    exact ⟨_, _, _, rfl, fun _ => hheld, ⟨_, hheld.2⟩⟩
  · -- the buffer is full, and is written out before the rest
    rw [if_neg hrest, hsplit]
    obtain ⟨s, k', hflush, hok, hprefix⟩ := flushBuffer_spec hheld
    simp only [hflush, ok_bind]
    cases s with
    | error c m =>
        exact ⟨_, _, _, rfl, Status.noConfusion, hprefix.trans (List.prefix_append _ _)⟩
    | ok =>
        simp only [Status.isOk_ok, Bool.not_true, Bool.false_eq_true, if_false]
        have hempty : ({ f with buf, pos := 0 } : PosixWritableFile).Holds k'
            (stream ++ data.take copySize) := by
          refine ⟨Nat.zero_le _, ?_⟩
          rw [List.take_zero, List.append_nil, hok rfl]
        by_cases hsmall : (data.drop copySize).length < kWritableFileBufferSize
        · -- the rest goes to the start of the buffer
          obtain ⟨buf', hcopy', hheld'⟩ := holds_memcpy hempty (data.drop copySize)
            (by rw [Nat.zero_add]; exact hsmall.le)
          rw [Nat.zero_add] at hheld'
          rw [if_pos hsmall, hcopy', ok_bind]
          exact ⟨_, _, _, rfl, fun _ => hheld', ⟨_, hheld'.2⟩⟩
        · -- the rest goes around the buffer
          have hwrite := ({ f with buf, pos := 0 } : PosixWritableFile).writeUnbuffered_spec k'
            (data.drop copySize)
          rw [hok rfl] at hwrite
          rw [if_neg hsmall]
          refine ⟨_, _, _, rfl, fun hs => ⟨Nat.zero_le _, ?_⟩, hwrite.2⟩
          rw [List.take_zero, List.append_nil, hwrite.1 hs]

theorem syncFd_file (fdPath : Bytes) (k : WriteKernel) : (syncFd fdPath k).2.file = k.file := by
  obtain ⟨answer, others, hother⟩ := k.other_eq
  unfold syncFd
  rw [hother]
  cases answer <;> rfl

/-- Nothing is written before the flush in `sync`. -/
theorem syncDirIfManifest_file (f : PosixWritableFile) (k : WriteKernel) :
    (f.syncDirIfManifest k).2.file = k.file := by
  unfold syncDirIfManifest
  split_ifs
  · rfl
  · obtain ⟨answer, others, hother⟩ := k.other_eq
    rw [hother]
    cases answer with
    | error e => rfl
    | ok _ =>
        have hsync := syncFd_file f.dirname { k with others := others }
        obtain ⟨answer', others', hclose⟩ := (syncFd f.dirname { k with others := others }).2.other_eq
        dsimp only
        rw [hclose]
        exact hsync

theorem sync_spec {f : PosixWritableFile} {k : WriteKernel} {stream : Bytes} (h : f.Holds k stream) :
    ∃ s f' k', f.sync k = .ok (s, f', k')
      ∧ (s = .ok → f'.pos = 0 ∧ f'.Holds k' stream) ∧ k'.file <+: stream := by
  have hdir := f.syncDirIfManifest_file k
  unfold sync
  generalize f.syncDirIfManifest k = dir at hdir
  obtain ⟨stat, k₁⟩ := dir
  have hheld : f.Holds k₁ stream := ⟨h.1, by rw [show k₁.file = k.file from hdir, h.2]⟩
  cases stat with
  | error c m => exact ⟨_, _, _, rfl, Status.noConfusion, ⟨_, hheld.2⟩⟩
  | ok =>
      obtain ⟨s, k₂, hflush, hok, hprefix⟩ := flushBuffer_spec hheld
      simp only [Status.isOk_ok, Bool.not_true, Bool.false_eq_true, if_false, hflush, ok_bind]
      cases s with
      | error c m => exact ⟨_, _, _, rfl, Status.noConfusion, hprefix⟩
      | ok =>
          have hfile := syncFd_file f.filename k₂
          refine ⟨_, _, _, rfl, fun _ => ⟨rfl, Nat.zero_le _, ?_⟩, ?_⟩
          · rw [List.take_zero, List.append_nil]
            exact hfile.trans (hok rfl)
          · exact hfile ▸ hprefix

theorem close_spec {f : PosixWritableFile} {k : WriteKernel} {stream : Bytes}
    (h : f.Holds k stream) :
    ∃ s k', f.close k = .ok (s, k') ∧ (s = .ok → k'.file = stream) ∧ k'.file <+: stream := by
  obtain ⟨s, k₁, hflush, hok, hprefix⟩ := flushBuffer_spec h
  obtain ⟨answer, others, hother⟩ := k₁.other_eq
  unfold close
  simp only [hflush, ok_bind, hother]
  cases answer with
  | ok _ => exact ⟨_, _, rfl, hok, hprefix⟩
  | error e =>
      -- the error of the flush comes before the one of the call
      refine ⟨_, _, rfl, fun hs => ?_, hprefix⟩
      split_ifs at hs with hsok
      · exact absurd hs (posixError_ne_ok _ _)
      · exact absurd ((Status.isOk_iff s).mpr hs) hsok

/-- One call, from an open file that holds the stream. -/
theorem call_spec {f : PosixWritableFile} {k : WriteKernel} {stream : Bytes} (h : f.Holds k stream)
    (c : WritableCall) :
    ∃ s f' k', f.call k c = .ok (s, f', k')
      ∧ (s = .ok → f'.Holds k' (stream ++ c.data) ∧ (c.empties → f'.pos = 0))
      ∧ k'.file <+: stream ++ c.data := by
  cases c with
  | append data =>
      obtain ⟨s, f', k', hcall, hok, hprefix⟩ := append_spec h data
      exact ⟨s, f', k', hcall, fun hs => ⟨hok hs, Bool.noConfusion⟩, hprefix⟩
  | flush =>
      obtain ⟨s, k', hcall, hok, hprefix⟩ := flushBuffer_spec h
      rw [WritableCall.data, List.append_nil]
      refine ⟨s, _, k', hcall, fun hs => ⟨⟨Nat.zero_le _, ?_⟩, fun _ => rfl⟩, hprefix⟩
      rw [List.take_zero, List.append_nil, hok hs]
  | sync =>
      obtain ⟨s, f', k', hcall, hok, hprefix⟩ := sync_spec h
      rw [WritableCall.data, List.append_nil]
      exact ⟨s, f', k', hcall, fun hs => ⟨(hok hs).2, fun _ => (hok hs).1⟩, hprefix⟩

/-- A run, by the calls: no call faults, and the stream is kept up to the first error. -/
theorem run_spec {f : PosixWritableFile} {k : WriteKernel} {stream : Bytes} (h : f.Holds k stream)
    (calls : List WritableCall) :
    ∃ s made f' k', f.run k calls = .ok (s, made, f', k') ∧ made <+: calls
      ∧ (s = .ok → made = calls ∧ f'.Holds k' (stream ++ appended calls)
        ∧ ∀ c ∈ calls.getLast?, c.empties → f'.pos = 0)
      ∧ (s ≠ .ok → k'.file <+: stream ++ appended made) := by
  induction calls generalizing f k stream with
  | nil =>
      refine ⟨.ok, [], f, k, rfl, List.prefix_rfl, fun _ => ⟨rfl, ?_, ?_⟩, fun hs => absurd rfl hs⟩
      · rw [appended, List.flatMap_nil, List.append_nil]
        exact h
      · intro c hc
        cases hc
  | cons c calls ih =>
      obtain ⟨s, f₁, k₁, hcall, hok, hprefix⟩ := call_spec h c
      rw [run, hcall, ok_bind]
      cases s with
      | error code m =>
          refine ⟨_, _, _, _, rfl, ⟨calls, rfl⟩, Status.noConfusion, fun _ => ?_⟩
          rw [appended, List.flatMap_singleton]
          exact hprefix
      | ok =>
          obtain ⟨s, made, f', k', hrun, hmade, hlast, herror⟩ := ih (hok rfl).1
          simp only [Status.isOk_ok, Bool.not_true, Bool.false_eq_true, if_false, hrun, ok_bind]
          have happended : ∀ cs, stream ++ appended (c :: cs) = stream ++ c.data ++ appended cs := by
            intro cs
            rw [appended, List.flatMap_cons, List.append_assoc, appended]
          refine ⟨_, _, _, _, rfl, List.prefix_cons_inj c |>.mpr hmade, fun hs => ?_, fun hs => ?_⟩
          · obtain ⟨rfl, hheld, hempty⟩ := hlast hs
            refine ⟨rfl, by rw [happended]; exact hheld, fun c' hc' => ?_⟩
            cases made with
            | nil =>
                cases hrun
                cases hc'
                exact (hok rfl).2
            | cons d made => exact hempty c' (by rwa [List.getLast?_cons_cons] at hc')
          · rw [happended]
            exact herror hs

/-- A run that ends with an error: the last call returned it, the calls before it returned OK. -/
theorem run_failed {f f' : PosixWritableFile} {k k' : WriteKernel} {calls made : List WritableCall}
    {s : Status} (hrun : f.run k calls = .ok (s, made, f', k')) (hs : s ≠ .ok) :
    ∃ before c f₁ k₁, made = before ++ [c] ∧ f.run k before = .ok (.ok, before, f₁, k₁)
      ∧ f₁.call k₁ c = .ok (s, f', k') := by
  induction calls generalizing f k made with
  | nil =>
      cases hrun
      exact absurd rfl hs
  | cons c calls ih =>
      rw [run] at hrun
      obtain ⟨⟨stat, f₁, k₁⟩, hcall, hrun⟩ := bind_eq_ok.mp hrun
      cases stat with
      | error code m =>
          cases hrun
          exact ⟨[], c, f, k, rfl, rfl, hcall⟩
      | ok =>
          obtain ⟨⟨stat, rest, f₂, k₂⟩, hrest, hpure⟩ := bind_eq_ok.mp hrun
          cases hpure
          obtain ⟨before, d, f₃, k₃, rfl, hbefore, hd⟩ := ih hrest
          refine ⟨c :: before, d, f₃, k₃, rfl, ?_, hd⟩
          simp only [run, hcall, ok_bind, Status.isOk_ok, Bool.not_true, Bool.false_eq_true, if_false,
            hbefore]
          rfl

/-! ## A new file -/

/-- The constructor never stops at an assert. -/
theorem create_ok (buf : WriteBuffer) (filename : Bytes) :
    ∃ f, create buf filename = .ok f ∧ f.pos = 0 := by
  have hasserts : ∃ manifest dirname, SimpleLeveldb.isManifest filename = .ok manifest
      ∧ dirName filename = .ok dirname := by
    unfold SimpleLeveldb.isManifest baseName dirName
    cases hsep : rfind 47 filename with
    | none => exact ⟨_, _, rfl, rfl⟩
    | some i =>
        simp only [require_of (rfind_eq_some hsep), ok_bind]
        exact ⟨_, _, rfl, rfl⟩
  obtain ⟨manifest, dirname, hmanifest, hdirname⟩ := hasserts
  unfold create
  rw [hmanifest, ok_bind, hdirname, ok_bind]
  exact ⟨_, rfl, rfl⟩

/-- **The buffered writer keeps the stream.** Calls are made on a new file up to the first error,
whatever the kernel answers. As long as all return OK, the file and the buffer together hold what was
appended, and after a flush or a sync the buffer is empty. At the first error the file holds a
beginning of what was appended, the data of that call included. -/
theorem stream_of_run (buf : WriteBuffer) (filename : Bytes) (k : WriteKernel)
    (calls : List WritableCall) :
    ∃ f s made f' k', create buf filename = .ok f ∧ f.run k calls = .ok (s, made, f', k')
      ∧ made <+: calls
      ∧ (s = .ok → made = calls
        ∧ k'.file ++ f'.buf.bytes.take f'.pos = k.file ++ appended calls
        ∧ f'.pos ≤ kWritableFileBufferSize
        ∧ ∀ c ∈ calls.getLast?, c.empties → f'.pos = 0)
      ∧ (s ≠ .ok → k'.file <+: k.file ++ appended made
        ∧ ∃ before c f₁ k₁, made = before ++ [c] ∧ f.run k before = .ok (.ok, before, f₁, k₁)
          ∧ f₁.call k₁ c = .ok (s, f', k')) := by
  obtain ⟨f, hf, hpos⟩ := create_ok buf filename
  have hnew : f.Holds k k.file := by
    refine ⟨hpos ▸ Nat.zero_le _, ?_⟩
    rw [hpos, List.take_zero, List.append_nil]
  obtain ⟨s, made, f', k', hrun, hmade, hok, herror⟩ := run_spec hnew calls
  exact ⟨f, s, made, f', k', hf, hrun, hmade,
    fun hs => ⟨(hok hs).1, (hok hs).2.1.2, (hok hs).2.1.1, (hok hs).2.2⟩,
    fun hs => ⟨herror hs, run_failed hrun hs⟩⟩

end PosixWritableFile

end SimpleLeveldb
