import SimpleLeveldb.Posix.Limiter
import SimpleLeveldb.Lib.Custody

set_option autoImplicit false

/-! # Files open for random access (`__detail/posix_env.cc`)

`new_random_access_file` opens a descriptor. When `mmap_limiter_` allows it, the file is mapped and
the descriptor closed; otherwise the descriptor is kept when `fd_limiter_` allows it, and closed when
not, and then every read opens the file anew. The destructors give back what a file has. Here any
number of threads make files, read them and delete them; a step is one system call, or one step of a
limiter. `get_file_size` has no body in the source, and a call of it may go either way.
-/

namespace SimpleLeveldb

/-! ## The limiters, as a thread goes through them -/

namespace Limiter

variable {ι : Type} [DecidableEq ι]

/-- The next step of the thread `t` in `acquire`, with what it returns when that is the last one. -/
def acquireStep (s : Limiter ι) (t : ι) : Except Fault (Limiter ι × Option Bool) :=
  match s.threads t with
  | .idle => .ok ({ s with acquiresAllowed := s.acquiresAllowed - 1 }.goTo t
      (.subtracted s.acquiresAllowed), none)
  | .subtracted old =>
      if 0 < old.toInt then .ok ({ s with held := s.held + 1 }.goTo t .idle, some true)
      else .ok (s.goTo t .failing, none)
  | .failing => .ok ({ s with acquiresAllowed := s.acquiresAllowed + 1 }.goTo t
      (.restored s.acquiresAllowed), none)
  | .restored old => do
      require (old.toInt < s.maxAcquires.toInt)
      return (s.goTo t .idle, some false)
  | .released _ => .error .badAccess

/-- `release`: `fetch_add` -/
def releaseAdd (s : Limiter ι) (t : ι) : Limiter ι :=
  { s with acquiresAllowed := s.acquiresAllowed + 1, held := s.held - 1 }.goTo t
    (.released s.acquiresAllowed)

/-- `release` asserts and returns. -/
def releaseCheck (s : Limiter ι) (t : ι) : Except Fault (Limiter ι) :=
  match s.threads t with
  | .released old => do
      require (old.toInt < s.maxAcquires.toInt)
      return s.goTo t .idle
  | _ => .error .badAccess

end Limiter

/-! ## The files and the threads -/

/-- `mmap_limiter_` and `fd_limiter_` -/
inductive Limit where
  | mmap
  | fd
  deriving DecidableEq, Repr

/-- `max_mmaps`: `g_mmap_limit` with 8-byte pointers -/
def maxMmaps : U32 := 1000

/-- What `getrlimit` says. -/
inductive Rlimit where
  | failed
  | infinity
  | current (n : U64)
  deriving DecidableEq, Repr

/-- `max_open_files`, with `g_open_read_only_file_limit`, which it sets. A fifth of the limit of the
process is taken as an `int32_t`. -/
def maxOpenFiles (limit : U32) (rlim : Rlimit) : U32 :=
  if 0 ≤ limit.toInt then limit
  else
    match rlim with
    | .failed => 50
    | .infinity => 2147483647
    | .current n => (n / 5).setWidth 32

/-- The constructor of `fd_limiter_` asserts that its maximum is not negative: the fifth must not be
one from `2 ^ 31` on, modulo `2 ^ 32`. -/
theorem maxOpenFiles_nonneg_iff {limit : U32} {rlim : Rlimit} :
    0 ≤ (maxOpenFiles limit rlim).toInt
      ↔ 0 ≤ limit.toInt ∨ ∀ n, rlim = .current n → n.toNat / 5 % 2 ^ 32 < 2 ^ 31 := by
  unfold maxOpenFiles
  by_cases hlimit : 0 ≤ limit.toInt
  · simp [hlimit]
  · rw [if_neg hlimit]
    simp only [hlimit, false_or]
    cases rlim with
    | failed => simp
    | infinity => simp
    | current n =>
        have hnat : ((n / 5).setWidth 32).toNat = n.toNat / 5 % 2 ^ 32 := by
          rw [BitVec.toNat_setWidth, BitVec.toNat_udiv]
          rfl
        simp only [Rlimit.current.injEq, forall_eq']
        rw [BitVec.toInt_eq_toNat_cond, hnat]
        split_ifs with hsmall <;> omega

/-- A `random_access_file` that is alive, with what it owns. -/
inductive OpenFile where
  /-- `posix_random_access_file`; `fd_` is -1 where there is no permanent descriptor -/
  | pread (fd : Option Nat)
  /-- `posix_mmap_readable_file`, with `mmap_base_` -/
  | mmap (base : Nat)
  deriving DecidableEq, Repr

/-- Where a thread is. `φ` are the places of the files. -/
inductive FilePhase (φ : Type) where
  | idle
  /-- in `acquire`, with the descriptor that was opened: of `mmap_limiter_` in
  `new_random_access_file`, of `fd_limiter_` in the constructor of `posix_random_access_file` -/
  | acquiring (l : Limit) (fd : Nat)
  /-- `mmap_limiter_` has said yes -/
  | granted (fd : Nat)
  /-- past `get_file_size` -/
  | sized (fd : Nat)
  /-- the mapping is made -/
  | mapped (fd base : Nat)
  /-- the size or the mapping is not to be had -/
  | failed (fd : Nat)
  /-- `fd_limiter_` has said no -/
  | refused (fd : Nat)
  /-- in the destructor of `posix_random_access_file`, with a permanent descriptor -/
  | closing (fd : Nat)
  /-- in the destructor of `posix_mmap_readable_file` -/
  | unmapping (base : Nat)
  /-- before `release`, and between its two steps -/
  | releasing (l : Limit)
  | released (l : Limit)
  /-- in `read` of the file at `f`, with a descriptor that was opened for it -/
  | reading (f : φ) (fd : Option Nat)
  deriving DecidableEq

/-- The threads `ι`, the files at the places `φ`, and what the system has open and mapped for them. -/
structure OpenFiles (ι φ : Type) where
  limiters : Limit → Limiter ι
  descriptors : Finset Nat
  mappings : Finset Nat
  threads : ι → FilePhase φ
  files : φ → Option OpenFile

namespace OpenFiles

variable {ι φ : Type}

/-- `close` -/
def closeFd (st : OpenFiles ι φ) (fd : Nat) : Except Fault (OpenFiles ι φ) :=
  if fd ∈ st.descriptors then .ok { st with descriptors := st.descriptors.erase fd }
  else .error .badAccess

/-- `munmap` -/
def munmap (st : OpenFiles ι φ) (base : Nat) : Except Fault (OpenFiles ι φ) :=
  if base ∈ st.mappings then .ok { st with mappings := st.mappings.erase base }
  else .error .badAccess

/-- `pread` on the descriptor of the file or on `fd`, or a look at the mapping: these must be there. -/
def access (st : OpenFiles ι φ) (f : φ) (fd : Option Nat) : Except Fault Unit :=
  match st.files f, fd with
  | some (.pread (some own)), none => if own ∈ st.descriptors then .ok () else .error .badAccess
  | some (.pread none), some fd => if fd ∈ st.descriptors then .ok () else .error .badAccess
  | some (.mmap base), none => if base ∈ st.mappings then .ok () else .error .badAccess
  | _, _ => .error .badAccess

section Steps

variable [DecidableEq φ]

def setFile (st : OpenFiles ι φ) (f : φ) (file : Option OpenFile) : OpenFiles ι φ :=
  { st with files := Function.update st.files f file }

@[simp] theorem setFile_limiters (st : OpenFiles ι φ) (f : φ) (file : Option OpenFile) :
    (st.setFile f file).limiters = st.limiters := rfl

variable [DecidableEq ι]

def setThread (st : OpenFiles ι φ) (t : ι) (phase : FilePhase φ) : OpenFiles ι φ :=
  { st with threads := Function.update st.threads t phase }

def setLimiter (st : OpenFiles ι φ) (l : Limit) (s : Limiter ι) : OpenFiles ι φ :=
  { st with limiters := Function.update st.limiters l s }

/-- Where a call of `acquire` leads: a file with a permanent descriptor is made at the place `f`. -/
def afterAcquire (st : OpenFiles ι φ) (t : ι) (f : φ) (fd : Nat) :
    Limit → Option Bool → OpenFiles ι φ
  | _, none => st
  | .mmap, some true => st.setThread t (.granted fd)
  | .mmap, some false => st.setThread t (.acquiring .fd fd)
  | .fd, some true => (st.setFile f (some (.pread (some fd)))).setThread t .idle
  | .fd, some false => st.setThread t (.refused fd)

/-- What a destructor does first. -/
def destroying : OpenFile → FilePhase φ
  | .pread (some fd) => .closing fd
  | .pread none => .idle
  | .mmap base => .unmapping base

/-- One step of a thread. The system opens descriptors and makes mappings that are not in use; a file
is made at a free place, and deleted only while nobody reads it. -/
inductive Step : OpenFiles ι φ → Except Fault (OpenFiles ι φ) → Prop
  /-- `new_random_access_file`: `open` -/
  | openFile {st : OpenFiles ι φ} {t : ι} {fd : Nat} : st.threads t = .idle → fd ∉ st.descriptors →
      Step st (.ok ({ st with descriptors := insert fd st.descriptors }.setThread t
        (.acquiring .mmap fd)))
  | acquire {st : OpenFiles ι φ} {t : ι} {f : φ} {l : Limit} {fd : Nat} :
      st.threads t = .acquiring l fd → st.files f = none →
      Step st (do
        let (s, b) ← (st.limiters l).acquireStep t
        return (st.setLimiter l s).afterAcquire t f fd l b)
  /-- `get_file_size` -/
  | getFileSize {st : OpenFiles ι φ} {t : ι} {fd : Nat} : st.threads t = .granted fd →
      Step st (.ok (st.setThread t (.sized fd)))
  | noFileSize {st : OpenFiles ι φ} {t : ι} {fd : Nat} : st.threads t = .granted fd →
      Step st (.ok (st.setThread t (.failed fd)))
  | mmap {st : OpenFiles ι φ} {t : ι} {fd base : Nat} : st.threads t = .sized fd →
      base ∉ st.mappings →
      Step st (.ok ({ st with mappings := insert base st.mappings }.setThread t (.mapped fd base)))
  | noMmap {st : OpenFiles ι φ} {t : ι} {fd : Nat} : st.threads t = .sized fd →
      Step st (.ok (st.setThread t (.failed fd)))
  /-- the descriptor is closed, and the file returned -/
  | closeMapped {st : OpenFiles ι φ} {t : ι} {f : φ} {fd base : Nat} :
      st.threads t = .mapped fd base → st.files f = none →
      Step st (do
        let st ← st.closeFd fd
        return (st.setFile f (some (.mmap base))).setThread t .idle)
  | closeFailed {st : OpenFiles ι φ} {t : ι} {fd : Nat} : st.threads t = .failed fd →
      Step st (do
        let st ← st.closeFd fd
        return st.setThread t (.releasing .mmap))
  | closeRefused {st : OpenFiles ι φ} {t : ι} {f : φ} {fd : Nat} : st.threads t = .refused fd →
      st.files f = none →
      Step st (do
        let st ← st.closeFd fd
        return (st.setFile f (some (.pread none))).setThread t .idle)
  /-- a destructor begins -/
  | delete {st : OpenFiles ι φ} {t : ι} {f : φ} {file : OpenFile} : st.threads t = .idle →
      st.files f = some file → (∀ u fd, st.threads u ≠ .reading f fd) →
      Step st (.ok ((st.setFile f none).setThread t (destroying file)))
  | closeDeleted {st : OpenFiles ι φ} {t : ι} {fd : Nat} : st.threads t = .closing fd →
      Step st (do
        let st ← st.closeFd fd
        return st.setThread t (.releasing .fd))
  | munmap {st : OpenFiles ι φ} {t : ι} {base : Nat} : st.threads t = .unmapping base →
      Step st (do
        let st ← st.munmap base
        return st.setThread t (.releasing .mmap))
  | releaseAdd {st : OpenFiles ι φ} {t : ι} {l : Limit} : st.threads t = .releasing l →
      Step st (.ok ((st.setLimiter l ((st.limiters l).releaseAdd t)).setThread t (.released l)))
  | releaseCheck {st : OpenFiles ι φ} {t : ι} {l : Limit} : st.threads t = .released l →
      Step st (do
        let s ← (st.limiters l).releaseCheck t
        return (st.setLimiter l s).setThread t .idle)
  /-- `read` of a file with a permanent descriptor, or of a mapping -/
  | read {st : OpenFiles ι φ} {t : ι} {f : φ} {file : OpenFile} : st.threads t = .idle →
      st.files f = some file → file ≠ .pread none →
      Step st (.ok (st.setThread t (.reading f none)))
  /-- `read` of a file that has none opens one -/
  | readOpen {st : OpenFiles ι φ} {t : ι} {f : φ} {fd : Nat} : st.threads t = .idle →
      st.files f = some (.pread none) → fd ∉ st.descriptors →
      Step st (.ok ({ st with descriptors := insert fd st.descriptors }.setThread t
        (.reading f (some fd))))
  | endRead {st : OpenFiles ι φ} {t : ι} {f : φ} : st.threads t = .reading f none →
      Step st (do
        st.access f none
        return st.setThread t .idle)
  | closeRead {st : OpenFiles ι φ} {t : ι} {f : φ} {fd : Nat} :
      st.threads t = .reading f (some fd) →
      Step st (do
        st.access f (some fd)
        let st ← st.closeFd fd
        return st.setThread t .idle)

/-- What threads come to that share two limiters with these maxima. -/
inductive Reachable (maxMmaps maxOpenFiles : U32) : OpenFiles ι φ → Prop
  | construct {mmap fd : Limiter ι} : Limiter.construct ι maxMmaps = .ok mmap →
      Limiter.construct ι maxOpenFiles = .ok fd →
      Reachable maxMmaps maxOpenFiles
        ⟨fun | .mmap => mmap | .fd => fd, ∅, ∅, fun _ => .idle, fun _ => none⟩
  | step {st st' : OpenFiles ι φ} : Reachable maxMmaps maxOpenFiles st → Step st (.ok st') →
      Reachable maxMmaps maxOpenFiles st'

end Steps

end OpenFiles

/-! ## The steps of a limiter -/

namespace Limiter

variable {ι : Type} [DecidableEq ι]

theorem goTo_threads (s : Limiter ι) (t : ι) (phase : LimiterPhase) :
    (s.goTo t phase).threads t = phase ∧ ∀ u, u ≠ t → (s.goTo t phase).threads u = s.threads u :=
  ⟨Function.update_self _ _ _, fun _ hu => Function.update_of_ne hu _ _⟩

variable [Fintype ι] {s : Limiter ι} {t : ι}

/-- A step of `acquire` is one of the limiter, and says yes only for a resource that it counts. -/
theorem Sound.acquireStep (h : s.Sound) (hthreads : Fintype.card ι < 2 ^ 31)
    (hphase : ∀ old, s.threads t ≠ .released old) :
    ∃ s' b, s.acquireStep t = .ok (s', b) ∧ s.Follows s'
      ∧ (∀ u, u ≠ t → s'.threads u = s.threads u)
      ∧ s'.held = s.held + (if b = some true then 1 else 0)
      ∧ (b = none → ∀ old, s'.threads t ≠ .released old) ∧ (b ≠ none → s'.threads t = .idle) := by
  have hgo := fun (s : Limiter ι) phase => s.goTo_threads t phase
  have hnot : ∀ phase, (∀ old, phase ≠ .released old) →
      ∀ (s : Limiter ι) old, (s.goTo t phase).threads t ≠ .released old := by
    intro phase hp s old
    rw [(hgo s phase).1]
    exact hp old
  unfold Limiter.acquireStep
  cases ht : s.threads t with
  | idle =>
      obtain ⟨s', heq, hfollows⟩ := h.step hthreads (.fetchSub ht)
      cases heq
      exact ⟨_, _, rfl, hfollows, (hgo _ _).2, rfl, fun _ => hnot _ (by simp) _, by simp⟩
  | subtracted old =>
      by_cases hpos : 0 < old.toInt
      · obtain ⟨s', heq, hfollows⟩ := h.step hthreads (.succeed ht hpos)
        cases heq
        exact ⟨_, _, if_pos hpos, hfollows, (hgo _ _).2, rfl, by simp, fun _ => (hgo _ _).1⟩
      · obtain ⟨s', heq, hfollows⟩ := h.step hthreads (.fail ht hpos)
        cases heq
        exact ⟨_, _, if_neg hpos, hfollows, (hgo _ _).2, rfl, fun _ => hnot _ (by simp) _, by simp⟩
  | failing =>
      obtain ⟨s', heq, hfollows⟩ := h.step hthreads (.fetchAdd ht)
      cases heq
      exact ⟨_, _, rfl, hfollows, (hgo _ _).2, rfl, fun _ => hnot _ (by simp) _, by simp⟩
  | restored old =>
      obtain ⟨s', heq, hfollows⟩ := h.step hthreads (.refuse ht)
      have hreq := require_of (h.restored t old ht)
      rw [hreq] at heq
      cases heq
      refine ⟨_, some false, ?_, hfollows, (hgo _ _).2, rfl, by simp, fun _ => (hgo _ _).1⟩
      simp only [hreq]
      rfl
  | released old => exact absurd ht (hphase old)

/-- `release` of a resource that is held. -/
theorem Sound.releaseAdd (h : s.Sound) (hthreads : Fintype.card ι < 2 ^ 31)
    (ht : s.threads t = .idle) (hheld : 0 < s.held) :
    s.Follows (s.releaseAdd t) ∧ (s.releaseAdd t).held + 1 = s.held
      ∧ (s.releaseAdd t).threads t = .released s.acquiresAllowed
      ∧ ∀ u, u ≠ t → (s.releaseAdd t).threads u = s.threads u := by
  have hpred : s.held = s.held - 1 + 1 := by omega
  obtain ⟨s', heq, hfollows⟩ := h.step hthreads (.release ht hpred)
  cases heq
  exact ⟨hfollows, hpred.symm, (goTo_threads _ t _).1, (goTo_threads _ t _).2⟩

theorem Sound.releaseCheck (h : s.Sound) (hthreads : Fintype.card ι < 2 ^ 31) {old : U32}
    (ht : s.threads t = .released old) :
    ∃ s', s.releaseCheck t = .ok s' ∧ s.Follows s' ∧ s'.held = s.held ∧ s'.threads t = .idle
      ∧ ∀ u, u ≠ t → s'.threads u = s.threads u := by
  obtain ⟨s', heq, hfollows⟩ := h.step hthreads (.done ht)
  rw [require_of (h.released t old ht)] at heq
  cases heq
  refine ⟨_, ?_, hfollows, rfl, (goTo_threads s t _).1, (goTo_threads s t _).2⟩
  simp only [Limiter.releaseCheck, ht, require_of (h.released t old ht)]
  rfl

end Limiter

/-! ## Who has what -/

/-- The descriptor that a thread has to close, or to pass on. -/
def FilePhase.descriptor {φ : Type} : FilePhase φ → Option Nat
  | .acquiring _ fd | .granted fd | .sized fd | .mapped fd _ | .failed fd | .refused fd
  | .closing fd => some fd
  | .reading _ fd => fd
  | _ => none

def FilePhase.mapping {φ : Type} : FilePhase φ → Option Nat
  | .mapped _ base | .unmapping base => some base
  | _ => none

/-- The thread has a resource of this limiter, which no file has. -/
def FilePhase.has {φ : Type} (l : Limit) : FilePhase φ → Bool
  | .granted _ | .sized _ | .mapped _ _ | .failed _ | .unmapping _ => l = .mmap
  | .closing _ => l = .fd
  | .releasing l' => l = l'
  | _ => false

/-- What a limiter takes the thread to be doing. -/
def FilePhase.Fits {φ : Type} (l : Limit) : FilePhase φ → LimiterPhase → Prop
  | .acquiring l' _, p => if l = l' then ∀ old, p ≠ .released old else p = .idle
  | .released l', p => if l = l' then ∃ old, p = .released old else p = .idle
  | _, p => p = .idle

theorem FilePhase.fits_idle {φ : Type} {phase : FilePhase φ} {l : Limit} {p : LimiterPhase}
    (hp : p = .idle) (hphase : ∀ l, phase ≠ .released l) : phase.Fits l p := by
  cases phase with
  | acquiring l' fd =>
      rw [FilePhase.Fits, hp]
      split_ifs
      · simp
      · rfl
  | released l' => exact absurd rfl (hphase l')
  | _ => exact hp

def OpenFile.descriptor : Option OpenFile → Option Nat
  | some (.pread fd) => fd
  | _ => none

def OpenFile.mapping : Option OpenFile → Option Nat
  | some (.mmap base) => some base
  | _ => none

/-- The file has a resource of this limiter. -/
def OpenFile.has (l : Limit) : Option OpenFile → Bool
  | some (.pread (some _)) => l = .fd
  | some (.mmap _) => l = .mmap
  | _ => false

namespace OpenFiles

variable {ι φ : Type}

/-- What the threads and the files hold. -/
def holders (g : FilePhase φ → Option Nat) (g' : Option OpenFile → Option Nat)
    (threads : ι → FilePhase φ) (files : φ → Option OpenFile) : ι ⊕ φ → Option Nat :=
  Sum.elim (fun t => g (threads t)) fun f => g' (files f)

section Threads

variable [DecidableEq ι] {g : FilePhase φ → Option Nat} {g' : Option OpenFile → Option Nat}
  {threads : ι → FilePhase φ} {files : φ → Option OpenFile} {live : Finset Nat} {t : ι}
  {phase : FilePhase φ} {x : Nat}

theorem holders_thread (h : g phase = g (threads t)) :
    holders g g' (Function.update threads t phase) files = holders g g' threads files := by
  funext o
  cases o with
  | inl u =>
      by_cases hu : u = t
      · rw [hu, holders, Sum.elim_inl, Function.update_self, h]
        rfl
      · rw [holders, Sum.elim_inl, Function.update_of_ne hu]
        rfl
  | inr v => rfl

theorem holders_thread_self :
    holders g g' (Function.update threads t phase) files (.inl t) = g phase := by
  rw [holders, Sum.elim_inl, Function.update_self]

theorem holders_thread_of_ne {o : ι ⊕ φ} (ho : o ≠ .inl t) :
    holders g g' (Function.update threads t phase) files o = holders g g' threads files o := by
  cases o with
  | inl u => rw [holders, Sum.elim_inl, Function.update_of_ne (by rintro rfl; exact ho rfl)]; rfl
  | inr v => rfl

/-- A thread gets something new from the system. -/
theorem custody_take (h : Custody (holders g g' threads files) (· ∈ live)) (hx : x ∉ live)
    (hnone : g (threads t) = none) (hnew : g phase = some x) :
    Custody (holders g g' (Function.update threads t phase) files) (· ∈ insert x live) :=
  h.take (o := .inl t) hx hnone (holders_thread_self.trans hnew)
    (fun _ ho => holders_thread_of_ne ho) fun _ => Finset.mem_insert

/-- A thread gives something back to the system. -/
theorem custody_drop (h : Custody (holders g g' threads files) (· ∈ live))
    (hold : g (threads t) = some x) (hnew : g phase = none) :
    Custody (holders g g' (Function.update threads t phase) files) (· ∈ live.erase x) :=
  h.drop (o := .inl t) hold (holders_thread_self.trans hnew)
    (fun _ ho => holders_thread_of_ne ho) fun _ => Finset.mem_erase

end Threads

section Files

variable [DecidableEq φ] {g : FilePhase φ → Option Nat} {g' : Option OpenFile → Option Nat}
  {threads : ι → FilePhase φ} {files : φ → Option OpenFile} {f : φ} {file : Option OpenFile}

theorem holders_file (h : g' file = g' (files f)) :
    holders g g' threads (Function.update files f file) = holders g g' threads files := by
  funext o
  cases o with
  | inl u => rfl
  | inr v =>
      by_cases hv : v = f
      · rw [hv, holders, Sum.elim_inr, Function.update_self, h]
        rfl
      · rw [holders, Sum.elim_inr, Function.update_of_ne hv]
        rfl

theorem holders_file_self :
    holders g g' threads (Function.update files f file) (.inr f) = g' file := by
  rw [holders, Sum.elim_inr, Function.update_self]

theorem holders_file_of_ne {o : ι ⊕ φ} (ho : o ≠ .inr f) :
    holders g g' threads (Function.update files f file) o = holders g g' threads files o := by
  cases o with
  | inl u => rfl
  | inr v => rw [holders, Sum.elim_inr, Function.update_of_ne (by rintro rfl; exact ho rfl)]; rfl

variable [DecidableEq ι] {live : Finset Nat} {t : ι} {phase : FilePhase φ} {x : Nat}

/-- What a thread has becomes a part of a new file. -/
theorem custody_give (h : Custody (holders g g' threads files) (· ∈ live))
    (hold : g (threads t) = some x) (hnone : g' (files f) = none) (hnew : g phase = none)
    (hfile : g' file = some x) :
    Custody (holders g g' (Function.update threads t phase) (Function.update files f file))
      (· ∈ live) :=
  h.pass (o := .inl t) (p := .inr f) hold hnone (holders_thread_self.trans hnew)
    (holders_file_self.trans hfile)
    fun _ ho hp => (holders_thread_of_ne ho).trans (holders_file_of_ne hp)

/-- What a file has goes to the thread that deletes it. -/
theorem custody_receive (h : Custody (holders g g' threads files) (· ∈ live))
    (hold : g' (files f) = some x) (hnone : g (threads t) = none) (hnew : g phase = some x)
    (hfile : g' file = none) :
    Custody (holders g g' (Function.update threads t phase) (Function.update files f file))
      (· ∈ live) :=
  h.pass (o := .inr f) (p := .inl t) hold hnone (holders_file_self.trans hfile)
    (holders_thread_self.trans hnew)
    fun _ ho hp => (holders_thread_of_ne hp).trans (holders_file_of_ne ho)

end Files

end OpenFiles

end SimpleLeveldb
