import SimpleLeveldb.Posix.OpenFiles

set_option autoImplicit false

/-! # Runs with files open for random access

Every step keeps the invariant `Inv`: each descriptor that is open, and each mapping, belongs to one
thread or one file, and the limiters count what the threads and the files have.
-/

namespace SimpleLeveldb

namespace OpenFiles

variable {ι φ : Type}

/-! ## The invariant -/

/-- The resources of a limiter that the threads and the files have. -/
def inUse [Fintype ι] [Fintype φ] (l : Limit) (threads : ι → FilePhase φ)
    (files : φ → Option OpenFile) : Nat :=
  Census.count (FilePhase.has l) threads + Census.count (OpenFile.has l) files

/-- A read goes on with a descriptor of its own only where the file has none. -/
def CanRead (files : φ → Option OpenFile) (f : φ) (fd : Option Nat) : Prop :=
  ∃ file, files f = some file ∧ (file = .pread none ↔ fd ≠ none)

theorem CanRead.update [DecidableEq φ] {files : φ → Option OpenFile} {f g : φ} {fd : Option Nat}
    (h : CanRead files g fd) (hg : g ≠ f) (file : Option OpenFile) :
    CanRead (Function.update files f file) g fd := by
  obtain ⟨file', hfile, hiff⟩ := h
  exact ⟨file', by rw [Function.update_of_ne hg, hfile], hiff⟩

variable [Fintype ι] [Fintype φ]

/-- **The invariant**, with the maxima of the limiters. -/
structure Inv (maxima : Limit → U32) (st : OpenFiles ι φ) : Prop where
  sound : ∀ l, (st.limiters l).Sound ∧ (st.limiters l).maxAcquires = maxima l
  held : ∀ l, (st.limiters l).held = inUse l st.threads st.files
  fits : ∀ l t, (st.threads t).Fits l ((st.limiters l).threads t)
  descriptors : Custody (holders FilePhase.descriptor OpenFile.descriptor st.threads st.files)
    (· ∈ st.descriptors)
  mappings : Custody (holders FilePhase.mapping OpenFile.mapping st.threads st.files)
    (· ∈ st.mappings)
  reading : ∀ t f fd, st.threads t = .reading f fd → CanRead st.files f fd

theorem inUse_thread [DecidableEq ι] (l : Limit) (threads : ι → FilePhase φ)
    (files : φ → Option OpenFile) (t : ι) (phase : FilePhase φ) :
    inUse l (Function.update threads t phase) files + ((threads t).has l).toNat
      = inUse l threads files + (phase.has l).toNat := by
  have hcount := Census.count_update (FilePhase.has l) threads t phase
  simp only [inUse]
  omega

theorem inUse_file [DecidableEq φ] (l : Limit) (threads : ι → FilePhase φ)
    (files : φ → Option OpenFile) (f : φ) (file : Option OpenFile) :
    inUse l threads (Function.update files f file) + (OpenFile.has l (files f)).toNat
      = inUse l threads files + (OpenFile.has l file).toNat := by
  have hcount := Census.count_update (OpenFile.has l) files f file
  simp only [inUse]
  omega

variable {maxima : Limit → U32} {st : OpenFiles ι φ} {t : ι} {phase : FilePhase φ}

/-- A thread in such a phase is in none of the limiters. -/
theorem Inv.idle (h : Inv maxima st) (hacquiring : ∀ l fd, st.threads t ≠ .acquiring l fd)
    (hreleased : ∀ l, st.threads t ≠ .released l) (l : Limit) :
    (st.limiters l).threads t = .idle := by
  have hfits := h.fits l t
  cases ht : st.threads t with
  | acquiring l' fd => exact absurd ht (hacquiring l' fd)
  | released l' => exact absurd ht (hreleased l')
  | _ => rw [ht] at hfits; exact hfits

/-- A thread in a function of one limiter is in none of the other. -/
theorem Inv.acquiring (h : Inv maxima st) {l : Limit} {fd : Nat} (ht : st.threads t = .acquiring l fd) :
    (∀ old, (st.limiters l).threads t ≠ .released old)
      ∧ ∀ l', l' ≠ l → (st.limiters l').threads t = .idle := by
  constructor
  · have hfits := h.fits l t
    rw [ht, FilePhase.Fits, if_pos rfl] at hfits
    exact hfits
  · intro l' hl
    have hfits := h.fits l' t
    rw [ht, FilePhase.Fits, if_neg hl] at hfits
    exact hfits

/-- What a thread holds is open. -/
theorem Inv.mem_descriptors (h : Inv maxima st) {fd : Nat} (hfd : (st.threads t).descriptor = some fd) :
    fd ∈ st.descriptors :=
  h.descriptors.valid (.inl t) fd hfd

theorem Inv.closeFd (h : Inv maxima st) {fd : Nat} (hfd : (st.threads t).descriptor = some fd) :
    st.closeFd fd = .ok { st with descriptors := st.descriptors.erase fd } :=
  if_pos (h.mem_descriptors hfd)

theorem Inv.munmap_ok (h : Inv maxima st) {base : Nat} (hbase : (st.threads t).mapping = some base) :
    st.munmap base = .ok { st with mappings := st.mappings.erase base } :=
  if_pos (h.mappings.valid (.inl t) base hbase)

/-- A read finds what it reads through. -/
theorem Inv.access (h : Inv maxima st) {f : φ} {fd : Option Nat} (ht : st.threads t = .reading f fd) :
    st.access f fd = .ok () := by
  obtain ⟨file, hfile, hiff⟩ := h.reading t f fd ht
  have hown : ∀ x, OpenFile.descriptor (st.files f) = some x → x ∈ st.descriptors :=
    fun x hx => h.descriptors.valid (.inr f) x hx
  have hmapping : ∀ x, OpenFile.mapping (st.files f) = some x → x ∈ st.mappings :=
    fun x hx => h.mappings.valid (.inr f) x hx
  have hthread : ∀ x, fd = some x → x ∈ st.descriptors := by
    rintro x rfl
    exact h.mem_descriptors (t := t) (by rw [ht]; rfl)
  rw [hfile] at hown hmapping
  unfold OpenFiles.access
  rw [hfile]
  rcases file with ⟨_ | own⟩ | base
  · obtain ⟨x, rfl⟩ := Option.ne_none_iff_exists'.mp (hiff.mp rfl)
    exact if_pos (hthread x rfl)
  · obtain rfl : fd = none := by simpa using hiff
    exact if_pos (hown own rfl)
  · obtain rfl : fd = none := by simpa using hiff
    exact if_pos (hmapping base rfl)

/-- The resources that the files have are among those that were handed out. -/
theorem Inv.files_le (h : Inv maxima st) (l : Limit) :
    (Census.count (OpenFile.has l) st.files : Int) ≤ (maxima l).toInt := by
  have hle := (h.sound l).1.acquired_le
  rw [(h.sound l).2, Limiter.acquired, h.held l, inUse] at hle
  omega

/-- Every open descriptor belongs to a thread, or is the permanent one of a file. -/
theorem Inv.card_descriptors (h : Inv maxima st) :
    st.descriptors.card ≤ Census.count (OpenFile.has .fd) st.files + Fintype.card ι := by
  have hholder : ∀ fd : st.descriptors, ∃ o, holders FilePhase.descriptor OpenFile.descriptor
      st.threads st.files o = some fd.1 := fun fd => h.descriptors.held fd.1 fd.2
  choose holder hholder using hholder
  have hinj : Function.Injective holder := by
    intro a b hab
    have hb := hholder b
    rw [← hab, hholder a] at hb
    exact Subtype.ext (Option.some.inj hb)
  -- a file that holds a descriptor has a resource of `fd_limiter_`
  have hfile : ∀ fd f, holder fd = .inr f → OpenFile.has .fd (st.files f) = true := by
    intro fd f hf
    have hdescriptor := hholder fd
    rw [hf, holders, Sum.elim_inr] at hdescriptor
    rcases hfiles : st.files f with _ | ⟨_ | own⟩ | base
    · rw [hfiles] at hdescriptor; cases hdescriptor
    · rw [hfiles] at hdescriptor; cases hdescriptor
    · rfl
    · rw [hfiles] at hdescriptor; cases hdescriptor
  have hsub : Finset.univ.map ⟨holder, hinj⟩ ⊆ Finset.univ.disjSum
      (Finset.univ.filter fun f => OpenFile.has .fd (st.files f) = true) := by
    intro o ho
    obtain ⟨fd, -, rfl⟩ := Finset.mem_map.mp ho
    cases hfd : holder fd with
    | inl t => simp [hfd]
    | inr f => simp [hfd, hfile fd f hfd]
  have hcard := Finset.card_le_card hsub
  rw [Finset.card_map, Finset.card_univ, Fintype.card_coe, Finset.card_disjSum,
    Finset.card_univ] at hcard
  rw [Census.count]
  omega

/-- Nobody reads at a free place. -/
theorem Inv.not_reading (h : Inv maxima st) {f : φ} (hf : st.files f = none) (u : ι) (fd : Option Nat) :
    st.threads u ≠ .reading f fd := by
  intro hu
  obtain ⟨file, hfile, -⟩ := h.reading u f fd hu
  rw [hf] at hfile
  cases hfile

variable [DecidableEq ι]

/-- **The thread `t` goes to another phase**, while the limiters, the files and what the system has
open may change. -/
theorem Inv.moved (h : Inv maxima st) {limiters : Limit → Limiter ι}
    {descriptors mappings : Finset Nat} {files : φ → Option OpenFile}
    (hsound : ∀ l, (limiters l).Sound ∧ (limiters l).maxAcquires = maxima l)
    (hheld : ∀ l, (limiters l).held = inUse l (Function.update st.threads t phase) files)
    (hfits : ∀ l, phase.Fits l ((limiters l).threads t))
    (hothers : ∀ l u, u ≠ t → (limiters l).threads u = (st.limiters l).threads u)
    (hdescriptors : Custody (holders FilePhase.descriptor OpenFile.descriptor
      (Function.update st.threads t phase) files) (· ∈ descriptors))
    (hmappings : Custody (holders FilePhase.mapping OpenFile.mapping
      (Function.update st.threads t phase) files) (· ∈ mappings))
    (hreading : ∀ f fd, phase = .reading f fd → CanRead files f fd)
    (hkept : ∀ u f fd, u ≠ t → st.threads u = .reading f fd → CanRead files f fd) :
    Inv maxima ⟨limiters, descriptors, mappings, Function.update st.threads t phase, files⟩ := by
  have hthreads : ∀ u, Function.update st.threads t phase u
      = if u = t then phase else st.threads u := fun u => Function.update_apply _ _ _ _
  refine ⟨hsound, hheld, fun l u => ?_, hdescriptors, hmappings, fun u f fd hu => ?_⟩
  · show (Function.update st.threads t phase u).Fits l ((limiters l).threads u)
    rw [hthreads]
    split_ifs with hut
    · rw [hut]
      exact hfits l
    · rw [hothers l u hut]
      exact h.fits l u
  · replace hu : Function.update st.threads t phase u = .reading f fd := hu
    rw [hthreads] at hu
    split_ifs at hu with hut
    · exact hreading f fd hu
    · exact hkept u f fd hut hu

/-- The files and the limiters stay as they are. -/
theorem Inv.setThread (h : Inv maxima st) {descriptors mappings : Finset Nat}
    (hhas : ∀ l, phase.has l = (st.threads t).has l)
    (hfits : ∀ l, phase.Fits l ((st.limiters l).threads t))
    (hdescriptors : Custody (holders FilePhase.descriptor OpenFile.descriptor
      (Function.update st.threads t phase) st.files) (· ∈ descriptors))
    (hmappings : Custody (holders FilePhase.mapping OpenFile.mapping
      (Function.update st.threads t phase) st.files) (· ∈ mappings))
    (hreading : ∀ f fd, phase = .reading f fd → CanRead st.files f fd) :
    Inv maxima ({ st with descriptors := descriptors, mappings := mappings }.setThread t phase) := by
  refine h.moved h.sound (fun l => ?_) hfits (fun _ _ _ => rfl) hdescriptors hmappings hreading
    fun u f fd _ hu => h.reading u f fd hu
  show (st.limiters l).held = inUse l (Function.update st.threads t phase) st.files
  have hcount := inUse_thread l st.threads st.files t phase
  rw [hhas l] at hcount
  rw [h.held l]
  omega

/-- What the thread does not hold stays where it is. -/
theorem Inv.kept (h : Inv maxima st) (hd : phase.descriptor = (st.threads t).descriptor) :
    Custody (holders FilePhase.descriptor OpenFile.descriptor (Function.update st.threads t phase)
      st.files) (· ∈ st.descriptors) := by
  rw [holders_thread hd]
  exact h.descriptors

theorem Inv.keptMapping (h : Inv maxima st) (hm : phase.mapping = (st.threads t).mapping) :
    Custody (holders FilePhase.mapping OpenFile.mapping (Function.update st.threads t phase)
      st.files) (· ∈ st.mappings) := by
  rw [holders_thread hm]
  exact h.mappings

/-! ## The steps of `new_random_access_file` -/

theorem Inv.openFile (h : Inv maxima st) {fd : Nat} (ht : st.threads t = .idle)
    (hfd : fd ∉ st.descriptors) :
    Inv maxima
      ({ st with descriptors := insert fd st.descriptors }.setThread t (.acquiring .mmap fd)) := by
  have hidle := h.idle (t := t) (by simp [ht]) (by simp [ht])
  refine h.setThread (fun l => by rw [ht]; rfl) (fun l => FilePhase.fits_idle (hidle l) (by simp)) ?_
    (h.keptMapping (by rw [ht]; rfl)) (by simp)
  exact custody_take h.descriptors hfd (by rw [ht]; rfl) rfl

/-- From one phase to another with the same descriptor and the same resources. -/
theorem Inv.goOn (h : Inv maxima st) {old : FilePhase φ} (ht : st.threads t = old)
    (hacquiring : ∀ l fd, old ≠ .acquiring l fd) (hreleased : ∀ l, old ≠ .released l)
    (hnew : ∀ l, phase ≠ .released l) (hhas : ∀ l, phase.has l = old.has l)
    (hdescriptor : phase.descriptor = old.descriptor) (hmapping : phase.mapping = old.mapping)
    (hreading : ∀ f fd, phase = .reading f fd → CanRead st.files f fd) :
    Inv maxima (st.setThread t phase) := by
  have hidle := h.idle (t := t) (by rw [ht]; exact hacquiring) (by rw [ht]; exact hreleased)
  exact h.setThread (fun l => by rw [ht]; exact hhas l) (fun l => FilePhase.fits_idle (hidle l) hnew)
    (h.kept (by rw [ht]; exact hdescriptor)) (h.keptMapping (by rw [ht]; exact hmapping)) hreading

theorem Inv.mmap (h : Inv maxima st) {fd base : Nat} (ht : st.threads t = .sized fd)
    (hbase : base ∉ st.mappings) :
    Inv maxima ({ st with mappings := insert base st.mappings }.setThread t (.mapped fd base)) := by
  have hidle := h.idle (t := t) (by simp [ht]) (by simp [ht])
  refine h.setThread (fun l => by rw [ht]; rfl) (fun l => FilePhase.fits_idle (hidle l) (by simp))
    (h.kept (by rw [ht]; rfl)) ?_ (by simp)
  exact custody_take h.mappings hbase (by rw [ht]; rfl) rfl

/-- The thread closes its descriptor and goes on. -/
theorem Inv.close (h : Inv maxima st) {fd : Nat} {old : FilePhase φ} (ht : st.threads t = old)
    (hold : old.descriptor = some fd) (hacquiring : ∀ l fd, old ≠ .acquiring l fd)
    (hnew : ∀ l, phase ≠ .released l) (hhas : ∀ l, phase.has l = old.has l)
    (hdescriptor : phase.descriptor = none) (hmapping : phase.mapping = old.mapping)
    (hreading : ∀ f fd, phase = .reading f fd → CanRead st.files f fd) :
    Inv maxima ({ st with descriptors := st.descriptors.erase fd }.setThread t phase) := by
  have hreleased : ∀ l, st.threads t ≠ .released l := by
    intro l hl
    rw [← ht, hl] at hold
    cases hold
  have hidle := h.idle (t := t) (by rw [ht]; exact hacquiring) hreleased
  refine h.setThread (fun l => by rw [ht]; exact hhas l) (fun l => FilePhase.fits_idle (hidle l) hnew) ?_
    (h.keptMapping (by rw [ht]; exact hmapping)) hreading
  exact custody_drop h.descriptors (by rw [ht]; exact hold) hdescriptor

theorem Inv.munmap (h : Inv maxima st) {base : Nat} (ht : st.threads t = .unmapping base) :
    Inv maxima ({ st with mappings := st.mappings.erase base }.setThread t (.releasing .mmap)) := by
  have hidle := h.idle (t := t) (by simp [ht]) (by simp [ht])
  refine h.setThread (fun l => by rw [ht]; rfl) (fun l => FilePhase.fits_idle (hidle l) (by simp))
    (h.kept (by rw [ht]; rfl)) ?_ (by simp)
  exact custody_drop h.mappings (by rw [ht]; rfl) rfl

theorem Inv.readOpen (h : Inv maxima st) {f : φ} {fd : Nat} (ht : st.threads t = .idle)
    (hf : st.files f = some (.pread none)) (hfd : fd ∉ st.descriptors) :
    Inv maxima ({ st with descriptors := insert fd st.descriptors }.setThread t
      (.reading f (some fd))) := by
  have hidle := h.idle (t := t) (by simp [ht]) (by simp [ht])
  refine h.setThread (fun l => by rw [ht]; rfl) (fun l => FilePhase.fits_idle (hidle l) (by simp)) ?_
    (h.keptMapping (by rw [ht]; rfl)) ?_
  · exact custody_take h.descriptors hfd (by rw [ht]; rfl) rfl
  · rintro g fd' heq
    cases heq
    exact ⟨_, hf, by simp⟩

/-! ## Files are made and deleted -/

/-- **The file at the place `f` changes**, and the thread `t` goes to another phase. -/
theorem Inv.setFile [DecidableEq φ] (h : Inv maxima st) {limiters : Limit → Limiter ι}
    {descriptors : Finset Nat} {f : φ} {file : Option OpenFile}
    (hsound : ∀ l, (limiters l).Sound ∧ (limiters l).maxAcquires = maxima l)
    (hheld : ∀ l, (limiters l).held + ((st.threads t).has l).toNat
        + (OpenFile.has l (st.files f)).toNat
      = (st.limiters l).held + (phase.has l).toNat + (OpenFile.has l file).toNat)
    (hidle : ∀ l, (limiters l).threads t = .idle) (hreleased : ∀ l, phase ≠ .released l)
    (hothers : ∀ l u, u ≠ t → (limiters l).threads u = (st.limiters l).threads u)
    (hdescriptors : Custody (holders FilePhase.descriptor OpenFile.descriptor
      (Function.update st.threads t phase) (Function.update st.files f file)) (· ∈ descriptors))
    (hmappings : Custody (holders FilePhase.mapping OpenFile.mapping
      (Function.update st.threads t phase) (Function.update st.files f file)) (· ∈ st.mappings))
    (hreading : ∀ f fd, phase ≠ .reading f fd) (hfree : ∀ u fd, st.threads u ≠ .reading f fd) :
    Inv maxima ⟨limiters, descriptors, st.mappings, Function.update st.threads t phase,
      Function.update st.files f file⟩ := by
  refine h.moved hsound (fun l => ?_) (fun l => FilePhase.fits_idle (hidle l) hreleased) hothers
    hdescriptors hmappings (fun g fd hg => absurd hg (hreading g fd)) fun u g fd _ hu => ?_
  · have hthread := inUse_thread l st.threads (Function.update st.files f file) t phase
    have hfile := inUse_file l st.threads st.files f file
    have heq := hheld l
    rw [h.held l] at heq
    omega
  · refine (h.reading u g fd hu).update ?_ file
    rintro rfl
    exact hfree u fd hu

theorem Inv.closeMapped [DecidableEq φ] (h : Inv maxima st) {f : φ} {fd base : Nat}
    (ht : st.threads t = .mapped fd base) (hf : st.files f = none) :
    Inv maxima (({ st with descriptors := st.descriptors.erase fd }.setFile f
      (some (.mmap base))).setThread t .idle) := by
  have hidle := h.idle (t := t) (by simp [ht]) (by simp [ht])
  refine h.setFile h.sound (fun l => ?_) hidle (by simp) (fun _ _ _ => rfl) ?_ ?_ (by simp)
    (h.not_reading hf)
  · rw [ht, hf]
    cases l <;> simp [FilePhase.has, OpenFile.has]
  · rw [holders_file (by rw [hf]; rfl)]
    exact custody_drop h.descriptors (by rw [ht]; rfl) rfl
  · exact custody_give h.mappings (by rw [ht]; rfl) (by rw [hf]; rfl) rfl rfl

theorem Inv.closeRefused [DecidableEq φ] (h : Inv maxima st) {f : φ} {fd : Nat}
    (ht : st.threads t = .refused fd) (hf : st.files f = none) :
    Inv maxima (({ st with descriptors := st.descriptors.erase fd }.setFile f
      (some (.pread none))).setThread t .idle) := by
  have hidle := h.idle (t := t) (by simp [ht]) (by simp [ht])
  refine h.setFile h.sound (fun l => ?_) hidle (by simp) (fun _ _ _ => rfl) ?_ ?_ (by simp)
    (h.not_reading hf)
  · rw [ht, hf]
    cases l <;> simp [FilePhase.has, OpenFile.has]
  · rw [holders_file (by rw [hf]; rfl)]
    exact custody_drop h.descriptors (by rw [ht]; rfl) rfl
  · rw [holders_file (by rw [hf]; rfl)]
    exact h.keptMapping (by rw [ht]; rfl)

theorem Inv.delete [DecidableEq φ] (h : Inv maxima st) {f : φ} {file : OpenFile}
    (ht : st.threads t = .idle) (hf : st.files f = some file)
    (hfree : ∀ u fd, st.threads u ≠ .reading f fd) :
    Inv maxima ((st.setFile f none).setThread t (destroying file)) := by
  have hidle := h.idle (t := t) (by simp [ht]) (by simp [ht])
  have hphase : ∀ l, destroying (φ := φ) file ≠ .released l := by
    intro l
    rcases file with ⟨_ | fd⟩ | base <;> simp [destroying]
  have hreading : ∀ (g : φ) fd, destroying file ≠ .reading g fd := by
    intro g fd
    rcases file with ⟨_ | fd⟩ | base <;> simp [destroying]
  refine h.setFile h.sound (fun l => ?_) hidle hphase (fun _ _ _ => rfl) ?_ ?_ hreading hfree
  · rw [ht, hf]
    rcases file with ⟨_ | fd⟩ | base <;> cases l <;>
      simp [destroying, FilePhase.has, OpenFile.has]
  · rcases file with ⟨_ | fd⟩ | base
    · rw [holders_file (by rw [hf]; rfl)]
      exact h.kept (by rw [ht]; rfl)
    · exact custody_receive h.descriptors (by rw [hf]; rfl) (by rw [ht]; rfl) rfl rfl
    · rw [holders_file (by rw [hf]; rfl)]
      exact h.kept (by rw [ht]; rfl)
  · rcases file with ⟨_ | fd⟩ | base
    · rw [holders_file (by rw [hf]; rfl)]
      exact h.keptMapping (by rw [ht]; rfl)
    · rw [holders_file (by rw [hf]; rfl)]
      exact h.keptMapping (by rw [ht]; rfl)
    · exact custody_receive h.mappings (by rw [hf]; rfl) (by rw [ht]; rfl) rfl rfl

/-! ## The limiters -/

/-- **The thread takes a step of the limiter `l`**, and goes to another phase with what it holds. -/
theorem Inv.setLimiter (h : Inv maxima st) {l : Limit} {s : Limiter ι}
    (hfollows : (st.limiters l).Follows s)
    (hothers : ∀ u, u ≠ t → s.threads u = (st.limiters l).threads u)
    (hheld : s.held + ((st.threads t).has l).toNat = (st.limiters l).held + (phase.has l).toNat)
    (hhas : ∀ l', l' ≠ l → phase.has l' = (st.threads t).has l')
    (hfits : phase.Fits l (s.threads t))
    (hfits' : ∀ l', l' ≠ l → phase.Fits l' ((st.limiters l').threads t))
    (hdescriptor : phase.descriptor = (st.threads t).descriptor)
    (hmapping : phase.mapping = (st.threads t).mapping)
    (hreading : ∀ f fd, phase ≠ .reading f fd) :
    Inv maxima ((st.setLimiter l s).setThread t phase) := by
  have hlimiters : ∀ l', (st.setLimiter l s).limiters l' = if l' = l then s else st.limiters l' :=
    fun l' => Function.update_apply _ _ _ _
  refine h.moved (fun l' => ?_) (fun l' => ?_) (fun l' => ?_) (fun l' u hu => ?_) (h.kept hdescriptor)
    (h.keptMapping hmapping) (fun f fd hf => absurd hf (hreading f fd))
    fun u f fd _ hu => h.reading u f fd hu
  · rw [hlimiters]
    split_ifs
    · next hl =>
      exact hl ▸ ⟨hfollows.sound, hfollows.maxAcquires.trans (h.sound l).2⟩
    · exact h.sound l'
  · show ((st.setLimiter l s).limiters l').held
      = inUse l' (Function.update st.threads t phase) st.files
    have hthread := inUse_thread l' st.threads st.files t phase
    have hold := h.held l'
    rw [hlimiters]
    split_ifs with hl
    · rw [hl] at hthread hold ⊢
      omega
    · rw [hhas l' hl] at hthread
      omega
  · rw [hlimiters]
    split_ifs with hl
    · rw [hl]
      exact hfits
    · exact hfits' l' hl
  · rw [hlimiters]
    split_ifs with hl
    · rw [hl]
      exact hothers u hu
    · rfl

theorem Inv.acquire [DecidableEq φ] (h : Inv maxima st) (hthreads : Fintype.card ι < 2 ^ 31) {l : Limit}
    {fd : Nat} {f : φ} (ht : st.threads t = .acquiring l fd) (hf : st.files f = none) :
    ∃ s b, (st.limiters l).acquireStep t = .ok (s, b)
      ∧ Inv maxima ((st.setLimiter l s).afterAcquire t f fd l b) := by
  obtain ⟨hnot, hidle⟩ := h.acquiring ht
  obtain ⟨s, b, hstep, hfollows, hothers, hheld, hgoing, hdone⟩ :=
    (h.sound l).1.acquireStep hthreads hnot
  refine ⟨s, b, hstep, ?_⟩
  -- no resource of a limiter belongs to a thread that is asking for one
  have hhas : ∀ l' l'' : Limit, FilePhase.has l' (.acquiring l'' fd : FilePhase φ) = false :=
    fun _ _ => rfl
  cases b with
  | none =>
      have hsame : (st.setLimiter l s).setThread t (st.threads t) = st.setLimiter l s := by
        simp [OpenFiles.setThread, OpenFiles.setLimiter]
      rw [afterAcquire, ← hsame]
      refine h.setLimiter hfollows hothers (by rw [hheld]; rfl) (fun _ _ => rfl) ?_ ?_ rfl rfl
        (by simp [ht])
      · rw [ht, FilePhase.Fits, if_pos rfl]
        exact hgoing rfl
      · intro l' hl
        exact h.fits l' t
  | some b =>
      have hs : s.threads t = .idle := hdone (by simp)
      cases l with
      | mmap =>
          cases b with
          | true =>
              refine h.setLimiter hfollows hothers ?_ (fun l' hl => ?_) hs hidle (by rw [ht]; rfl)
                (by rw [ht]; rfl) (by simp)
              · rw [hheld, ht, hhas]
                rfl
              · rw [ht, hhas]
                exact decide_eq_false hl
          | false =>
              refine h.setLimiter hfollows hothers (by rw [hheld, ht]; rfl) (fun l' hl => ?_)
                (FilePhase.fits_idle hs (by simp))
                (fun l' hl => FilePhase.fits_idle (hidle l' hl) (by simp)) (by rw [ht]; rfl)
                (by rw [ht]; rfl) (by simp)
              rw [ht, hhas, hhas]
      | fd =>
          cases b with
          | true =>
              have hlimiters : ∀ l',
                  ((st.setLimiter .fd s).setFile f (some (.pread (some fd)))).limiters l'
                    = if l' = .fd then s else st.limiters l' := fun l' => Function.update_apply _ _ _ _
              refine h.setFile (fun l' => ?_) (fun l' => ?_) (fun l' => ?_) (by simp)
                (fun l' u hu => ?_) ?_ ?_ (by simp) (h.not_reading hf)
              · rw [hlimiters]
                split_ifs
                · next hl =>
                  exact hl ▸ ⟨hfollows.sound, hfollows.maxAcquires.trans (h.sound .fd).2⟩
                · exact h.sound l'
              · rw [hlimiters, ht, hf]
                cases l' with
                | mmap => rfl
                | fd =>
                    rw [if_pos rfl, hheld]
                    rfl
              · rw [hlimiters]
                split_ifs with hl
                · exact hs
                · exact hidle l' hl
              · rw [hlimiters]
                split_ifs with hl
                · rw [hl]
                  exact hothers u hu
                · rfl
              · exact custody_give h.descriptors (by rw [ht]; rfl) (by rw [hf]; rfl) rfl rfl
              · rw [holders_file (by rw [hf]; rfl)]
                exact h.keptMapping (by rw [ht]; rfl)
          | false =>
              exact h.setLimiter hfollows hothers (by rw [hheld, ht]; rfl)
                (fun l' hl => by rw [ht]; rfl) hs hidle (by rw [ht]; rfl) (by rw [ht]; rfl) (by simp)

theorem Inv.releaseAdd (h : Inv maxima st) (hthreads : Fintype.card ι < 2 ^ 31) {l : Limit}
    (ht : st.threads t = .releasing l) :
    Inv maxima ((st.setLimiter l ((st.limiters l).releaseAdd t)).setThread t (.released l)) := by
  have hidle := h.idle (t := t) (by simp [ht]) (by simp [ht])
  -- the thread itself has a resource
  have hpos : 0 < (st.limiters l).held := by
    rw [h.held l]
    refine Nat.add_pos_left (Census.count_pos (t := t) ?_) _
    rw [ht]
    exact decide_eq_true rfl
  obtain ⟨hfollows, hheld, hphase, hothers⟩ := (h.sound l).1.releaseAdd hthreads (hidle l) hpos
  refine h.setLimiter hfollows hothers ?_ (fun l' hl => ?_) ?_ (fun l' hl => ?_) (by rw [ht]; rfl)
    (by rw [ht]; rfl) (by simp)
  · rw [ht, ← hheld]
    simp [FilePhase.has]
  · rw [ht]
    exact (decide_eq_false hl).symm
  · rw [FilePhase.Fits, if_pos rfl, hphase]
    exact ⟨_, rfl⟩
  · rw [FilePhase.Fits, if_neg hl]
    exact hidle l'

theorem Inv.releaseCheck (h : Inv maxima st) (hthreads : Fintype.card ι < 2 ^ 31) {l : Limit}
    (ht : st.threads t = .released l) :
    ∃ s, (st.limiters l).releaseCheck t = .ok s
      ∧ Inv maxima ((st.setLimiter l s).setThread t .idle) := by
  have hfits : ∀ l', (FilePhase.released l : FilePhase φ).Fits l' ((st.limiters l').threads t) := by
    intro l'
    rw [← ht]
    exact h.fits l' t
  have hreleased := hfits l
  rw [FilePhase.Fits, if_pos rfl] at hreleased
  obtain ⟨old, hold⟩ := hreleased
  obtain ⟨s, hcheck, hfollows, hheld, hidle, hothers⟩ := (h.sound l).1.releaseCheck hthreads hold
  refine ⟨s, hcheck, h.setLimiter hfollows hothers (by rw [hheld, ht]; rfl)
    (fun l' hl => by rw [ht]; rfl) hidle (fun l' hl => ?_) (by rw [ht]; rfl) (by rw [ht]; rfl)
    (by simp)⟩
  have hother := hfits l'
  rw [FilePhase.Fits, if_neg hl] at hother
  exact hother

/-! ## Every step -/

/-- **Every step returns, with the invariant**: no assertion fails, and what is closed, unmapped or
read is open or mapped. -/
theorem Inv.step [DecidableEq φ] (h : Inv maxima st) (hthreads : Fintype.card ι < 2 ^ 31)
    {r : Except Fault (OpenFiles ι φ)} (hstep : Step st r) : ∃ st', r = .ok st' ∧ Inv maxima st' := by
  cases hstep with
  | openFile ht hfd => exact ⟨_, rfl, h.openFile ht hfd⟩
  | acquire ht hf =>
      obtain ⟨s, b, hacquire, hinv⟩ := h.acquire hthreads ht hf
      exact ⟨_, by rw [hacquire]; rfl, hinv⟩
  | getFileSize ht =>
      exact ⟨_, rfl, h.goOn ht (by simp) (by simp) (by simp) (fun _ => rfl) rfl rfl (by simp)⟩
  | noFileSize ht =>
      exact ⟨_, rfl, h.goOn ht (by simp) (by simp) (by simp) (fun _ => rfl) rfl rfl (by simp)⟩
  | mmap ht hbase => exact ⟨_, rfl, h.mmap ht hbase⟩
  | noMmap ht =>
      exact ⟨_, rfl, h.goOn ht (by simp) (by simp) (by simp) (fun _ => rfl) rfl rfl (by simp)⟩
  | closeMapped ht hf =>
      exact ⟨_, by rw [h.closeFd (by rw [ht]; rfl)]; rfl, h.closeMapped ht hf⟩
  | closeFailed ht =>
      refine ⟨_, by rw [h.closeFd (by rw [ht]; rfl)]; rfl, ?_⟩
      exact h.close ht rfl (by simp) (by simp) (fun l => rfl) rfl rfl (by simp)
  | closeRefused ht hf =>
      exact ⟨_, by rw [h.closeFd (by rw [ht]; rfl)]; rfl, h.closeRefused ht hf⟩
  | delete ht hf hfree => exact ⟨_, rfl, h.delete ht hf hfree⟩
  | closeDeleted ht =>
      refine ⟨_, by rw [h.closeFd (by rw [ht]; rfl)]; rfl, ?_⟩
      exact h.close ht rfl (by simp) (by simp) (fun l => rfl) rfl rfl (by simp)
  | munmap ht =>
      exact ⟨_, by rw [h.munmap_ok (by rw [ht]; rfl)]; rfl, h.munmap ht⟩
  | releaseAdd ht => exact ⟨_, rfl, h.releaseAdd hthreads ht⟩
  | releaseCheck ht =>
      obtain ⟨s, hcheck, hinv⟩ := h.releaseCheck hthreads ht
      exact ⟨_, by rw [hcheck]; rfl, hinv⟩
  | @read t f file ht hf hfile =>
      refine ⟨_, rfl, h.goOn ht (by simp) (by simp) (by simp) (fun _ => rfl) rfl rfl ?_⟩
      rintro g fd heq
      cases heq
      exact ⟨file, hf, by simp [hfile]⟩
  | @readOpen t f fd ht hf hfd => exact ⟨_, rfl, h.readOpen ht hf hfd⟩
  | endRead ht =>
      refine ⟨_, by rw [h.access ht]; rfl, ?_⟩
      exact h.goOn ht (by simp) (by simp) (by simp) (fun _ => rfl) rfl rfl (by simp)
  | closeRead ht =>
      refine ⟨_, by rw [h.access ht, h.closeFd (by rw [ht]; rfl)]; rfl, ?_⟩
      exact h.close ht rfl (by simp) (by simp) (fun l => rfl) rfl rfl (by simp)

/-! ## Runs -/

/-- The maxima of the two limiters. -/
def maximum (maxMmaps maxOpenFiles : U32) : Limit → U32
  | .mmap => maxMmaps
  | .fd => maxOpenFiles

variable [DecidableEq φ] {maxMmaps maxOpenFiles : U32}

theorem Reachable.inv (h : Reachable maxMmaps maxOpenFiles st) (hthreads : Fintype.card ι < 2 ^ 31) :
    Inv (maximum maxMmaps maxOpenFiles) st := by
  induction h with
  | @construct mmap fd hmmap hfd =>
      have hnew : ∀ {n : U32} {s : Limiter ι}, Limiter.construct ι n = .ok s →
          s.held = 0 ∧ ∀ t, s.threads t = .idle := by
        intro n s hs
        obtain ⟨_, -, hs⟩ := bind_eq_ok.mp hs
        cases hs
        exact ⟨rfl, fun _ => rfl⟩
      have hcounts : ∀ l, inUse l (fun _ : ι => FilePhase.idle) (fun _ : φ => none) = 0 := by
        intro l
        rw [inUse, Census.count_const rfl, Census.count_const rfl]
      have hnone : ∀ (g : FilePhase φ → Option Nat) (g' : Option OpenFile → Option Nat),
          g .idle = none → g' none = none →
          Custody (holders g g' (fun _ : ι => FilePhase.idle) fun _ : φ => none)
            (· ∈ (∅ : Finset Nat)) := by
        intro g g' hg hg'
        refine (Custody.none_held (by simp)).congr (fun o => ?_) fun _ => Iff.rfl
        cases o with
        | inl t => exact hg
        | inr f => exact hg'
      refine ⟨fun l => ?_, fun l => ?_, fun l t => ?_, hnone _ _ rfl rfl, hnone _ _ rfl rfl, by simp⟩
      · cases l with
        | mmap => exact Limiter.sound_construct hmmap
        | fd => exact Limiter.sound_construct hfd
      · rw [hcounts]
        cases l with
        | mmap => exact (hnew hmmap).1
        | fd => exact (hnew hfd).1
      · refine FilePhase.fits_idle ?_ (by simp)
        cases l with
        | mmap => exact (hnew hmmap).2 t
        | fd => exact (hnew hfd).2 t
  | step _ hstep ih =>
      obtain ⟨st', heq, hinv⟩ := ih.step hthreads hstep
      cases heq
      exact hinv

/-- **Files open for random access are safe**: no assertion of the limiters fails; what is closed,
unmapped or read is open or mapped; no two files share a descriptor or a mapping; and at no time are
there more mappings or permanent descriptors than the limiters allow, or more descriptors than those
and one for each thread. -/
theorem files_safe (hthreads : Fintype.card ι < 2 ^ 31)
    (h : Reachable maxMmaps maxOpenFiles st) :
    (∀ r, Step st r → ∃ st', r = .ok st')
      ∧ (∀ f g fd, st.files f = some (.pread (some fd)) → st.files g = some (.pread (some fd)) → f = g)
      ∧ (∀ f g base, st.files f = some (.mmap base) → st.files g = some (.mmap base) → f = g)
      ∧ (Census.count (OpenFile.has .mmap) st.files : Int) ≤ maxMmaps.toInt
      ∧ (Census.count (OpenFile.has .fd) st.files : Int) ≤ maxOpenFiles.toInt
      ∧ (st.descriptors.card : Int) ≤ maxOpenFiles.toInt + Fintype.card ι := by
  have hinv := h.inv hthreads
  have hfd := hinv.files_le .fd
  refine ⟨fun r hstep => ?_, fun f g fd hf hg => ?_, fun f g base hf hg => ?_, hinv.files_le .mmap,
    hfd, ?_⟩
  · obtain ⟨st', heq, -⟩ := hinv.step hthreads hstep
    exact ⟨st', heq⟩
  · refine Sum.inr_injective (hinv.descriptors.sole (.inr f) (.inr g) fd ?_ ?_)
    · rw [holders, Sum.elim_inr, hf]; rfl
    · rw [holders, Sum.elim_inr, hg]; rfl
  · refine Sum.inr_injective (hinv.mappings.sole (.inr f) (.inr g) base ?_ ?_)
    · rw [holders, Sum.elim_inr, hf]; rfl
    · rw [holders, Sum.elim_inr, hg]; rfl
  · have hcard := hinv.card_descriptors
    have hfd' : (Census.count (OpenFile.has .fd) st.files : Int) ≤ maxOpenFiles.toInt := hfd
    omega

/-- A step that is known to return. -/
theorem Reachable.go {st st' : OpenFiles (Fin 2) (Fin 3)} (h : Reachable 1 1 st)
    {r : Except Fault (OpenFiles (Fin 2) (Fin 3))} (hstep : Step st r) (hr : r = .ok st') :
    Reachable 1 1 st' := by
  rw [hr] at hstep
  exact h.step hstep

/-- No thread is in one of the functions. There is room for one mapping and one permanent descriptor;
`limiters` says what is left of it, and what is held. -/
def settled (limiters : Limit → U32 × Nat) (descriptors mappings : Finset Nat)
    (files : Fin 3 → Option OpenFile) : OpenFiles (Fin 2) (Fin 3) where
  limiters l := ⟨1, (limiters l).1, fun _ => .idle, (limiters l).2⟩
  descriptors := descriptors
  mappings := mappings
  threads _ := .idle
  files := files

/-- When no thread is in one of the functions, none is in a limiter. -/
theorem Reachable.rests {st : OpenFiles (Fin 2) (Fin 3)} (h : Reachable 1 1 st)
    {limiters : Limit → U32 × Nat} {descriptors mappings : Finset Nat}
    {files : Fin 3 → Option OpenFile} (hthreads : ∀ t, st.threads t = .idle)
    (hlimiters : ∀ l, ((st.limiters l).acquiresAllowed, (st.limiters l).held) = limiters l)
    (hdescriptors : st.descriptors = descriptors) (hmappings : st.mappings = mappings)
    (hfiles : ∀ f, st.files f = files f) :
    Reachable 1 1 (settled limiters descriptors mappings files) := by
  have hinv := h.inv (by decide)
  have heq : st.limiters = (settled limiters descriptors mappings files).limiters := by
    funext l
    have hmax : (st.limiters l).maxAcquires = 1 := by
      rw [(hinv.sound l).2]
      cases l <;> rfl
    have hphases : (st.limiters l).threads = fun _ => .idle :=
      funext fun t => hinv.idle (by simp [hthreads t]) (by simp [hthreads t]) l
    show _ = (⟨1, (limiters l).1, fun _ => .idle, (limiters l).2⟩ : Limiter (Fin 2))
    rw [← hlimiters, ← hmax, ← hphases]
  have hst : Reachable 1 1 ⟨st.limiters, st.descriptors, st.mappings, st.threads, st.files⟩ := h
  rw [heq, hdescriptors, hmappings, funext hthreads, funext hfiles] at hst
  exact hst

/-- A call whose `mmap` fails closes the descriptor, and gives its share of the limiter back. -/
theorem settled_failed : Reachable 1 1 (settled (fun _ => (1, 0)) ∅ ∅ fun _ => none) := by
  have h₀ : Reachable (ι := Fin 2) (φ := Fin 3) 1 1 _ := .construct rfl rfl
  have h₁ := h₀.go (.openFile (t := 0) rfl (show 3 ∉ ∅ by decide)) rfl
  have h₂ := h₁.go (.acquire (t := 0) (f := 0) rfl rfl) rfl
  have h₃ := h₂.go (.acquire (t := 0) (f := 0) rfl rfl) rfl
  have h₄ := h₃.go (.getFileSize (t := 0) rfl) rfl
  have h₅ := h₄.go (.noMmap (t := 0) rfl) rfl
  have h₆ := h₅.go (.closeFailed (t := 0) rfl) rfl
  have h₇ := h₆.go (.releaseAdd (t := 0) rfl) rfl
  have h₈ := h₇.go (.releaseCheck (t := 0) rfl) rfl
  refine h₈.rests (fun t => ?_) (fun l => ?_) rfl rfl fun f => rfl
  · fin_cases t <;> rfl
  · cases l <;> rfl

/-- A file that is mapped, one with a permanent descriptor, and one without. -/
def threeFiles : Fin 3 → Option OpenFile
  | 0 => some (.mmap 100)
  | 1 => some (.pread (some 3))
  | 2 => some (.pread none)

theorem settled_mapped : Reachable 1 1 (settled (fun l => if l = .mmap then (0, 1) else (1, 0)) ∅
    {100} fun f => if f = 0 then some (.mmap 100) else none) := by
  have h₁ := settled_failed.go (.openFile (t := 0) rfl (show 3 ∉ ∅ by decide)) rfl
  have h₂ := h₁.go (.acquire (t := 0) (f := 0) rfl rfl) rfl
  have h₃ := h₂.go (.acquire (t := 0) (f := 0) rfl rfl) rfl
  have h₄ := h₃.go (.getFileSize (t := 0) rfl) rfl
  have h₅ := h₄.go (.mmap (t := 0) rfl (show 100 ∉ ∅ by decide)) rfl
  have h₆ := h₅.go (.closeMapped (t := 0) (f := 0) rfl rfl) rfl
  refine h₆.rests (fun t => ?_) (fun l => ?_) rfl rfl fun f => ?_
  · fin_cases t <;> rfl
  · cases l <;> rfl
  · fin_cases f <;> rfl

theorem settled_kept : Reachable 1 1 (settled (fun _ => (0, 1)) {3} {100}
    fun f => if f = 2 then none else threeFiles f) := by
  have h₁ := settled_mapped.go (.openFile (t := 0) rfl (show 3 ∉ ∅ by decide)) rfl
  have h₂ := h₁.go (.acquire (t := 0) (f := 1) rfl rfl) rfl
  have h₃ := h₂.go (.acquire (t := 0) (f := 1) rfl rfl) rfl
  have h₄ := h₃.go (.acquire (t := 0) (f := 1) rfl rfl) rfl
  have h₅ := h₄.go (.acquire (t := 0) (f := 1) rfl rfl) rfl
  have h₆ := h₅.go (.acquire (t := 0) (f := 1) rfl rfl) rfl
  have h₇ := h₆.go (.acquire (t := 0) (f := 1) rfl rfl) rfl
  refine h₇.rests (fun t => ?_) (fun l => ?_) rfl rfl fun f => ?_
  · fin_cases t <;> rfl
  · cases l <;> rfl
  · fin_cases f <;> rfl

theorem settled_three : Reachable 1 1 (settled (fun _ => (0, 1)) {3} {100} threeFiles) := by
  have h₁ := settled_kept.go (.openFile (t := 1) rfl (show 4 ∉ {3} by decide)) rfl
  have h₂ := h₁.go (.acquire (t := 1) (f := 2) rfl rfl) rfl
  have h₃ := h₂.go (.acquire (t := 1) (f := 2) rfl rfl) rfl
  have h₄ := h₃.go (.acquire (t := 1) (f := 2) rfl rfl) rfl
  have h₅ := h₄.go (.acquire (t := 1) (f := 2) rfl rfl) rfl
  have h₆ := h₅.go (.acquire (t := 1) (f := 2) rfl rfl) rfl
  have h₇ := h₆.go (.acquire (t := 1) (f := 2) rfl rfl) rfl
  have h₈ := h₇.go (.acquire (t := 1) (f := 2) rfl rfl) rfl
  have h₉ := h₈.go (.acquire (t := 1) (f := 2) rfl rfl) rfl
  have h₁₀ := h₉.go (.closeRefused (t := 1) (f := 2) rfl rfl) rfl
  refine h₁₀.rests (fun t => ?_) (fun l => ?_) (by decide) rfl fun f => ?_
  · fin_cases t <;> rfl
  · cases l <;> rfl
  · fin_cases f <;> rfl

/-- After a call that failed, with three files. -/
theorem files_safe_three :
    (∀ r, Step (settled (fun _ => (0, 1)) {3} {100} threeFiles) r → ∃ st', r = .ok st')
      ∧ (Census.count (OpenFile.has .mmap) threeFiles : Int) ≤ (1 : U32).toInt
      ∧ (Census.count (OpenFile.has .fd) threeFiles : Int) ≤ (1 : U32).toInt
      ∧ (({3} : Finset Nat).card : Int) ≤ (1 : U32).toInt + Fintype.card (Fin 2) := by
  obtain ⟨hsteps, -, -, hmmap, hfd, hcard⟩ := files_safe (by decide) settled_three
  exact ⟨hsteps, hmmap, hfd, hcard⟩

/-- **Nothing leaks**: when no thread is in one of the functions, the open descriptors and the
mappings are those of the files, and the limiters have all the rest. -/
theorem nothing_leaks (hthreads : Fintype.card ι < 2 ^ 31)
    (h : Reachable maxMmaps maxOpenFiles st) (hidle : ∀ t, st.threads t = .idle) :
    (∀ fd, fd ∈ st.descriptors ↔ ∃ f, st.files f = some (.pread (some fd)))
      ∧ (∀ base, base ∈ st.mappings ↔ ∃ f, st.files f = some (.mmap base))
      ∧ ∀ l, (st.limiters l).acquiresAllowed.toInt
        = (maximum maxMmaps maxOpenFiles l).toInt - Census.count (OpenFile.has l) st.files := by
  have hinv := h.inv hthreads
  have hholder : ∀ (g : FilePhase φ → Option Nat) (g' : Option OpenFile → Option Nat)
      (live : Finset Nat), Custody (holders g g' st.threads st.files) (· ∈ live) →
      g .idle = none → ∀ x, x ∈ live ↔ ∃ f, g' (st.files f) = some x := by
    intro g g' live hcustody hg x
    constructor
    · intro hx
      obtain ⟨o, ho⟩ := hcustody.held x hx
      cases o with
      | inl t =>
          rw [holders, Sum.elim_inl, hidle t, hg] at ho
          cases ho
      | inr f => exact ⟨f, ho⟩
    · rintro ⟨f, hf⟩
      exact hcustody.valid (.inr f) x hf
  refine ⟨fun fd => ?_, fun base => ?_, fun l => ?_⟩
  · rw [hholder _ _ _ hinv.descriptors rfl]
    refine exists_congr fun f => ?_
    rcases st.files f with _ | ⟨_ | own⟩ | base <;> simp [OpenFile.descriptor]
  · rw [hholder _ _ _ hinv.mappings rfl]
    refine exists_congr fun f => ?_
    rcases st.files f with _ | fd | base <;> simp [OpenFile.mapping]
  · obtain ⟨hsound, hmax⟩ := hinv.sound l
    have hlimiter : ∀ t, (st.limiters l).threads t = .idle := fun t =>
      hinv.idle (by simp [hidle t]) (by simp [hidle t]) l
    have hconst : ∀ p : LimiterPhase → Bool, p .idle = false →
        Census.count p (st.limiters l).threads = 0 := by
      intro p hp
      rw [show (st.limiters l).threads = fun _ => .idle from funext hlimiter]
      exact Census.count_const hp
    have hthreadsIdle : Census.count (FilePhase.has l) st.threads = 0 := by
      rw [show st.threads = fun _ => .idle from funext hidle]
      exact Census.count_const rfl
    have hcounter := hsound.counter_toInt hthreads
    rw [hmax, Limiter.acquired, Limiter.window, hconst Limiter.granting rfl,
      hconst Limiter.inWindow rfl, hinv.held l, inUse, hthreadsIdle] at hcounter
    rw [hcounter]
    omega

theorem nothing_leaks_three :
    (∀ fd, fd ∈ ({3} : Finset Nat) ↔ ∃ f, threeFiles f = some (.pread (some fd)))
      ∧ (∀ base, base ∈ ({100} : Finset Nat) ↔ ∃ f, threeFiles f = some (.mmap base))
      ∧ ∀ l, (0 : U32).toInt
        = (maximum 1 1 l).toInt - Census.count (OpenFile.has l) threeFiles :=
  nothing_leaks (by decide) settled_three fun _ => rfl

end OpenFiles

end SimpleLeveldb
