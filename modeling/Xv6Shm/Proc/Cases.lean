import Xv6Shm.Proc.Image
import Xv6Shm.Shm.Effects

/-!
# What each process call can do

One inversion theorem for each of `sbrk`, `fork`, `exec`, `exit` and `wait`. The loops of `fork` and
`exec` over the attachment array call `updateShmSeg` once for every run of equal identifiers; both
are one traversal of the list of these.
-/

namespace Xv6Shm

open Fallible Function

variable {pid lastShmid n : ℤ} {remaining i : ℕ} {table : ShmPgTable}

/-- The identifiers that start a new run, from cell `i` on; `lastShmid` is that of the run before.
-/
def runHeads (counts : AttachedShmsegs → Bool) (shmsegs : ℕ → AttachedShmsegs) : ℕ → ℕ → ℤ → List ℤ
  | 0, _, _ => []
  | remaining + 1, i, lastShmid =>
    if counts (shmsegs i) ∧ (shmsegs i).shmid ≠ lastShmid then
      (shmsegs i).shmid :: runHeads counts shmsegs remaining (i + 1) (shmsegs i).shmid
    else runHeads counts shmsegs remaining (i + 1) lastShmid

/-- The identifiers `fork` counts: every recorded one, attached or not. -/
def inheritedIds (shmsegs : ℕ → AttachedShmsegs) : List ℤ :=
  runHeads (fun entry ↦ entry.shmid != -1) shmsegs shmMaxSeg 0 (-2)

/-- The identifiers `exec` counts off: those of attached slots. -/
def droppedIds (shmsegs : ℕ → AttachedShmsegs) : List ℤ :=
  runHeads AttachedShmsegs.isAttached shmsegs shmMaxSeg 0 (-2)

/-- Call `updateShmSeg` for each identifier of a list. -/
def updateAll (clock : Clock) (pid flag : ℤ) : List ℤ → ShmPgTable → Except Fault ShmPgTable
  | [], table => pure table
  | shmid :: rest, table => do
    let table ← updateShmSeg table clock shmid pid flag
    updateAll clock pid flag rest table

variable {clock : Clock} {shmsegs : ℕ → AttachedShmsegs} {kernel kernel' : Kernel} {p : ℕ}
  {result : ℤ}

theorem inheritLoop_eq :
    inheritLoop clock pid shmsegs remaining i lastShmid table = updateAll clock pid 0 (runHeads (fun
      entry ↦ entry.shmid != -1) shmsegs remaining i lastShmid) table := by
  induction remaining generalizing i lastShmid table with
  | zero => rfl
  | succ remaining ih =>
    rw [inheritLoop, runHeads]
    by_cases hskip : (shmsegs i).shmid = -1 ∨ (shmsegs i).shmid = lastShmid
    · rw [if_pos hskip, if_neg (by simpa [or_iff_not_imp_left] using hskip), ih]
    · rw [if_neg hskip, if_pos (by simpa using hskip), updateAll]
      simp only [ih]

theorem dropLoop_eq :
    dropLoop clock shmsegs remaining i lastShmid table = updateAll clock (-1) 1 (runHeads
      AttachedShmsegs.isAttached shmsegs remaining i lastShmid) table := by
  induction remaining generalizing i lastShmid table with
  | zero => rfl
  | succ remaining ih =>
    rw [dropLoop, runHeads]
    by_cases hattached : (shmsegs i).isAttached = true
    · rw [if_pos hattached]
      by_cases hsame : (shmsegs i).shmid = lastShmid
      · rw [if_pos hsame, if_neg (by simp [hsame]), ih]
      · rw [if_neg hsame, if_pos ⟨hattached, hsame⟩, updateAll]
        simp only [ih]
    · rw [if_neg hattached, if_neg (by simp [hattached]), ih]

theorem updateAll_invariant {flag : ℤ} (holds : ShmPgTable → Prop) {shmids : List ℤ}
    {next : ShmPgTable} (hstep : ∀ shmid ∈ shmids, ∀ table next, holds table → updateShmSeg
      table clock shmid pid flag = .ok next → holds next) (htable : holds table)
    (h : updateAll clock pid flag shmids table = .ok next) : holds next := by
  induction shmids generalizing table next with
  | nil =>
    cases h
    exact htable
  | cons shmid rest ih =>
    rw [updateAll] at h
    obtain ⟨middle, hfirst, hrest⟩ := bind_eq_ok.mp h
    exact ih (fun other hother ↦ hstep other (List.mem_cons_of_mem shmid hother))
      (hstep shmid List.mem_cons_self table middle htable hfirst) hrest

theorem mem_runHeads {counts : AttachedShmsegs → Bool} {shmid : ℤ}
    (h : shmid ∈ runHeads counts shmsegs remaining i lastShmid) :
    ∃ j, i ≤ j ∧ j < i + remaining ∧ counts (shmsegs j) = true ∧ (shmsegs j).shmid = shmid := by
  induction remaining generalizing i lastShmid with
  | zero => cases h
  | succ remaining ih =>
    have hlater (hmem : ∃ j, i + 1 ≤ j ∧ j < i + 1 + remaining ∧ counts (shmsegs j) = true ∧
        (shmsegs j).shmid = shmid) :
        ∃ j, i ≤ j ∧ j < i + (remaining + 1) ∧ counts (shmsegs j) = true ∧
          (shmsegs j).shmid = shmid := by
      obtain ⟨j, hle, hlt, hcounts, hid⟩ := hmem
      exact ⟨j, by omega, by omega, hcounts, hid⟩
    rw [runHeads] at h
    split at h
    · rename_i hhead
      rcases List.mem_cons.mp h with rfl | hrest
      · exact ⟨i, le_rfl, by omega, hhead.1, rfl⟩
      · exact hlater (ih hrest)
    · exact hlater (ih h)

/-- `sbrk` moves pages between the free list and the process, below `HEAPLIMIT`. -/
structure Resized (kernel : Kernel) (p : ℕ) (vm : Vm) (sz : ℕ) (kernel' : Kernel) : Prop where
  result : kernel' = { kernel with kmem := vm.kmem }.setProc p
    { kernel.proc p with pgdir := vm.pgdir, sz := sz }
  frames : vm.frames = Vm.frames ⟨kernel.kmem, (kernel.proc p).pgdir⟩
  window : (kernel.proc p).pgdir.SameWindow vm.pgdir
  size : sz < heapLimit

theorem growproc_cases
    (hsz : (kernel.proc p).sz < heapLimit) (h : growproc kernel p n = .ok (kernel', result)) :
    kernel' = kernel ∨ ∃ vm sz, Resized kernel p vm sz kernel' := by
  unfold growproc at h
  dsimp only at h
  split at h
  · obtain ⟨⟨vm, sz⟩, hgrow, h⟩ := bind_eq_ok.mp h
    have hframes := (allocuvm_moves hgrow).frames_eq
    have hwindow := (allocuvm_moves hgrow).window
    split at h
    · cases h
      exact Or.inr ⟨vm, _, rfl, hframes, hwindow, hsz⟩
    · rename_i hnonzero
      obtain ⟨hmax, hnew⟩ := (allocuvm_size hgrow).resolve_left hnonzero
      cases h
      exact Or.inr ⟨vm, sz, rfl, hframes, hwindow, hmax ▸ max_lt hsz hnew⟩
  · split at h
    · obtain ⟨⟨vm, sz⟩, hshrink, h⟩ := bind_eq_ok.mp h
      have hframes := (deallocuvm_moves hsz.le hshrink).frames_eq
      have hwindow := (deallocuvm_moves hsz.le hshrink).window
      have hmin := deallocuvm_size hsz.le hshrink
      split at h
      · cases h
        exact Or.inr ⟨vm, _, rfl, hframes, hwindow, hsz⟩
      · cases h
        exact Or.inr ⟨vm, sz, rfl, hframes, hwindow, hmin ▸ lt_of_le_of_lt (min_le_left _ _) hsz⟩
    · cases h
      exact Or.inl rfl

theorem sysSbrk_cases
    (hsz : (kernel.proc p).sz < heapLimit) (h : sysSbrk kernel p n = .ok (kernel', result)) :
    kernel' = kernel ∨ ∃ vm sz, Resized kernel p vm sz kernel' := by
  obtain ⟨⟨grown, value⟩, hgrow, h⟩ := bind_eq_ok.mp h
  cases h
  exact growproc_cases hsz hgrow

/-- A failed `fork` may change an unused slot and the order of the free list. -/
structure ForkFailed (kernel kernel' : Kernel) : Prop where
  table : kernel'.shmpgtable = kernel.shmpgtable
  info : kernel'.shmInfo = kernel.shmInfo
  frames : (kernel'.kmem.freelist : Multiset ℕ) = kernel.kmem.freelist
  procs : ∀ q, kernel'.proc q = kernel.proc q ∨ (kernel.proc q).state = .unused ∧
    ∃ pid kstack, kernel'.proc q = { kernel.proc q with pid := pid, kstack := kstack }

/-- The process a successful `fork` of process `p` puts into slot `np`. -/
def forkChild (kernel : Kernel) (p np : ℕ) (kstack : ℕ) (pgdir : Pgdir) : Proc :=
  { kernel.proc np with
    state := .runnable
    pid := kernel.nextpid
    kstack := kstack
    pgdir := pgdir
    sz := (kernel.proc p).sz
    parent := some p
    shmsegs :=
      copyShmsegs (if (kernel.proc p).pid > 2 then (kernel.proc p).shmsegs else fun _ ↦ .none)
        (kernel.proc np).shmsegs }

/-- A successful `fork`. -/
structure Forked (kernel : Kernel) (p : ℕ) (clock : Clock) (np kstack : ℕ) (pgdir : Pgdir)
    (kernel' : Kernel) : Prop where
  slot_lt : np < nProc
  unused : (kernel.proc np).state = .unused
  procs : kernel'.proc = update kernel.proc np (forkChild kernel p np kstack pgdir)
  frames : (kernel.kmem.freelist : Multiset ℕ) =
    {kstack} + ((kernel'.kmem.freelist : Multiset ℕ) + pgdir.frames)
  window : pgdir.EmptyWindow
  info : kernel'.shmInfo = kernel.shmInfo
  table : updateAll clock kernel.nextpid 0
    (if (kernel.proc p).pid > 2 then inheritedIds (kernel.proc p).shmsegs else [])
    kernel.shmpgtable = .ok kernel'.shmpgtable

theorem allocproc_cases {result : Option ℕ} (h : allocproc kernel = (kernel', result)) :
    (result = none ∧ ForkFailed kernel kernel') ∨
      ∃ np kstack kmem, result = some np ∧ np < nProc ∧ (kernel.proc np).state = .unused ∧
        kernel.kmem.kalloc = some (kstack, kmem) ∧
        kernel' = { kernel with
          kmem := kmem
          nextpid := kernel.nextpid + 1
          proc := update kernel.proc np { kernel.proc np with
            state := .embryo, pid := kernel.nextpid, kstack := kstack } } := by
  unfold allocproc at h
  split at h
  · cases h
    exact Or.inl ⟨rfl, rfl, rfl, rfl, fun q ↦ Or.inl rfl⟩
  · rename_i np hfind
    have hunused : (kernel.proc np).state = .unused := by
      simpa using List.find?_some hfind
    have hnp : np < nProc := List.mem_range.mp (List.mem_of_find?_eq_some hfind)
    dsimp only at h
    split at h
    · cases h
      refine Or.inl ⟨rfl, rfl, rfl, rfl, fun q ↦ ?_⟩
      by_cases hq : q = np
      · subst hq
        rw [Kernel.setProc_proc_self, ← hunused]
        exact Or.inr ⟨rfl, _, _, rfl⟩
      · exact Or.inl (Kernel.setProc_proc_of_ne _ _ hq)
    · rename_i kstack kmem hkalloc
      cases h
      exact Or.inr ⟨np, kstack, kmem, rfl, hnp, hunused, hkalloc, rfl⟩

theorem fork_cases
    (hsz : (kernel.proc p).sz < heapLimit) (h : fork kernel p clock = .ok (kernel', result)) :
    (result = -1 ∧ ForkFailed kernel kernel') ∨
      (result = kernel.nextpid ∧ ∃ np kstack pgdir, Forked kernel p clock np kstack pgdir kernel') := by
  unfold fork at h
  generalize halloc : allocproc kernel = allocated at h
  obtain ⟨kernel₁, slot⟩ := allocated
  rcases allocproc_cases halloc with
    ⟨rfl, hfailed⟩ | ⟨np, kstack, kmem₁, rfl, hnp, hunused, hkalloc, rfl⟩
  · cases h
    exact Or.inl ⟨rfl, hfailed⟩
  · dsimp only at h
    rw [update_self] at h
    have hstack := Kmem.freelist_of_kalloc hkalloc
    obtain ⟨⟨kmem₂, copied⟩, hcopy, h⟩ := bind_eq_ok.mp h
    have hframes := (copyuvm_builds hsz hcopy).freelist
    cases copied with
    | none =>
      obtain ⟨kmem₃, hkfree, h⟩ := bind_eq_ok.mp h
      cases h
      refine Or.inl ⟨rfl, rfl, rfl, ?_, fun q ↦ ?_⟩
      · rw [Kernel.setProc_kmem, Kmem.freelist_of_kfree hkfree, hstack, hframes, builtFrames_none,
          add_zero]
      · by_cases hq : q = np
        · subst hq
          rw [Kernel.setProc_proc_self, ← hunused]
          exact Or.inr ⟨rfl, _, _, rfl⟩
        · left
          rw [Kernel.setProc_proc_of_ne _ _ hq]
          exact update_of_ne hq _ _
    | some pgdir =>
      have hwindow := (copyuvm_builds hsz hcopy).window _ rfl
      dsimp only at h
      split at h
      · rename_i hpid
        obtain ⟨table, hloop, h⟩ := bind_eq_ok.mp h
        cases h
        refine Or.inr ⟨rfl, np, kstack, pgdir, hnp, hunused, ?_, ?_, hwindow, rfl, ?_⟩
        · unfold forkChild
          rw [if_pos hpid]
          exact update_idem _ _ _
        · rw [hstack, hframes, builtFrames_some]
          rfl
        · rw [if_pos hpid, inheritedIds, ← inheritLoop_eq, hloop]
          rfl
      · rename_i hpid
        cases h
        refine Or.inr ⟨rfl, np, kstack, pgdir, hnp, hunused, ?_, ?_, hwindow, rfl, ?_⟩
        · unfold forkChild
          rw [if_neg hpid]
          exact update_idem _ _ _
        · rw [hstack, hframes, builtFrames_some]
          rfl
        · rw [if_neg hpid]
          rfl

/-- A successful `exec`. -/
structure Execed (kernel : Kernel) (p : ℕ) (clock : Clock) (image : ExecImage) (kernel' : Kernel) :
    Prop where
  procs : kernel'.proc = update kernel.proc p { kernel.proc p with
    pgdir := image.pgdir, sz := image.sz, shmsegs := droppedShmsegs (kernel.proc p).shmsegs }
  frames : (kernel'.kmem.freelist : Multiset ℕ) + image.pgdir.frames =
    (kernel.kmem.freelist : Multiset ℕ) + (kernel.proc p).pgdir.frames
  window : image.pgdir.EmptyWindow
  size : image.sz < heapLimit
  info : kernel'.shmInfo = kernel.shmInfo
  table : updateAll clock (-1) 1 (droppedIds (kernel.proc p).shmsegs) kernel.shmpgtable =
    .ok kernel'.shmpgtable

theorem exec_cases {file : Option ExecFile} {argv : List (List UInt8)}
    (h : exec kernel p clock file argv = .ok (kernel', result)) :
    (result = -1 ∧ ∃ kmem : Kmem, kernel' = { kernel with kmem := kmem } ∧
        (kmem.freelist : Multiset ℕ) = kernel.kmem.freelist) ∨
      (result = 0 ∧ ∃ image, Execed kernel p clock image kernel') := by
  cases file with
  | none =>
    cases h
    exact Or.inl ⟨rfl, kernel.kmem, rfl, rfl⟩
  | some file =>
    obtain ⟨⟨kmem₁, built⟩, himage, h⟩ := bind_eq_ok.mp h
    obtain ⟨hframes, himageSpec⟩ := execImage_spec himage
    cases built with
    | none =>
      cases h
      rw [Option.map_none, builtFrames_none, add_zero] at hframes
      exact Or.inl ⟨rfl, kmem₁, rfl, hframes.symm⟩
    | some image =>
      obtain ⟨hwindow, hsize⟩ := himageSpec image rfl
      rw [Option.map_some, builtFrames_some] at hframes
      obtain ⟨table, hloop, h⟩ := bind_eq_ok.mp h
      obtain ⟨kmem₂, hfree, h⟩ := bind_eq_ok.mp h
      cases h
      refine Or.inr ⟨rfl, image, rfl, ?_, hwindow, hsize, rfl, ?_⟩
      · rw [Kernel.setProc_kmem, (freevm_freelist hfree).1, hframes, Vm.frames]
        abel
      · rw [droppedIds, ← dropLoop_eq, hloop]
        rfl

theorem exit_cases (h : exit kernel p = .ok (kernel', result)) :
    kernel'.kmem = kernel.kmem ∧ kernel'.shmpgtable = kernel.shmpgtable ∧
      kernel'.shmInfo = kernel.shmInfo ∧
      ∀ q, ∃ parent, kernel'.proc q = { kernel.proc q with
        parent := parent, state := if q = p then .zombie else (kernel.proc q).state } := by
  unfold exit at h
  split at h
  · cases h
  · cases h
    refine ⟨rfl, rfl, rfl, fun q ↦ ?_⟩
    by_cases hq : q = p
    · subst hq
      rw [Kernel.setProc_proc_self, if_pos rfl]
      dsimp only
      split
      · exact ⟨_, rfl⟩
      · exact ⟨_, rfl⟩
    · rw [Kernel.setProc_proc_of_ne _ _ hq, if_neg hq]
      dsimp only
      split
      · exact ⟨_, rfl⟩
      · exact ⟨_, rfl⟩

theorem wait_cases (h : wait kernel p = .ok (kernel', result)) :
    kernel' = kernel ∨ ∃ q kmem, q < nProc ∧ (kernel.proc q).state = .zombie ∧
      (kmem.freelist : Multiset ℕ) = {(kernel.proc q).kstack} +
        ((kernel.kmem.freelist : Multiset ℕ) + (kernel.proc q).pgdir.frames) ∧
      kernel' = { kernel with kmem := kmem }.setProc q { kernel.proc q with
        kstack := 0, pid := 0, parent := none, killed := false, state := .unused } := by
  unfold wait at h
  dsimp only at h
  split at h
  · rename_i q hfind
    have hmatch := List.find?_some hfind
    have hq : q < nProc := List.mem_range.mp (List.mem_of_find?_eq_some hfind)
    obtain ⟨kmem₁, hkfree, h⟩ := bind_eq_ok.mp h
    obtain ⟨kmem₂, hfree, h⟩ := bind_eq_ok.mp h
    cases h
    refine Or.inr ⟨q, kmem₂, hq, ?_, ?_, rfl⟩
    · rw [Bool.and_eq_true] at hmatch
      simpa using hmatch.2
    · rw [(freevm_freelist hfree).1, Vm.frames]
      rw [Kmem.freelist_of_kfree hkfree, add_assoc]
  · split at h
    · cases h
      exact Or.inl rfl
    · cases h

end Xv6Shm
