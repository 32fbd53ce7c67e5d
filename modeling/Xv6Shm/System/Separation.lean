import Xv6Shm.System.Custody

/-!
# Private and shared pages at the end of an address space

`freevm` tells shared pages from private ones by their addresses alone. `FreevmCall` lists the
places where a call gives an address space to `freevm`. At each of them the private pages, the page
tables and the directory are released, each once, and no frame of a segment is, whatever is still
attached.
-/

namespace Xv6Shm

open Fallible Kernel

/-- `setupkvm` gives up with the address space in `vm`. -/
inductive SetupFails (kmem : Kmem) : Vm → Prop
  | rows {page : ℕ} {rest : Kmem} {vm : Vm} (hkalloc : kmem.kalloc = some (page, rest))
      (hloop : setupkvmLoop kmap ⟨rest.memset page 0 pgSize, ⟨page, fun _ ↦ none⟩⟩ =
        .ok (vm, false)) : SetupFails kmem vm

/-- `copyuvm` gives up with the address space in `vm`. -/
inductive CopyFails (kmem : Kmem) (parent : Pgdir) (sz : ℕ) : Vm → Prop
  | setup {vm : Vm} (h : SetupFails kmem vm) : CopyFails kmem parent sz vm
  | pages {base : Kmem} {d : Pgdir} {vm : Vm} (hsetup : setupkvm kmem = .ok (base, some d))
      (hloop : copyuvmLoop parent ((sz + (pgSize - 1)) / pgSize) ⟨base, d⟩ 0 = .ok (vm, false)) :
      CopyFails kmem parent sz vm

/-- `exec` jumps to `bad` with the address space in `vm`. -/
inductive ExecFails (kmem : Kmem) (file : ExecFile) (argv : List (List UInt8)) : Vm → Prop
  | setup {vm : Vm} (h : SetupFails kmem vm) : ExecFails kmem file argv vm
  | segments {base : Kmem} {pgdir : Pgdir} {vm : Vm} {sz : ℕ}
      (hsetup : setupkvm kmem = .ok (base, some pgdir))
      (hload : loadSegments file (file.uint16 44) ⟨base, pgdir⟩ 0 (file.uint32 28) =
        .ok (vm, sz, false)) : ExecFails kmem file argv vm
  | stack {base : Kmem} {pgdir : Pgdir} {loaded vm : Vm} {sz : ℕ}
      (hsetup : setupkvm kmem = .ok (base, some pgdir))
      (hload : loadSegments file (file.uint16 44) ⟨base, pgdir⟩ 0 (file.uint32 28) =
        .ok (loaded, sz, true))
      (hstack : buildStack loaded sz (file.uint32 24) argv = .ok (vm, none)) :
      ExecFails kmem file argv vm

/-- The child that `wait` finds. -/
def zombieChild (kernel : Kernel) (p : ℕ) : Option ℕ :=
  (List.range nProc).find? fun q ↦
    decide ((kernel.proc q).parent = some p) && (kernel.proc q).state == .zombie

/-- The call of process `p` passes the address space in `vm` to `freevm`. -/
inductive FreevmCall (kernel : Kernel) (p : ℕ) (clock : Clock) : Call → Vm → Prop
  | wait {q : ℕ} {kmem : Kmem} (hfind : zombieChild kernel p = some q)
      (hkfree : kernel.kmem.kfree (kernel.proc q).kstack = .ok kmem) :
      FreevmCall kernel p clock .wait ⟨kmem, (kernel.proc q).pgdir⟩
  | exec {file : ExecFile} {argv : List (List UInt8)} {kmem : Kmem} {image : ExecImage}
      {table : ShmPgTable} (himage : execImage kernel.kmem file argv = .ok (kmem, some image))
      (hdrop : dropLoop clock (kernel.proc p).shmsegs shmMaxSeg 0 (-2) kernel.shmpgtable =
        .ok table) :
      FreevmCall kernel p clock (.exec (some file) argv) ⟨kmem, (kernel.proc p).pgdir⟩
  | execFails {file : ExecFile} {argv : List (List UInt8)} {vm : Vm}
      (h : ExecFails kernel.kmem file argv vm) :
      FreevmCall kernel p clock (.exec (some file) argv) vm
  | forkFails {np : ℕ} {allocated : Kernel} {vm : Vm}
      (halloc : allocproc kernel = (allocated, some np))
      (h : CopyFails allocated.kmem (kernel.proc p).pgdir (kernel.proc p).sz vm) :
      FreevmCall kernel p clock .fork vm

section Builders

variable {kmem next : Kmem} {parent : Pgdir} {sz : ℕ} {file : ExecFile} {argv : List (List UInt8)}

/-- Without a result, `setupkvm` has taken no page or has called `freevm`. -/
theorem setupkvm_none (h : setupkvm kmem = .ok (next, none)) :
    next = kmem ∨ ∃ vm, SetupFails kmem vm ∧ freevm vm = .ok next := by
  unfold setupkvm at h
  split at h
  · cases h
    exact Or.inl rfl
  · rename_i page rest hkalloc
    rw [if_neg (by decide)] at h
    obtain ⟨⟨vm, ok⟩, hloop, h⟩ := bind_eq_ok.mp h
    cases ok with
    | true => cases h
    | false =>
      obtain ⟨freed, hfree, h⟩ := bind_eq_ok.mp h
      cases h
      exact Or.inr ⟨vm, .rows hkalloc hloop, hfree⟩

theorem copyuvm_none (h : copyuvm kmem parent sz = .ok (next, none)) :
    next = kmem ∨ ∃ vm, CopyFails kmem parent sz vm ∧ freevm vm = .ok next := by
  obtain ⟨⟨base, built⟩, hsetup, h⟩ := bind_eq_ok.mp h
  cases built with
  | none =>
    cases h
    exact (setupkvm_none hsetup).imp id fun ⟨vm, hfails, hfree⟩ ↦ ⟨vm, .setup hfails, hfree⟩
  | some d =>
    obtain ⟨⟨vm, ok⟩, hloop, h⟩ := bind_eq_ok.mp h
    cases ok with
    | true => cases h
    | false =>
      obtain ⟨freed, hfree, h⟩ := bind_eq_ok.mp h
      cases h
      exact Or.inr ⟨vm, .pages hsetup hloop, hfree⟩

theorem execImage_none (h : execImage kmem file argv = .ok (next, none)) :
    next = kmem ∨ ∃ vm, ExecFails kmem file argv vm ∧ freevm vm = .ok next := by
  unfold execImage at h
  split at h
  · cases h
    exact Or.inl rfl
  · obtain ⟨⟨base, built⟩, hsetup, h⟩ := bind_eq_ok.mp h
    cases built with
    | none =>
      cases h
      exact (setupkvm_none hsetup).imp id fun ⟨vm, hfails, hfree⟩ ↦ ⟨vm, .setup hfails, hfree⟩
    | some pgdir =>
      obtain ⟨⟨loaded, sz, ok⟩, hload, h⟩ := bind_eq_ok.mp h
      cases ok with
      | false =>
        obtain ⟨freed, hfree, h⟩ := bind_eq_ok.mp h
        cases h
        exact Or.inr ⟨loaded, .segments hsetup hload, hfree⟩
      | true =>
        obtain ⟨⟨vm, image⟩, hstack, h⟩ := bind_eq_ok.mp h
        cases image with
        | some image => cases h
        | none =>
          obtain ⟨freed, hfree, h⟩ := bind_eq_ok.mp h
          cases h
          exact Or.inr ⟨vm, .stack hsetup hload hstack, hfree⟩

variable {vm : Vm}

theorem SetupFails.frames (h : SetupFails kmem vm) : vm.frames = (kmem.freelist : Multiset ℕ) := by
  obtain ⟨hkalloc, hloop⟩ := h
  exact (setupkvm_start hkalloc hloop).1

theorem CopyFails.frames (hsz : sz < heapLimit) (h : CopyFails kmem parent sz vm) :
    vm.frames = (kmem.freelist : Multiset ℕ) := by
  cases h with
  | setup h => exact h.frames
  | pages hsetup hloop =>
    rw [(copyuvmLoop_moves hsz (by decide) (copyuvm_room sz) hloop).frames_eq,
      (setupkvm_builds hsetup).freelist, builtFrames_some, Vm.frames]

theorem ExecFails.frames (h : ExecFails kmem file argv vm) :
    vm.frames = (kmem.freelist : Multiset ℕ) := by
  cases h with
  | setup h => exact h.frames
  | segments hsetup hload =>
    rw [(loadSegments_spec hload (by decide)).1, (setupkvm_builds hsetup).freelist, builtFrames_some,
      Vm.frames]
  | stack hsetup hload hstack =>
    obtain ⟨hloaded, -, hsize⟩ := loadSegments_spec hload (by decide)
    rw [(buildStack_spec hsize hstack).1, hloaded, (setupkvm_builds hsetup).freelist, builtFrames_some,
      Vm.frames]

end Builders

section Calls

variable {kernel kernel' : Kernel} {p : ℕ} {clock : Clock} {call : Call} {vm : Vm} {result : ℤ}

theorem wait_calls_freevm (h : wait kernel p = .ok (kernel', result)) : kernel' = kernel ∨
      ∃ vm, FreevmCall kernel p clock .wait vm ∧ freevm vm = .ok kernel'.kmem := by
  unfold wait at h
  dsimp only at h
  split at h
  · rename_i q hfind
    obtain ⟨kmem, hkfree, h⟩ := bind_eq_ok.mp h
    obtain ⟨freed, hfree, h⟩ := bind_eq_ok.mp h
    cases h
    exact Or.inr ⟨_, .wait hfind hkfree, hfree⟩
  · split at h
    · cases h
      exact Or.inl rfl
    · cases h

theorem exec_calls_freevm {file : ExecFile} {argv : List (List UInt8)}
    (h : exec kernel p clock (some file) argv = .ok (kernel', result)) :
    kernel'.kmem = kernel.kmem ∨ ∃ vm, FreevmCall kernel p clock (.exec (some file) argv) vm ∧
      freevm vm = .ok kernel'.kmem := by
  obtain ⟨⟨kmem, image⟩, himage, h⟩ := bind_eq_ok.mp h
  cases image with
  | none =>
    cases h
    exact (execImage_none himage).imp id fun ⟨vm, hfails, hfree⟩ ↦ ⟨vm, .execFails hfails, hfree⟩
  | some image =>
    obtain ⟨table, hdrop, h⟩ := bind_eq_ok.mp h
    obtain ⟨freed, hfree, h⟩ := bind_eq_ok.mp h
    cases h
    exact Or.inr ⟨_, .exec himage hdrop, hfree⟩

/-- A `fork` that has got a process slot has copied the address space, or has called `freevm` unless
there was no page left, and then released the kernel stack. -/
theorem fork_calls_freevm (h : fork kernel p clock = .ok (kernel', result)) :
    (∃ allocated, allocproc kernel = (allocated, none) ∧ kernel' = allocated) ∨
      ∃ allocated np, allocproc kernel = (allocated, some np) ∧
        ((∃ pgdir, copyuvm allocated.kmem (kernel.proc p).pgdir (kernel.proc p).sz =
            .ok (kernel'.kmem, some pgdir)) ∨
          ∃ kmem, kmem.kfree (allocated.proc np).kstack = .ok kernel'.kmem ∧
            (kmem = allocated.kmem ∨
              ∃ vm, FreevmCall kernel p clock .fork vm ∧ freevm vm = .ok kmem)) := by
  unfold fork at h
  split at h
  · rename_i allocated halloc
    cases h
    exact Or.inl ⟨_, halloc, rfl⟩
  · rename_i allocated np halloc
    refine Or.inr ⟨allocated, np, halloc, ?_⟩
    obtain ⟨⟨kmem, copied⟩, hcopy, h⟩ := bind_eq_ok.mp h
    cases copied with
    | none =>
      obtain ⟨freed, hkfree, h⟩ := bind_eq_ok.mp h
      cases h
      exact Or.inr ⟨kmem, hkfree, (copyuvm_none hcopy).imp id fun ⟨vm, hfails, hfree⟩ ↦
        ⟨vm, .forkFails halloc hfails, hfree⟩⟩
    | some pgdir =>
      dsimp only at h
      split at h
      · obtain ⟨table, -, h⟩ := bind_eq_ok.mp h
        cases h
        exact Or.inl ⟨pgdir, hcopy⟩
      · cases h
        exact Or.inl ⟨pgdir, hcopy⟩

theorem Kernel.frames_le_unsharedFrames {q : ℕ} (hq : q < nProc) :
    (kernel.kmem.freelist : Multiset ℕ) + (kernel.proc q).frames ≤ kernel.unsharedFrames := by
  exact add_le_add_right (Finset.single_le_sum_of_canonicallyOrdered
    (f := fun q ↦ (kernel.proc q).frames) (Finset.mem_range.mpr hq)) _

theorem Kernel.freelist_le_unsharedFrames :
    (kernel.kmem.freelist : Multiset ℕ) ≤ kernel.unsharedFrames := Multiset.le_add_right _ _

/-- All frames that `freevm` can meet are those of processes or free. -/
theorem FreevmCall.frames_le (hsane : kernel.Sane) (hp : p < nProc)
    (hrun : (kernel.proc p).canRun = true) (h : FreevmCall kernel p clock call vm) :
    vm.frames ≤ kernel.unsharedFrames := by
  cases h with
  | wait hfind hkfree =>
    rename_i q kmem
    have hmatch := List.find?_some hfind
    have hlive : (kernel.proc q).state ≠ .unused := by
      rw [Bool.and_eq_true, beq_iff_eq] at hmatch
      rw [hmatch.2]
      exact fun hstate ↦ by cases hstate
    refine le_trans (le_of_eq ?_) (frames_le_unsharedFrames
      (List.mem_range.mp (List.mem_of_find?_eq_some hfind)))
    rw [Vm.frames, Kmem.freelist_of_kfree hkfree, Proc.frames_of_ne hlive]
    abel
  | exec himage hdrop =>
    rename_i file argv kmem image table
    refine le_trans ?_ (frames_le_unsharedFrames hp)
    rw [Vm.frames, (execImage_spec himage).1, Proc.frames_of_ne (Proc.canRun_ne_unused hrun)]
    exact add_le_add (Multiset.le_add_right _ _) (Multiset.le_add_left _ _)
  | execFails h =>
    rw [h.frames]
    exact freelist_le_unsharedFrames
  | forkFails halloc h =>
    rw [h.frames (hsane.sizes p)]
    refine le_trans ?_ freelist_le_unsharedFrames
    rcases allocproc_cases halloc with ⟨hnone, -⟩ | ⟨np, kstack, kmem, -, -, -, hkalloc, rfl⟩
    · cases hnone
    · rw [Kmem.freelist_of_kalloc hkalloc]
      exact Multiset.le_add_left _ _

end Calls

/-- `freevm` has passed to `kfree` the private pages below `HEAPLIMIT`, the page tables and the
directory, each once, and no frame that a slot of the table records. -/
def ReleasesPrivate (kernel : Kernel) (vm : Vm) (kmem : Kmem) : Prop :=
  ∃ released : List ℕ, freevm vm = .ok kmem ∧ kmem.freelist = released ++ vm.kmem.freelist ∧
    (released : Multiset ℕ) = vm.pgdir.userFrames + vm.pgdir.tablePages ∧ kmem.freelist.Nodup ∧
    ∀ i < shmMaxSeg, (kernel.shmpgtable.shmSegs i).pa ≠ 0 →
      p2v (kernel.shmpgtable.shmSegs i).pa ∉ released

theorem FreevmCall.releases {kernel : Kernel} {p : ℕ} {clock : Clock} {call : Call} {vm : Vm}
    (hcustody : kernel.Custody) (hp : p < nProc) (hcanRun : (kernel.proc p).canRun = true)
    (hcall : FreevmCall kernel p clock call vm) : ∃ kmem, ReleasesPrivate kernel vm kmem := by
  have hle := hcall.frames_le hcustody.sane hp hcanRun
  obtain ⟨hunshared, -, hdisjoint⟩ := Multiset.nodup_add.mp hcustody.nodup
  have hisFrame : ∀ v ∈ vm.pgdir.frames, IsFrame v := by
    intro v hv
    apply hcustody.isFrame
    rw [heldFrames, Multiset.mem_add]
    exact Or.inl (Multiset.mem_of_le hle (Multiset.mem_of_le (Multiset.le_add_left _ _) hv))
  obtain ⟨kmem, released, hfreevm, hlist, hreleased⟩ := freevm_returns hisFrame
  have hfreelist := (freevm_freelist hfreevm).1
  refine ⟨kmem, released, hfreevm, hlist, hreleased, ?_, fun i hi hpa hmem ↦ ?_⟩
  · rw [← Multiset.coe_nodup, hfreelist]
    exact Multiset.nodup_of_le hle hunshared
  · have hheld : p2v (kernel.shmpgtable.shmSegs i).pa ∈ kernel.unsharedFrames := by
      apply Multiset.mem_of_le hle
      rw [← hfreelist, hlist]
      exact List.mem_append_left _ hmem
    exact Multiset.disjoint_left.mp hdisjoint hheld (ShmPgTable.mem_slotFrames hi hpa)

/-- In every run that stays in bounds, `freevm` releases what it should wherever a call passes an
address space to it, and `wait`, `exec` and `fork` go on with the memory that it leaves. -/
theorem freevm_releases_private {start kernel : Kernel} (hboot : Boot start)
    (hframes : ∀ v ∈ start.frames, IsFrame v) (hrun : Runs step InBounds start kernel)
    {p : ℕ} {clock : Clock} (hp : p < nProc) (hcanRun : (kernel.proc p).canRun = true) :
    (∀ call vm, FreevmCall kernel p clock call vm → ∃ kmem, ReleasesPrivate kernel vm kmem) ∧
    ∀ kernel' result,
      (wait kernel p = .ok (kernel', result) → kernel' = kernel ∨
        ∃ vm, FreevmCall kernel p clock .wait vm ∧ ReleasesPrivate kernel vm kernel'.kmem) ∧
      (∀ file argv, exec kernel p clock (some file) argv = .ok (kernel', result) →
        kernel'.kmem = kernel.kmem ∨ ∃ vm, FreevmCall kernel p clock (.exec (some file) argv) vm ∧
          ReleasesPrivate kernel vm kernel'.kmem) ∧
      (fork kernel p clock = .ok (kernel', result) →
        (∃ allocated, allocproc kernel = (allocated, none) ∧ kernel' = allocated) ∨
        ∃ allocated np, allocproc kernel = (allocated, some np) ∧
          ((∃ pgdir, copyuvm allocated.kmem (kernel.proc p).pgdir (kernel.proc p).sz =
              .ok (kernel'.kmem, some pgdir)) ∨
            ∃ kmem, kmem.kfree (allocated.proc np).kstack = .ok kernel'.kmem ∧
              (kmem = allocated.kmem ∨
                ∃ vm, FreevmCall kernel p clock .fork vm ∧ ReleasesPrivate kernel vm kmem))) := by
  have hcustody := hboot.custody_of_runs hframes hrun
  have hreleases {call : Call} {vm : Vm} (hcall : FreevmCall kernel p clock call vm) :
      ∃ kmem, ReleasesPrivate kernel vm kmem := hcall.releases hcustody hp hcanRun
  have hpasses {call : Call} {kmem : Kmem}
      (h : ∃ vm, FreevmCall kernel p clock call vm ∧ freevm vm = .ok kmem) :
      ∃ vm, FreevmCall kernel p clock call vm ∧ ReleasesPrivate kernel vm kmem := by
    obtain ⟨vm, hcall, hfree⟩ := h
    obtain ⟨left, released, hfreevm, hrest⟩ := hreleases hcall
    obtain rfl : left = kmem := Except.ok.inj (hfreevm.symm.trans hfree)
    exact ⟨vm, hcall, released, hfreevm, hrest⟩
  refine ⟨fun call vm ↦ hreleases, fun kernel' result ↦
    ⟨fun h ↦ ?_, fun file argv h ↦ ?_, fun h ↦ ?_⟩⟩
  · exact (wait_calls_freevm h).imp id hpasses
  · exact (exec_calls_freevm h).imp id hpasses
  · refine (fork_calls_freevm h).imp id ?_
    rintro ⟨allocated, np, halloc, hcopied | ⟨kmem, hkfree, hfailed⟩⟩
    · exact ⟨allocated, np, halloc, Or.inl hcopied⟩
    · exact ⟨allocated, np, halloc, Or.inr ⟨kmem, hkfree, hfailed.imp id hpasses⟩⟩

/-- The process of pid 3 is a child of `init`. -/
def childKernel : Kernel :=
  (startKernel 4).setProc 2 { startProc 3 (frameAt 2) (frameAt 3) with parent := some 0 }

theorem childKernel_proc (q : ℕ) : ∃ parent,
    childKernel.proc q = { (startKernel 4).proc q with parent := parent } := by
  by_cases hq : q = 2
  · exact hq ▸ ⟨some 0, setProc_proc_self _ _ _⟩
  · exact ⟨_, setProc_proc_of_ne _ _ hq⟩

theorem childKernel_frames : childKernel.frames = (startKernel 4).frames := by
  refine frames_congr (unsharedFrames_procs rfl fun q ↦ ?_) rfl
  obtain ⟨parent, hq⟩ := childKernel_proc q
  rw [hq]
  rfl

theorem childKernel_boot : Boot childKernel := by
  have hboot := startKernel_boot (show 4 ≤ 10000 by decide)
  refine ⟨rfl, rfl, fun q ↦ ?_, fun q w ↦ ?_, fun q w ↦ ?_, fun q ↦ ?_, ?_⟩
  · obtain ⟨parent, hq⟩ := childKernel_proc q
    exact hq ▸ hboot.sizes q
  · obtain ⟨parent, hq⟩ := childKernel_proc q
    exact hq ▸ hboot.unattached q w
  · obtain ⟨parent, hq⟩ := childKernel_proc q
    exact hq ▸ hboot.records q w
  · obtain ⟨parent, hq⟩ := childKernel_proc q
    exact hq ▸ hboot.window q
  · rw [childKernel_frames]
    exact hboot.owned

theorem childKernel_isFrame : ∀ v ∈ childKernel.frames, IsFrame v := by
  rw [childKernel_frames]
  exact startKernel_isFrame _

/-- The child attaches a segment of one page and exits. -/
def attachAndExit : List Label :=
  [startLabel (.shmget 5 4096 ipcCreat), startLabel (.shmat 0 0 0), startLabel .exit]

/-- The parent releases the page table of the window and the directory; the segment keeps its frame,
which the zombie still has mapped. -/
theorem freevm_releases_private_child : ∃ (kernel : Kernel) (vm : Vm) (kmem : Kmem),
    FreevmCall kernel 0 startClock .wait vm ∧ isPresent (vm.pgdir.pte heapLimit) = true ∧
      (kernel.shmpgtable.shmSegs 0).pa ≠ 0 ∧ ReleasesPrivate kernel vm kmem := by
  obtain ⟨kernel, hrun, hfind, hframe, hpresent, hcanRun, hpa⟩ :
      ∃ kernel, Runs step InBounds childKernel kernel ∧
        zombieChild kernel 0 = some 2 ∧ IsFrame (kernel.proc 2).kstack ∧
        isPresent ((kernel.proc 2).pgdir.pte heapLimit) = true ∧ (kernel.proc 0).canRun = true ∧
        (kernel.shmpgtable.shmSegs 0).pa ≠ 0 := by
    apply Runs.of_labels attachAndExit
    decide +kernel
  obtain ⟨kmem, hkfree, -⟩ := kernel.kmem.kfree_of_isFrame hframe
  have hcall : FreevmCall kernel 0 startClock .wait _ := .wait hfind hkfree
  obtain ⟨freed, hreleases⟩ := (freevm_releases_private childKernel_boot childKernel_isFrame hrun
    (by decide) hcanRun).1 .wait _ hcall
  exact ⟨kernel, _, freed, hcall, hpresent, hpa, hreleases⟩

/-- A segment gets the frame of a page that a process has mapped, after `removeshm` has put it on
the free list, and the parent releases it. -/
theorem freevm_releases_segment : ∃ (kernel removed created exited : Kernel) (vm : Vm),
    Runs step InBounds childKernel kernel ∧
    step kernel (startLabel (.removeshm (-53714362) 0)) = .error (.outOfBounds .shmSegs) ∧
    slotAddr (-53714362) = 4004 ∧ (kernel.proc 2).sz = 2 * pgSize ∧
    (kernel.pageSlot 2 pgSize).pages = 1 ∧
    removeOutside kernel (kernel.pageSlot 2 pgSize) = .ok (removed, 0) ∧
    step removed (startLabel (.shmget 6 4096 ipcCreat)) = .ok (created, 1) ∧
    step created (startLabel .exit) = .ok (exited, 0) ∧
    FreevmCall exited 0 startClock .wait vm ∧ (exited.shmpgtable.shmSegs 1).pa ≠ 0 ∧
    p2v (exited.shmpgtable.shmSegs 1).pa ∈ vm.pgdir.userFrames := by
  obtain ⟨kernel, hrun, hstep, hsz, removed, hremove, created, hget, exited, hexit, hfind, hframe,
      hpresent, hpa, hsame⟩ : ∃ kernel, Runs step InBounds childKernel kernel ∧
      step kernel (startLabel (.removeshm (-53714362) 0)) = .error (.outOfBounds .shmSegs) ∧
      (kernel.proc 2).sz = 2 * pgSize ∧ ∃ removed : Kernel,
      removeOutside kernel (kernel.pageSlot 2 pgSize) = .ok (removed, 0) ∧ ∃ created : Kernel,
      step removed (startLabel (.shmget 6 4096 ipcCreat)) = .ok (created, 1) ∧
      ∃ exited : Kernel, step created (startLabel .exit) = .ok (exited, 0) ∧
        zombieChild exited 0 = some 2 ∧ IsFrame (exited.proc 2).kstack ∧
        isPresent ((exited.proc 2).pgdir.pte pgSize) = true ∧
        (exited.shmpgtable.shmSegs 1).pa ≠ 0 ∧ p2v (exited.shmpgtable.shmSegs 1).pa =
          p2v (pteAddr ((exited.proc 2).pgdir.pte pgSize)) := by
    apply Runs.of_labels [startLabel (.shmget 5 4096 ipcCreat), startLabel (.sbrk 8192)]
    decide +kernel
  obtain ⟨kmem, hkfree, -⟩ := exited.kmem.kfree_of_isFrame hframe
  refine ⟨kernel, removed, created, exited, _, hrun, hstep, by decide, hsz,
    kernel.pages_pageSlot _ _, hremove, hget, hexit, .wait hfind hkfree, hpa, ?_⟩
  rw [hsame]
  exact Pgdir.mem_userFrames_of_present (by decide) hpresent

end Xv6Shm
