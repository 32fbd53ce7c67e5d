import Xv6Shm.Memory.Progress
import Xv6Shm.System.Boot

/-!
# What a child inherits

`fork` copies the attachment array of the parent, and `copyuvm` copies the pages below its size. The
window lies above every size, so the child has the records of the attachments without their
page-table entries, and the two agree only if there is nothing to inherit.
-/

namespace Xv6Shm

open Fallible Function

/-- The child has the attachments of the parent: the records and the entries of the window agree,
the entries are those of the parent, and the child can detach what it has inherited. -/
structure InheritsWindow (parent : Proc) (kernel : Kernel) (child : ℕ) : Prop where
  mapped : ∀ i < shmMaxSeg, ((kernel.proc child).shmsegs i).isAttached = true ↔
    isPresent ((kernel.proc child).pgdir.pte (windowAddr i)) = true
  same : ∀ i < shmMaxSeg, isPresent ((kernel.proc child).pgdir.pte (windowAddr i)) = true →
    pteAddr ((kernel.proc child).pgdir.pte (windowAddr i)) =
        pteAddr (parent.pgdir.pte (windowAddr i)) ∧
      pteFlags ((kernel.proc child).pgdir.pte (windowAddr i)) =
        pteFlags (parent.pgdir.pte (windowAddr i))
  detaches : ∀ clock, ∀ i < shmMaxSeg, ((kernel.proc child).shmsegs i).isAttached = true →
    ∃ kernel', shmdtHelper kernel child clock (windowAddr i) = .ok (kernel', 0)

section Fork

variable {kernel kernel' : Kernel} {p child : ℕ} {clock : Clock} {result : ℤ}

/-- The slot that a `fork` brings to life is the one of the child. -/
theorem Forked.of_started (hsz : (kernel.proc p).sz < heapLimit)
    (h : fork kernel p clock = .ok (kernel', result))
    (hunused : (kernel.proc child).state = .unused)
    (hstarted : (kernel'.proc child).state ≠ .unused) :
    ∃ kstack pgdir, Forked kernel p clock child kstack pgdir kernel' := by
  rcases fork_cases hsz h with ⟨-, hfailed⟩ | ⟨-, np, kstack, pgdir, hforked⟩
  · exfalso
    apply hstarted
    rcases hfailed.procs child with hsame | ⟨-, pid, kstack, hchanged⟩
    · rw [hsame, hunused]
    · rw [hchanged]
      exact hunused
  · by_cases hchild : child = np
    · rw [hchild]
      exact ⟨kstack, pgdir, hforked⟩
    · rw [hforked.procs, update_of_ne hchild] at hstarted
      exact absurd hunused hstarted

/-- The child has the records of the parent and no entry in the window. -/
theorem Forked.window_of_child {kstack : ℕ} {pgdir : Pgdir}
    (hforked : Forked kernel p clock child kstack pgdir kernel') (hpid : (kernel.proc p).pid > 2)
    {i : ℕ} (hi : i < shmMaxSeg) :
    (kernel'.proc child).shmsegs i = (kernel.proc p).shmsegs i ∧
      isPresent ((kernel'.proc child).pgdir.pte (windowAddr i)) = false := by
  rw [hforked.procs, update_self]
  unfold forkChild copyShmsegs
  dsimp only
  rw [if_pos hpid, if_pos hi]
  refine ⟨rfl, ?_⟩
  rw [hforked.window (windowAddr i) (Nat.le_add_right _ _) (windowAddr_lt hi)]
  exact isPresent_zero

/-- With a free process slot and enough free pages a process without private pages can fork. -/
theorem fork_progress (hslot : (List.range nProc).any fun q ↦ (kernel.proc q).state == .unused)
    (hpages : 514 ≤ kernel.kmem.freelist.length) (hsz : (kernel.proc p).sz = 0)
    (hcount : (inheritLoop clock kernel.nextpid (kernel.proc p).shmsegs shmMaxSeg 0 (-2)
      kernel.shmpgtable).toBool = true) :
    ∃ kernel', fork kernel p clock = .ok (kernel', kernel.nextpid) := by
  obtain ⟨np, hfind⟩ : ∃ np,
      (List.range nProc).find? (fun q ↦ (kernel.proc q).state == .unused) = some np :=
    Option.isSome_iff_exists.mp (List.find?_isSome.mpr (List.any_eq_true.mp hslot))
  cases hkalloc : kernel.kmem.kalloc with
  | none =>
    rw [Kmem.kalloc_eq_none.mp hkalloc, List.length_nil] at hpages
    omega
  | some pair =>
    obtain ⟨kstack, kmem⟩ := pair
    rw [(Kmem.kalloc_eq_some.mp hkalloc).1, List.length_cons] at hpages
    obtain ⟨kmem', pgdir, hcopy⟩ := copyuvm_progress (kernel.proc p).pgdir
      (show 513 ≤ kmem.freelist.length by omega)
    cases hloop : inheritLoop clock kernel.nextpid (kernel.proc p).shmsegs shmMaxSeg 0 (-2)
        kernel.shmpgtable with
    | error fault =>
      rw [hloop] at hcount
      cases hcount
    | ok table =>
      unfold fork allocproc
      dsimp only
      rw [hfind]
      rw [hkalloc]
      dsimp only
      rw [Kernel.setProc_proc_self, Kernel.setProc_kmem, hsz, hcopy, ok_bind]
      dsimp only
      rw [Kernel.setProc_shmpgtable, hloop]
      split
      · exact ⟨_, rfl⟩
      · exact ⟨_, rfl⟩

/-- The checks under which a call of `fork` by the process of pid 3 succeeds. -/
def canFork (kernel : Kernel) : Bool :=
  (kernel.proc 2).canRun && (List.range nProc).any (fun q ↦ (kernel.proc q).state == .unused) &&
    decide (514 ≤ kernel.kmem.freelist.length) && decide ((kernel.proc 2).sz = 0) &&
    (inheritLoop startClock kernel.nextpid (kernel.proc 2).shmsegs shmMaxSeg 0 (-2)
      kernel.shmpgtable).toBool

theorem step_fork_of_canFork (h : canFork kernel = true) (hnext : kernel.nextpid ≠ -1) :
    ∃ kernel' child, step kernel (startLabel .fork) = .ok (kernel', kernel.nextpid) ∧
      (kernel.proc child).state = .unused ∧ (kernel'.proc child).state ≠ .unused := by
  unfold canFork at h
  rw [Bool.and_eq_true, Bool.and_eq_true, Bool.and_eq_true, Bool.and_eq_true,
    decide_eq_true_eq, decide_eq_true_eq] at h
  obtain ⟨⟨⟨⟨hrun, hslot⟩, hpages⟩, hsz⟩, hcount⟩ := h
  obtain ⟨kernel', hfork⟩ := fork_progress hslot hpages hsz hcount
  have hstep : step kernel (startLabel .fork) = .ok (kernel', kernel.nextpid) := by
    unfold step startLabel
    rw [if_pos ⟨by decide, hrun⟩]
    exact hfork
  rcases fork_cases (by rw [hsz]; decide) hfork with ⟨hfailed, -⟩ | ⟨-, np, kstack, pgdir, hforked⟩
  · exact absurd hfailed hnext
  · refine ⟨kernel', np, hstep, hforked.unused, ?_⟩
    rw [hforked.procs, update_self]
    exact ProcState.noConfusion

end Fork

/-- After a successful `fork` in any reachable state the child has inherited the attachments of its
parent exactly if the parent has none. -/
theorem fork_inherits_iff_unattached {start kernel kernel' : Kernel} {label : Label} {pid : ℤ}
    {child : ℕ} (hboot : Boot start) (hrun : Runs step (fun _ _ ↦ True) start kernel)
    (hcall : label.call = .fork) (hparent : (kernel.proc label.proc).pid > 2)
    (hfork : step kernel label = .ok (kernel', pid)) (hunused : (kernel.proc child).state = .unused)
    (hstarted : (kernel'.proc child).state ≠ .unused) :
    InheritsWindow (kernel.proc label.proc) kernel' child ↔
      ∀ i < shmMaxSeg, ((kernel.proc label.proc).shmsegs i).isAttached = false := by
  have hsane := hboot.sane_of_runs hrun
  obtain ⟨-, -, hperform⟩ := step_eq_ok hfork
  rw [hcall] at hperform
  obtain ⟨kstack, pgdir, hforked⟩ :=
    Forked.of_started (hsane.sizes label.proc) hperform hunused hstarted
  have hwindow (i : ℕ) (hi : i < shmMaxSeg) := hforked.window_of_child hparent hi
  constructor
  · intro hinherits i hi
    have hmapped := hinherits.mapped i hi
    rw [(hwindow i hi).1, (hwindow i hi).2] at hmapped
    simpa using hmapped
  · intro hnone
    refine ⟨fun i hi ↦ ?_, fun i hi hpresent ↦ ?_, fun clock i hi hattached ↦ ?_⟩
    · rw [(hwindow i hi).1, (hwindow i hi).2, hnone i hi]
    · rw [(hwindow i hi).2] at hpresent
      cases hpresent
    · rw [(hwindow i hi).1, hnone i hi] at hattached
      cases hattached

/-- The child of a process with an attached segment has the record of the attachment but no entry
for its page. -/
theorem fork_drops_mapping : ∃ (created attached forked : Kernel) (child : ℕ),
    Boot (startKernel 1000) ∧ step (startKernel 1000) (startLabel (.shmget 5 4096 ipcCreat)) =
        .ok (created, 0) ∧
      step created (startLabel (.shmat 0 0 2)) = .ok (attached, windowAddr 0) ∧
      (attached.proc 2).pid > 2 ∧
      isPresent ((attached.proc 2).pgdir.pte (windowAddr 0)) = true ∧
      step attached (startLabel .fork) = .ok (forked, 4) ∧
      (attached.proc child).state = .unused ∧ (forked.proc child).state ≠ .unused ∧
      ((forked.proc child).shmsegs 0).isAttached = true ∧
      isPresent ((forked.proc child).pgdir.pte (windowAddr 0)) = false := by
  obtain ⟨created, hget, attached, hat, hpid, hsz, hpresent, hattached, hnext, hcan⟩ : ∃ created,
      step (startKernel 1000) (startLabel (.shmget 5 4096 ipcCreat)) = .ok (created, 0) ∧
      ∃ attached, step created (startLabel (.shmat 0 0 2)) = .ok (attached, windowAddr 0) ∧
        (attached.proc 2).pid > 2 ∧ (attached.proc 2).sz = 0 ∧
        isPresent ((attached.proc 2).pgdir.pte (windowAddr 0)) = true ∧
        ((attached.proc 2).shmsegs 0).isAttached = true ∧ attached.nextpid = 4 ∧
        canFork attached = true := by
    decide +kernel
  obtain ⟨forked, child, hfork, hunused, hstarted⟩ :=
    step_fork_of_canFork hcan (by rw [hnext]; decide)
  obtain ⟨-, -, hperform⟩ := step_eq_ok hfork
  obtain ⟨kstack, pgdir, hforked⟩ := Forked.of_started
    (show (attached.proc 2).sz < heapLimit by rw [hsz]; decide) hperform hunused hstarted
  obtain ⟨hrecord, habsent⟩ := hforked.window_of_child hpid (show 0 < shmMaxSeg by decide)
  exact ⟨created, attached, forked, child, startKernel_boot _, hget, hat, hpid, hpresent,
    hnext ▸ hfork, hunused, hstarted, by rw [hrecord, hattached], habsent⟩

/-- A process without attachments forks. -/
theorem fork_inherits_iff_unattached_first : ∃ (forked : Kernel) (child : ℕ),
    step (startKernel 1000) (startLabel .fork) = .ok (forked, 4) ∧
      (InheritsWindow ((startKernel 1000).proc 2) forked child ↔ ∀ i < shmMaxSeg,
          (((startKernel 1000).proc 2).shmsegs i).isAttached = false) := by
  obtain ⟨forked, child, hfork, hunused, hstarted⟩ := step_fork_of_canFork
    (show canFork (startKernel 1000) = true by decide +kernel) (by decide)
  exact ⟨forked, child, hfork, fork_inherits_iff_unattached (startKernel_boot _) (Runs.refl _) rfl
    (by decide) hfork hunused hstarted⟩

end Xv6Shm
