import Xv6Shm.System.Boot

/-!
# What an attached page translates to

`mapShmSegPage` stores the physical address of a frame in the table, and `allocshmuvm` converts it
once more before it enters it into the page table. The entry of an attached page therefore holds an
address of the kernel half, which no frame of the allocator has.
-/

namespace Xv6Shm

open Fallible

/-- The physical addresses of frames lie below `PHYSTOP`, those in the entries of attached pages in
the upper half of the address space. -/
theorem v2p_ne_v2p_of_isFrame {pa frame : ℕ} (hbelow : pa < physTop) (hframe : IsFrame frame) :
    v2p pa ≠ v2p frame := by
  have hphysical := hframe.below_physTop
  rw [v2p_of_lt (lt_trans hbelow (by decide))]
  unfold physTop kernBase at *
  omega

/-- The entry of page `i` of an attachment that starts at `va`. -/
def attachedPte (process : Proc) (va : ℤ) (i : ℕ) : ℕ :=
  process.pgdir.pte (Word.add (Word.ofInt va) (i * pgSize))

theorem attachedPte_putAttaching {kernel : Kernel} {p : ℕ} {table : ShmPgTable} {st : Attaching}
    {clock : Clock} {pid shmid : ℤ} {shmflag s w count i : ℕ}
    (hpages : AttachedPages clock pid shmid shmflag s w count (kernel.attaching p) st)
    (hi : i < count) :
    attachedPte ((kernel.putAttaching p table st).proc p) (windowAddr w) i =
      attachEntry (kernel.shmpgtable.shmSegs (s + i)).pa shmflag := by
  have hroom := hpages.room
  unfold attachedPte
  rw [Word.ofInt_natCast (windowAddr_word (by omega)), add_windowAddr (by omega),
    Kernel.putAttaching_proc, Function.update_self]
  exact hpages.entry i hi

/-- In every run, a successful `shmat` enters for every page of the segment an address that is not
the physical address of any frame. -/
theorem shmat_maps_no_frame {start kernel kernel' : Kernel} {label : Label} {shmid va : ℤ}
    {shmflag : ℕ} (hboot : Boot start) (hrun : Runs step (fun _ _ ↦ True) start kernel)
    (hcall : label.call = .shmat shmid 0 shmflag) (hstep : step kernel label = .ok (kernel', va))
    (hsuccess : 0 ≤ va) :
    ∃ s : ℕ, shmid = s ∧ 0 < (kernel.shmpgtable.shmSegs s).pages ∧
      ∀ i < (kernel.shmpgtable.shmSegs s).pages,
        isPresent (attachedPte (kernel'.proc label.proc) va i) = true ∧
        pteAddr (attachedPte (kernel'.proc label.proc) va i) =
          v2p (kernel.shmpgtable.shmSegs (s + i)).pa ∧
        ∀ frame, IsFrame frame →
          pteAddr (attachedPte (kernel'.proc label.proc) va i) ≠ v2p frame := by
  have hsane := hboot.sane_of_runs hrun
  obtain ⟨-, -, hperform⟩ := step_eq_ok hstep
  rw [hcall] at hperform
  rcases shmatHelper_cases hsane.table hperform with
    ⟨-, hfailed⟩ | ⟨s, w, hshmid, -, hpos, -, -, houtcome⟩
  · omega
  · refine ⟨s, hshmid, hpos, fun i hi ↦ ?_⟩
    rcases houtcome with ⟨st, hpages, rfl, rfl⟩ | ⟨-, -, rfl, -⟩
    · have hslot := hsane.table.slots (s + i)
      obtain ⟨hpresent, haddr⟩ := attachEntry_spec shmflag hslot.aligned hslot.below
      rw [attachedPte_putAttaching hpages hi]
      refine ⟨hpresent, haddr, fun frame hframe ↦ ?_⟩
      rw [haddr]
      exact v2p_ne_v2p_of_isFrame hslot.below hframe
    · exact absurd hsuccess (by decide)

theorem startKernel_shares : ∃ created attached : Kernel,
    step (startKernel 2) (startLabel (.shmget 5 4096 ipcCreat)) = .ok (created, 0) ∧
      step created (startLabel (.shmat 0 0 2)) = .ok (attached, windowAddr 0) ∧
      isPresent (attachedPte (attached.proc 2) (windowAddr 0) 0) = true ∧
      pteAddr (attachedPte (attached.proc 2) (windowAddr 0) 0) ≠ v2p (frameAt 4) := by
  simp only [exists_and_left]
  decide +kernel

/-- The entry is present, and it does not hold the physical address of the frame that `kalloc`
returned for the page. -/
theorem shmat_misses_created_frame : ∃ created attached : Kernel, Boot (startKernel 2) ∧
      (startKernel 2).kmem.kalloc.map Prod.fst = some (frameAt 4) ∧
      step (startKernel 2) (startLabel (.shmget 5 4096 ipcCreat)) = .ok (created, 0) ∧
      step created (startLabel (.shmat 0 0 2)) = .ok (attached, windowAddr 0) ∧
      isPresent (attachedPte (attached.proc 2) (windowAddr 0) 0) = true ∧
      pteAddr (attachedPte (attached.proc 2) (windowAddr 0) 0) ≠ v2p (frameAt 4) := by
  obtain ⟨created, attached, hget, hat, hpresent, hne⟩ := startKernel_shares
  exact ⟨created, attached, startKernel_boot _, rfl, hget, hat, hpresent, hne⟩

theorem shmat_maps_no_frame_first : ∃ created attached : Kernel,
    step created (startLabel (.shmat 0 0 2)) = .ok (attached, windowAddr 0) ∧
      ∃ s : ℕ, (0 : ℤ) = s ∧ 0 < (created.shmpgtable.shmSegs s).pages ∧
        ∀ i < (created.shmpgtable.shmSegs s).pages,
          isPresent (attachedPte (attached.proc 2) (windowAddr 0) i) = true ∧
          pteAddr (attachedPte (attached.proc 2) (windowAddr 0) i) =
            v2p (created.shmpgtable.shmSegs (s + i)).pa ∧
          ∀ frame, IsFrame frame →
            pteAddr (attachedPte (attached.proc 2) (windowAddr 0) i) ≠ v2p frame := by
  obtain ⟨created, attached, hget, hat, -, -⟩ := startKernel_shares
  exact ⟨created, attached, hat, shmat_maps_no_frame (startKernel_boot _)
    ((Runs.refl _).snoc trivial hget) rfl hat (Int.natCast_nonneg _)⟩

end Xv6Shm
