import Xv6Shm.Memory.Teardown
import Xv6Shm.System.Ledger

/-!
# No frame is in two places

Here every slot that records an address has a frame, so the table may be as the callers have left
it: whatever the calls, a frame only moves between the free list, the processes and the slots, or is
lost to all of them. So no two places ever hold the same frame.
-/

namespace Xv6Shm

open Fallible ShmPgTable Kernel

variable {slot : ShmidDs} {s count shmflag : ℕ} {pid flag key shmid shmaddr : ℤ} {label : Label}

/-- The frame that a slot records. -/
def ShmidDs.slotFrames (slot : ShmidDs) : Multiset ℕ := if slot.pa = 0 then 0 else {p2v slot.pa}

/-- The frames that the slots below `bound` record, free or not. -/
@[irreducible] def ShmPgTable.slotFrames (table : ShmPgTable) (bound : ℕ) : Multiset ℕ :=
  ∑ i ∈ Finset.range bound, (table.shmSegs i).slotFrames

/-- The frames on the free list, of the processes and in the slots. -/
def Kernel.heldFrames (kernel : Kernel) : Multiset ℕ :=
  kernel.unsharedFrames + kernel.shmpgtable.slotFrames shmMaxSeg

/-- No frame is in two places. -/
structure Kernel.Custody (kernel : Kernel) : Prop where
  sane : kernel.Sane
  nodup : kernel.heldFrames.Nodup
  isFrame : ∀ v ∈ kernel.heldFrames, IsFrame v

theorem ShmidDs.slotFrames_of_ne (h : slot.pa ≠ 0) : slot.slotFrames = {p2v slot.pa} := if_neg h

theorem ShmidDs.slotFrames_of_eq (h : slot.pa = 0) : slot.slotFrames = 0 := if_pos h

namespace ShmPgTable

variable {table table' : ShmPgTable} {bound : ℕ}

theorem slotFrames_le (h : ∀ i, (table'.shmSegs i).pa = (table.shmSegs i).pa ∨
    (table'.shmSegs i).pa = 0) : table'.slotFrames bound ≤ table.slotFrames bound := by
  unfold slotFrames
  apply Finset.sum_le_sum
  intro i _
  rcases h i with hsame | hzero
  · unfold ShmidDs.slotFrames
    rw [hsame]
  · rw [ShmidDs.slotFrames_of_eq hzero]
    exact Multiset.zero_le _

theorem slotFrames_congr (h : ∀ i, (table'.shmSegs i).pa = (table.shmSegs i).pa) :
    table'.slotFrames bound = table.slotFrames bound :=
  le_antisymm (slotFrames_le fun i ↦ Or.inl (h i)) (slotFrames_le fun i ↦ Or.inl (h i).symm)

theorem slotFrames_onPages {change : ShmidDs → ShmidDs} (h : ∀ slot, (change slot).pa = slot.pa) :
    (table.onPages s count change).slotFrames bound = table.slotFrames bound :=
  slotFrames_congr (onPages_field change ShmidDs.pa h)

theorem slotFrames_updateAll {clock : Clock} {shmids : List ℤ}
    (h : updateAll clock pid flag shmids table = .ok table') :
    table'.slotFrames bound = table.slotFrames bound := by
  refine updateAll_invariant (fun next ↦ next.slotFrames bound = table.slotFrames bound) ?_ rfl h
  intro shmid _ next next' hnext hupdate
  obtain ⟨s, -, -, -, -, rfl⟩ := updateShmSeg_eq_ok.mp hupdate
  rw [← hnext]
  apply slotFrames_onPages
  intro slot
  unfold ShmidDs.updated
  split <;> rfl

/-- The slots of a new segment record the frames that were taken for it; what they recorded before
is lost. -/
theorem slotFrames_created {segSize perm index : ℕ} {append : Bool} {frames : List ℕ}
    (hframes : ∀ frame ∈ frames, IsFrame frame) (hfits : index + frames.length ≤ bound) :
    (table.created key segSize pid perm append index frames).slotFrames bound ≤
      (frames : Multiset ℕ) + table.slotFrames bound := by
  have hfresh (offset : ℕ) (hoffset : offset ∈ Finset.range frames.length) :
      ((table.created key segSize pid perm append index frames).shmSegs
        (index + offset)).slotFrames = {p2v ((table.created key segSize pid perm append index
          frames).shmSegs (index + offset)).pa} := by
    rw [Finset.mem_range] at hoffset
    apply ShmidDs.slotFrames_of_ne
    rw [created_of_mem (Nat.le_add_right _ _) (by omega), Nat.add_sub_cancel_left,
      List.getD_eq_getElem _ _ hoffset]
    exact (hframes _ (List.getElem_mem _)).v2p_ne_zero
  unfold slotFrames
  rw [Cells.sum_split_block _ hfits, Finset.sum_congr rfl hfresh, created_frames hframes]
  refine add_le_add_right ?_ _
  calc
    _ = ∑ i ∈ (Finset.range bound).filter
          (fun i ↦ ¬ (index ≤ i ∧ i < index + frames.length)), (table.shmSegs i).slotFrames := by
      apply Finset.sum_congr rfl
      intro i hi
      rw [Finset.mem_filter] at hi
      unfold created
      dsimp only
      rw [Cells.onRange_of_not_mem (by omega)]
    _ ≤ _ := Finset.sum_le_sum_of_subset (Finset.filter_subset _ _)

/-- The frames of released slots are those that `freeshmPages` puts on the free list. -/
theorem slotFrames_freed (hfits : s + count ≤ bound)
    (hframes : ∀ offset < count, IsFrame (v2p (table.shmSegs (s + offset)).pa)) :
    table.framesAt s count + (table.onPages s count fun _ ↦ ShmidDs.freed).slotFrames bound =
      table.slotFrames bound := by
  have hblock : ∑ offset ∈ Finset.range count, (table.shmSegs (s + offset)).slotFrames =
      table.framesAt s count := by
    apply Finset.sum_congr rfl
    intro offset hoffset
    have hframe := hframes offset (Finset.mem_range.mp hoffset)
    rw [ShmidDs.slotFrames_of_ne, p2v_eq_v2p]
    intro hzero
    rw [hzero] at hframe
    exact absurd hframe (by decide)
  have hfreed : ∑ offset ∈ Finset.range count,
      ((table.onPages s count fun _ ↦ ShmidDs.freed).shmSegs (s + offset)).slotFrames = 0 := by
    apply Finset.sum_eq_zero
    intro offset hoffset
    rw [Finset.mem_range] at hoffset
    rw [onPages_of_mem (by omega) (by omega)]
    rfl
  unfold slotFrames
  rw [Cells.sum_split_block _ hfits, hfreed, zero_add, Cells.sum_split_block _ hfits, hblock]
  congr 1
  apply Finset.sum_congr rfl
  intro i hi
  rw [Finset.mem_filter] at hi
  rw [onPages_of_not_mem (by omega)]

theorem mem_slotFrames {i : ℕ} (hi : i < bound) (hpa : (table.shmSegs i).pa ≠ 0) :
    p2v (table.shmSegs i).pa ∈ table.slotFrames bound := by
  have hmem : p2v (table.shmSegs i).pa ∈ (table.shmSegs i).slotFrames := by
    rw [ShmidDs.slotFrames_of_ne hpa, Multiset.mem_singleton]
  unfold slotFrames
  exact Multiset.mem_sum.mpr ⟨i, Finset.mem_range.mpr hi, hmem⟩

end ShmPgTable

section Calls

variable {kernel kernel' : Kernel} {p : ℕ} {clock : Clock} {result : ℤ}

theorem Kernel.heldFrames_of_unshared (hunshared : kernel'.unsharedFrames = kernel.unsharedFrames)
    (htable : kernel'.shmpgtable.slotFrames shmMaxSeg = kernel.shmpgtable.slotFrames shmMaxSeg) :
    kernel'.heldFrames ≤ kernel.heldFrames := by
  unfold heldFrames
  rw [hunshared, htable]

theorem Kernel.heldFrames_of_table (hproc : kernel'.proc = kernel.proc)
    (hmoved : (kernel'.kmem.freelist : Multiset ℕ) + kernel'.shmpgtable.slotFrames shmMaxSeg ≤
      (kernel.kmem.freelist : Multiset ℕ) + kernel.shmpgtable.slotFrames shmMaxSeg) :
    kernel'.heldFrames ≤ kernel.heldFrames := by
  unfold heldFrames unsharedFrames procFrames
  rw [hproc, add_right_comm, add_right_comm (kernel.kmem.freelist : Multiset ℕ)]
  exact add_le_add_left hmoved _

theorem heldFrames_shmget {size : ℕ} (hsane : kernel.Sane)
    (h : shmgetHelper kernel p clock key size shmflag = .ok (kernel', result)) :
    kernel'.heldFrames ≤ kernel.heldFrames := by
  rcases shmgetHelper_cases hsane.table h with ⟨rfl, -⟩ | ⟨-, halloc⟩
  · exact le_rfl
  · rcases allocShmSeg_cases hsane.table halloc with
      ⟨rfl, -⟩ | ⟨index, append, frames, kmem, -, -, hplaced, hfree, hcases⟩
    · exact le_rfl
    · have hlength : frames.length ≤ sizePages size := by
        rcases hcases with ⟨-, hlength, -⟩ | ⟨hshort, -⟩
        · exact hlength.le
        · rw [hfree, List.length_append] at hshort
          omega
      have hfits := (Nat.add_le_add_left hlength index).trans hplaced.fits
      -- what is entered comes from the free list, and a failed creation only clears slots
      have hmoved (table : ShmPgTable) (htable : table.slotFrames shmMaxSeg ≤
          (kernel.shmpgtable.created (shmgetKey clock key) (pgRoundUp size) (kernel.proc p).pid
            (shmflag &&& 3) append index frames).slotFrames shmMaxSeg) :
          (kmem.freelist : Multiset ℕ) + table.slotFrames shmMaxSeg ≤
            (kernel.kmem.freelist : Multiset ℕ) + kernel.shmpgtable.slotFrames shmMaxSeg := by
        rw [hfree, ← Multiset.coe_add, add_comm (frames : Multiset ℕ), add_assoc]
        exact add_le_add_right (htable.trans
          (slotFrames_created (Kmem.isFrame_of_append hfree) hfits)) _
      rcases hcases with ⟨-, -, -, rfl⟩ | ⟨-, -, table, hunmap, rfl⟩
      · apply heldFrames_of_table
        · rfl
        · exact hmoved _ le_rfl
      · obtain ⟨-, hslots⟩ := unmapShmSegPage_spec hunmap
        apply heldFrames_of_table
        · rfl
        · refine hmoved table (slotFrames_le fun i ↦ ?_)
          rcases hslots i with hsame | hcleared
          · exact Or.inl (hsame ▸ rfl)
          · exact Or.inr (hcleared ▸ rfl)

theorem heldFrames_removeshm {shmIdentifier : ℤ} (hsane : kernel.Sane)
    (h : removeshmHelper kernel shmIdentifier flag = .ok (kernel', result)) :
    kernel'.heldFrames ≤ kernel.heldFrames := by
  rcases removeshmHelper_cases hsane.table h with ⟨rfl, -⟩ | ⟨s, -, hremove⟩
  · exact le_rfl
  · obtain ⟨t, -, -, hfits, ⟨rfl, -, -⟩ | ⟨kmem, -, rfl, hfree, hframes, -⟩⟩ :=
      removeSegment_cases hremove
    · exact heldFrames_of_unshared rfl (slotFrames_onPages fun _ ↦ rfl)
    · apply heldFrames_of_table
      · rfl
      · dsimp only
        rw [hfree, ← slotFrames_freed hfits hframes]
        exact le_of_eq (by abel)

theorem heldFrames_shmat (hsane : kernel.Sane) (hp : p < nProc)
    (hrun : (kernel.proc p).state ≠ .unused)
    (h : shmatHelper kernel p clock shmid shmaddr shmflag = .ok (kernel', result)) :
    kernel'.heldFrames ≤ kernel.heldFrames := by
  rcases shmatHelper_cases hsane.table h with
    ⟨rfl, -⟩ | ⟨s, w, -, -, -, -, -, ⟨st, hpages, rfl, -⟩ | ⟨-, -, -, rfl⟩⟩
  · exact le_rfl
  · exact heldFrames_of_unshared (unsharedFrames_putAttaching hp hrun hpages.frames)
      (slotFrames_onPages fun _ ↦ rfl)
  · exact heldFrames_of_unshared (unsharedFrames_putAttaching hp hrun rfl)
      (slotFrames_congr fun _ ↦ rfl)

theorem heldFrames_shmdt (hsane : kernel.Sane) (hp : p < nProc)
    (hrun : (kernel.proc p).state ≠ .unused)
    (h : shmdtHelper kernel p clock shmaddr = .ok (kernel', result)) :
    kernel'.heldFrames ≤ kernel.heldFrames := by
  rcases shmdtHelper_cases hsane.table h with ⟨rfl, -⟩ | ⟨-, -, -, -, s, st, hdetaches⟩
  · exact le_rfl
  · rw [hdetaches.result]
    apply heldFrames_of_unshared
    · apply unsharedFrames_putAttaching hp hrun
      rw [Vm.frames, hdetaches.pages.kmem, hdetaches.pages.frames]
      rfl
    · rw [putAttaching_shmpgtable]
      refine (slotFrames_onPages ?_).trans (slotFrames_onPages ?_)
      · exact fun _ ↦ rfl
      · exact fun _ ↦ rfl

theorem heldFrames_shmctl {cmd : ℤ} {buf buf' : ShmidDs}
    (h : shmctlHelper kernel shmid cmd buf = .ok (kernel', result, buf')) :
    kernel'.heldFrames ≤ kernel.heldFrames := by
  rcases shmctlHelper_cases h with
    rfl | ⟨s, -, -, -, -, ⟨-, -, -, -, rfl⟩ | ⟨-, -, rfl⟩⟩
  · exact le_rfl
  · exact heldFrames_of_unshared rfl (slotFrames_onPages fun _ ↦ rfl)
  · exact heldFrames_of_unshared rfl (slotFrames_onPages fun _ ↦ rfl)

theorem heldFrames_fork (hsane : kernel.Sane) (h : fork kernel p clock = .ok (kernel', result)) :
    kernel'.heldFrames ≤ kernel.heldFrames := by
  apply heldFrames_of_unshared (unsharedFrames_fork (hsane.sizes p) h)
  rcases fork_cases (hsane.sizes p) h with ⟨-, hfailed⟩ | ⟨-, np, kstack, pgdir, hforked⟩
  · rw [hfailed.table]
  · exact slotFrames_updateAll hforked.table

theorem heldFrames_exec {file : Option ExecFile} {argv : List (List UInt8)} (hp : p < nProc)
    (hrun : (kernel.proc p).state ≠ .unused)
    (h : exec kernel p clock file argv = .ok (kernel', result)) :
    kernel'.heldFrames ≤ kernel.heldFrames := by
  apply heldFrames_of_unshared (unsharedFrames_exec hp hrun h)
  rcases exec_cases h with ⟨-, kmem, rfl, -⟩ | ⟨-, image, hexeced⟩
  · rfl
  · exact slotFrames_updateAll hexeced.table

end Calls

variable {kernel : Kernel}

/-- Whatever the call, frames only move or are lost. -/
theorem heldFrames_step {kernel' : Kernel} {result : ℤ}
    (hsane : kernel.Sane) (h : step kernel label = .ok (kernel', result)) :
    kernel'.heldFrames ≤ kernel.heldFrames := by
  obtain ⟨hp, hcanRun, hcall⟩ := step_eq_ok h
  have hrun := Proc.canRun_ne_unused hcanRun
  obtain ⟨p, clock, call⟩ := label
  cases call with
  | shmget key size shmflag => exact heldFrames_shmget hsane hcall
  | shmat shmid shmaddr shmflag => exact heldFrames_shmat hsane hp hrun hcall
  | shmdt shmaddr => exact heldFrames_shmdt hsane hp hrun hcall
  | shmctl shmid cmd buf =>
    obtain ⟨buf', hctl⟩ := perform_shmctl hcall
    exact heldFrames_shmctl hctl
  | removeshm shmIdentifier flag => exact heldFrames_removeshm hsane hcall
  | sbrk n =>
    apply heldFrames_of_unshared (unsharedFrames_sbrk (hsane.sizes _) hp hrun hcall)
    rcases sysSbrk_cases (hsane.sizes _) hcall with rfl | ⟨vm, sz, hresized⟩
    · rfl
    · rw [hresized.result]
      rfl
  | fork => exact heldFrames_fork hsane hcall
  | exec file argv => exact heldFrames_exec hp hrun hcall
  | exit =>
    apply heldFrames_of_unshared (unsharedFrames_exit hrun hcall)
    rw [(exit_cases hcall).2.1]
  | wait =>
    apply heldFrames_of_unshared (unsharedFrames_wait hcall)
    rcases wait_cases hcall with rfl | ⟨q, kmem, -, -, -, rfl⟩ <;> rfl

theorem Kernel.Custody.step {kernel kernel' : Kernel} {result : ℤ}
    (hcustody : kernel.Custody) (h : step kernel label = .ok (kernel', result)) :
    kernel'.Custody := by
  have hle := heldFrames_step hcustody.sane h
  exact ⟨hcustody.sane.step h, Multiset.nodup_of_le hle hcustody.nodup,
    fun v hv ↦ hcustody.isFrame v (Multiset.mem_of_le hle hv)⟩

theorem Boot.heldFrames (hboot : Boot kernel) : kernel.heldFrames = kernel.frames := by
  have hslots : kernel.shmpgtable.slotFrames shmMaxSeg = 0 := by
    rw [hboot.table, slotFrames]
    exact Finset.sum_eq_zero fun _ _ ↦ rfl
  have hsegments : kernel.shmpgtable.segmentFrames = 0 := by
    rw [hboot.table]
    rfl
  rw [Kernel.heldFrames, Kernel.frames_eq, hslots, hsegments]

/-- Every state of every run from pages of the allocator has each frame in one place. -/
theorem Boot.custody_of_runs {start : Kernel} {permitted : Kernel → Label → Prop}
    (hboot : Boot start) (hframes : ∀ v ∈ start.frames, IsFrame v)
    (hrun : Runs step permitted start kernel) : kernel.Custody := by
  refine hrun.invariant Kernel.Custody ⟨hboot.sane, ?_, ?_⟩ fun _ _ _ _ hcustody _ hstep ↦
    hcustody.step hstep
  · rw [hboot.heldFrames]
    exact hboot.owned
  · rw [hboot.heldFrames]
    exact hframes

end Xv6Shm
