import Xv6Shm.Shm.Split
import Xv6Shm.System.Boot

/-!
# The calls move frames and lose none

`Kernel.frames` is the same before and after every call that keeps the table coherent. The lemmas
say what a new segment and a release do to the frames of the segments, and that a call of one
process has only moved frames between the free list, the table and that process.
-/

namespace Xv6Shm

open Fallible ShmPgTable ShmidDs Kernel Function

theorem p2v_eq_v2p (a : ℕ) : p2v a = v2p a := by
  unfold p2v v2p Word.add Word.sub Word.size kernBase
  omega

theorem ShmPgTable.segmentFrames_eq (table : ShmPgTable) :
    table.segmentFrames = ∑ i ∈ Finset.range table.bound, (table.shmSegs i).frames := rfl

theorem ShmidDs.frames_of_isLive {table : ShmPgTable} {i : ℕ} (h : table.isLive i = true) :
    (table.shmSegs i).frames = {p2v (table.shmSegs i).pa} := by
  rw [frames, if_neg (isLive_iff.mp h)]

theorem ShmidDs.frames_of_not_isLive {table : ShmPgTable} {i : ℕ} (h : table.isLive i = false) :
    (table.shmSegs i).frames = 0 := by
  rw [frames, if_pos (isLive_eq_false.mp h)]

section Table

variable {table table' : ShmPgTable}

theorem ShmPgTable.segmentFrames_congr (hlast : table'.lastShmSegIndex = table.lastShmSegIndex)
    (hlive : ∀ i < table.bound, table'.isLive i = table.isLive i)
    (hpa : ∀ i < table.bound, (table'.shmSegs i).pa = (table.shmSegs i).pa) :
    table'.segmentFrames = table.segmentFrames := by
  have hbound : table'.bound = table.bound := by
    unfold bound
    rw [hlast]
  rw [segmentFrames_eq, segmentFrames_eq, hbound]
  apply Finset.sum_congr rfl
  intro i hi
  rw [Finset.mem_range] at hi
  cases hi' : table.isLive i with
  | true =>
    rw [frames_of_isLive hi', frames_of_isLive ((hlive i hi).trans hi'), hpa i hi]
  | false =>
    rw [frames_of_not_isLive hi', frames_of_not_isLive ((hlive i hi).trans hi')]

variable {index : ℕ}

theorem NewSegment.segmentFrames {count : ℕ} (hnew : NewSegment table table' index count) :
    table'.segmentFrames =
      ∑ offset ∈ Finset.range count, {p2v (table'.shmSegs (index + offset)).pa} +
        table.segmentFrames := by
  rw [segmentFrames_eq, segmentFrames_eq, Cells.sum_split_block _ hnew.inside]
  congr 1
  · apply Finset.sum_congr rfl
    intro offset hoffset
    rw [Finset.mem_range] at hoffset
    exact frames_of_isLive (hnew.live _ (by omega) (by omega))
  · calc
      _ = ∑ i ∈ (Finset.range table'.bound).filter
            (fun i ↦ ¬ (index ≤ i ∧ i < index + count)), (table.shmSegs i).frames := by
        apply Finset.sum_congr rfl
        intro i hi
        rw [Finset.mem_filter] at hi
        rw [hnew.others i (by omega)]
      _ = _ := by
        apply Finset.sum_subset
        · intro i hi
          rw [Finset.mem_filter, Finset.mem_range] at hi
          rw [Finset.mem_range]
          by_contra hbeyond
          exact hi.2 (hnew.fills i (not_lt.mp hbeyond) hi.1)
        · intro i hi hout
          rw [Finset.mem_range] at hi
          rw [Finset.mem_filter, Finset.mem_range, not_and, not_not] at hout
          have hin := hout (lt_of_lt_of_le hi hnew.grows)
          exact frames_of_not_isLive (hnew.free i hin.1 hin.2 hi)

theorem Coherent.segmentFrames_freed (h : Coherent table) {s : ℕ} (hs : s ∈ table.bases) :
    table.framesAt s (table.pagesAt s) +
        (table.onPages s (table.pagesAt s) fun _ ↦ ShmidDs.freed).segmentFrames =
      table.segmentFrames := by
  have hinside := h.tiling.inside s hs
  have hafter : ∑ i ∈ Finset.range table.bound,
      ((table.onPages s (table.pagesAt s) fun _ ↦ ShmidDs.freed).shmSegs i).frames =
        ∑ i ∈ (Finset.range table.bound).filter
          (fun i ↦ ¬ (s ≤ i ∧ i < s + table.pagesAt s)), (table.shmSegs i).frames := by
    rw [Cells.sum_split_block _ hinside, Finset.sum_eq_zero, zero_add]
    · apply Finset.sum_congr rfl
      intro i hi
      rw [Finset.mem_filter] at hi
      rw [onPages_of_not_mem (by omega)]
    · intro offset hoffset
      rw [Finset.mem_range] at hoffset
      rw [onPages_of_mem (by omega) (by omega)]
      rfl
  rw [segmentFrames_eq table, Cells.sum_split_block _ hinside, ← hafter]
  congr 1
  apply Finset.sum_congr rfl
  intro offset hoffset
  rw [Finset.mem_range] at hoffset
  rw [frames_of_isLive (h.tiling.filled s hs _ (by omega) (by omega)), p2v_eq_v2p]

theorem ShmPgTable.entered_frames {frames : List ℕ} (hframes : ∀ frame ∈ frames, IsFrame frame)
    (hpa : ∀ offset < frames.length,
      (table.shmSegs (index + offset)).pa = v2p (frames.getD offset 0)) :
    ∑ offset ∈ Finset.range frames.length, ({p2v (table.shmSegs (index + offset)).pa} :
      Multiset ℕ) = (frames : Multiset ℕ) := by
  have hslot (offset : ℕ) (hoffset : offset ∈ Finset.range frames.length) :
      ({p2v (table.shmSegs (index + offset)).pa} : Multiset ℕ) = {frames.getD offset 0} := by
    rw [Finset.mem_range] at hoffset
    have hmem : frames.getD offset 0 ∈ frames := by
      rw [List.getD_eq_getElem _ _ hoffset]
      exact List.getElem_mem _
    rw [hpa offset hoffset, p2v_v2p (hframes _ hmem).isWord]
  rw [Finset.sum_congr rfl hslot]
  clear hslot hframes hpa
  induction frames with
  | nil => rfl
  | cons frame rest ih =>
    rw [List.length_cons, Finset.sum_range_succ']
    simp only [List.getD_cons_succ, List.getD_cons_zero]
    rw [ih, add_comm]
    rfl

/-- The frames entered for a new segment are those that were taken from the free list. -/
theorem ShmPgTable.created_frames {key pid : ℤ} {segSize perm : ℕ} {append : Bool}
    {frames : List ℕ} (hframes : ∀ frame ∈ frames, IsFrame frame) :
    ∑ offset ∈ Finset.range frames.length, ({p2v ((table.created key segSize pid perm append index
        frames).shmSegs (index + offset)).pa} : Multiset ℕ) = (frames : Multiset ℕ) := by
  apply entered_frames hframes
  intro offset hoffset
  rw [created_of_mem (Nat.le_add_right _ _) (by omega), Nat.add_sub_cancel_left]
  rfl

end Table

/-- The frames outside the table. -/
def Kernel.unsharedFrames (kernel : Kernel) : Multiset ℕ :=
  kernel.kmem.freelist + kernel.procFrames

theorem Kernel.frames_eq (kernel : Kernel) :
    kernel.frames = kernel.unsharedFrames + kernel.shmpgtable.segmentFrames := by
  exact add_right_comm _ _ _

section Processes

variable {kernel kernel' : Kernel} {p : ℕ} {clock : Clock} {result : ℤ}

theorem Kernel.frames_congr (hunshared : kernel'.unsharedFrames = kernel.unsharedFrames)
    (htable : kernel'.shmpgtable.segmentFrames = kernel.shmpgtable.segmentFrames) :
    kernel'.frames = kernel.frames := by
  rw [frames_eq, frames_eq, hunshared, htable]

theorem Kernel.frames_table (hproc : kernel'.proc = kernel.proc)
    (hmoved : (kernel'.kmem.freelist : Multiset ℕ) + kernel'.shmpgtable.segmentFrames =
      (kernel.kmem.freelist : Multiset ℕ) + kernel.shmpgtable.segmentFrames) :
    kernel'.frames = kernel.frames := by
  unfold frames procFrames
  rw [hmoved, hproc]

variable {process : Proc}

theorem Kernel.unsharedFrames_update {q : ℕ} (hq : q < nProc)
    (hproc : kernel'.proc = update kernel.proc q process)
    (hmoved : (kernel'.kmem.freelist : Multiset ℕ) + process.frames =
      (kernel.kmem.freelist : Multiset ℕ) + (kernel.proc q).frames) :
    kernel'.unsharedFrames = kernel.unsharedFrames := by
  have hexchange := Cells.sum_exchange (fun r ↦ (kernel.proc r).frames)
    (fun r ↦ (kernel'.proc r).frames) (Finset.mem_range.mpr hq)
    (fun r _ hr ↦ by simp only [hproc, update_of_ne hr])
  simp only [hproc, update_self] at hexchange
  unfold unsharedFrames procFrames
  apply add_right_cancel (b := (kernel.proc q).frames)
  rw [add_assoc, hproc, hexchange, add_comm _ process.frames, ← add_assoc, hmoved]
  abel

theorem Kernel.unsharedFrames_procs
    (hfree : (kernel'.kmem.freelist : Multiset ℕ) = kernel.kmem.freelist)
    (hprocs : ∀ q, (kernel'.proc q).frames = (kernel.proc q).frames) :
    kernel'.unsharedFrames = kernel.unsharedFrames := by
  unfold unsharedFrames procFrames
  rw [hfree, Finset.sum_congr rfl fun q _ ↦ hprocs q]

theorem Proc.frames_of_ne (h : process.state ≠ .unused) :
    process.frames = {process.kstack} + process.pgdir.frames := if_neg h

theorem Proc.frames_of_unused (h : process.state = .unused) : process.frames = 0 := if_pos h

theorem Kernel.unsharedFrames_space (hp : p < nProc) (hrun : (kernel.proc p).state ≠ .unused)
    (hproc : kernel'.proc = update kernel.proc p process)
    (hstate : process.state = (kernel.proc p).state)
    (hkstack : process.kstack = (kernel.proc p).kstack)
    (hspace : (kernel'.kmem.freelist : Multiset ℕ) + process.pgdir.frames =
      (kernel.kmem.freelist : Multiset ℕ) + (kernel.proc p).pgdir.frames) :
    kernel'.unsharedFrames = kernel.unsharedFrames := by
  apply unsharedFrames_update hp hproc
  rw [Proc.frames_of_ne hrun, Proc.frames_of_ne (hstate.trans_ne hrun), hkstack, add_left_comm,
    hspace, add_left_comm]

theorem Kernel.unsharedFrames_putAttaching {table : ShmPgTable} {st : Attaching} (hp : p < nProc)
    (hrun : (kernel.proc p).state ≠ .unused) (hvm : st.vm.frames = (kernel.attaching p).vm.frames) :
    (kernel.putAttaching p table st).unsharedFrames = kernel.unsharedFrames :=
  unsharedFrames_space hp hrun (putAttaching_proc _ _ _ _) rfl rfl hvm

theorem unsharedFrames_sbrk {n : ℤ} (hsz : (kernel.proc p).sz < heapLimit) (hp : p < nProc)
    (hrun : (kernel.proc p).state ≠ .unused) (h : sysSbrk kernel p n = .ok (kernel', result)) :
    kernel'.unsharedFrames = kernel.unsharedFrames := by
  rcases sysSbrk_cases hsz h with rfl | ⟨vm, sz, hresized⟩
  · rfl
  · rw [hresized.result]
    exact unsharedFrames_space hp hrun rfl rfl rfl hresized.frames

theorem unsharedFrames_fork (hsz : (kernel.proc p).sz < heapLimit)
    (h : fork kernel p clock = .ok (kernel', result)) :
    kernel'.unsharedFrames = kernel.unsharedFrames := by
  rcases fork_cases hsz h with ⟨-, hfailed⟩ | ⟨-, np, kstack, pgdir, hforked⟩
  · apply unsharedFrames_procs hfailed.frames
    intro q
    rcases hfailed.procs q with hsame | ⟨hunused, pid, kstack, hq⟩
    · rw [hsame]
    · rw [Proc.frames_of_unused hunused, hq]
      exact Proc.frames_of_unused hunused
  · apply unsharedFrames_update hforked.slot_lt hforked.procs
    have hchild : (forkChild kernel p np kstack pgdir).frames = {kstack} + pgdir.frames :=
      Proc.frames_of_ne fun hstate ↦ by cases hstate
    rw [hchild, Proc.frames_of_unused hforked.unused, hforked.frames]
    abel

theorem unsharedFrames_exec {file : Option ExecFile} {argv : List (List UInt8)} (hp : p < nProc)
    (hrun : (kernel.proc p).state ≠ .unused)
    (h : exec kernel p clock file argv = .ok (kernel', result)) :
    kernel'.unsharedFrames = kernel.unsharedFrames := by
  rcases exec_cases h with ⟨-, kmem, rfl, hfree⟩ | ⟨-, image, hexeced⟩
  · exact unsharedFrames_procs hfree fun _ ↦ rfl
  · exact unsharedFrames_space hp hrun hexeced.procs rfl rfl hexeced.frames

theorem unsharedFrames_exit (hrun : (kernel.proc p).state ≠ .unused)
    (h : exit kernel p = .ok (kernel', result)) :
    kernel'.unsharedFrames = kernel.unsharedFrames := by
  obtain ⟨hkmem, -, -, hprocs⟩ := exit_cases h
  apply unsharedFrames_procs (by rw [hkmem])
  intro q
  obtain ⟨parent, hq⟩ := hprocs q
  unfold Proc.frames
  rw [hq]
  by_cases hself : q = p
  · subst hself
    rw [if_pos rfl, if_neg (by simp), if_neg hrun]
  · rw [if_neg hself]

theorem unsharedFrames_wait (h : wait kernel p = .ok (kernel', result)) :
    kernel'.unsharedFrames = kernel.unsharedFrames := by
  rcases wait_cases h with rfl | ⟨q, kmem, hq, hzombie, hfree, rfl⟩
  · rfl
  · have hlive : (kernel.proc q).state ≠ .unused := by simp [hzombie]
    apply unsharedFrames_update hq rfl
    rw [Proc.frames_of_unused rfl, Proc.frames_of_ne hlive, setProc_kmem, hfree]
    abel

end Processes

end Xv6Shm
