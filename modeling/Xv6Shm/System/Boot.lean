import Xv6Shm.System.Step

/-!
# Initial states and the ledger of page frames

`Kernel.frames` lists every place that holds a page frame: the free list, the slots of live
segments, and the kernel stack, page tables and private pages of every process. A run starts in a
state of `Boot`. `startKernel` is a small such state, with `init` and one process of pid 3.
-/

namespace Xv6Shm

open Fallible

/-- The frame of a slot in use. -/
def ShmidDs.frames (slot : ShmidDs) : Multiset ℕ :=
  if slot.shmPerm.key = -1 then 0 else {p2v slot.pa}

/-- The frames recorded in the live slots of the table. -/
def ShmPgTable.segmentFrames (table : ShmPgTable) : Multiset ℕ :=
  ∑ i ∈ Finset.range (table.lastShmSegIndex + 1).toNat, (table.shmSegs i).frames

/-- The frames of a process: its kernel stack and its address space. -/
def Proc.frames (process : Proc) : Multiset ℕ :=
  if process.state = .unused then 0 else {process.kstack} + process.pgdir.frames

def Kernel.procFrames (kernel : Kernel) : Multiset ℕ :=
  ∑ q ∈ Finset.range nProc, (kernel.proc q).frames

/-- All frames, each as often as it is held. -/
def Kernel.frames (kernel : Kernel) : Multiset ℕ :=
  kernel.kmem.freelist + kernel.shmpgtable.segmentFrames + kernel.procFrames

structure Boot (kernel : Kernel) : Prop where
  table : kernel.shmpgtable = ShmPgTable.initial
  info : kernel.shmInfo = ⟨0, 0⟩
  sizes : ∀ q, (kernel.proc q).sz < heapLimit
  unattached : ∀ q w, ((kernel.proc q).shmsegs w).isAttached = false
  records : ∀ q w, ((kernel.proc q).shmsegs w).shmid = -1 ∨
    (kernel.proc q).pid ≤ 2 ∧ ((kernel.proc q).shmsegs w).shmid = 0
  window : ∀ q, (kernel.proc q).state ≠ .unused → (kernel.proc q).pgdir.EmptyWindow
  owned : kernel.frames.Nodup

theorem Boot.sane {kernel : Kernel} (hboot : Boot kernel) : kernel.Sane where
  table := by
    rw [hboot.table]
    exact ⟨fun _ ↦ ⟨Or.inl rfl, Nat.zero_mod _, Nat.zero_lt_succ _⟩, le_rfl, by decide⟩
  sizes := hboot.sizes
  records := by
    intro q w
    have hattached := hboot.unattached q w
    have hmax : (0 : ℤ) < shmMaxSeg := by decide
    refine ⟨?_, ?_, fun h ↦ ?_⟩
    · rcases hboot.records q w with h | ⟨-, h⟩ <;> omega
    · rcases hboot.records q w with h | ⟨-, h⟩ <;> omega
    · rw [hattached] at h
      cases h

theorem Boot.sane_of_runs {start kernel : Kernel} {permitted : Kernel → Label → Prop}
    (hboot : Boot start) (hrun : Runs step permitted start kernel) : kernel.Sane :=
  hrun.invariant Kernel.Sane hboot.sane fun _ _ _ _ hsane _ hstep ↦ hsane.step hstep

/-- Some page frames, by number. -/
def frameAt (number : ℕ) : ℕ := 0x80400000 + number * pgSize

theorem isFrame_frameAt {number : ℕ} (h : number < 50000) : IsFrame (frameAt number) := by
  have haddr : frameAt number = 0x80400000 + number * 4096 := rfl
  refine ⟨?_, ?_, ?_, ?_⟩
  · rw [haddr]
    unfold pgSize
    omega
  · rw [haddr]
    unfold kernEnd
    omega
  · rw [v2p_of_ge, haddr]
    · unfold kernBase physTop
      omega
    · rw [haddr]
      unfold kernBase
      omega
    · rw [haddr]
      unfold Word.size
      omega
  · rw [haddr]
    unfold Word.size
    omega

theorem frameAt_injective : Function.Injective frameAt := by
  intro a b h
  unfold frameAt pgSize at h
  omega

/-- A process with an empty address space. -/
def startProc (pid : ℤ) (page kstack : ℕ) : Proc :=
  { sz := 0, pgdir := ⟨page, fun _ ↦ none⟩, kstack := kstack, state := .runnable, pid := pid
    parent := none, killed := false, shmsegs := fun _ ↦ .none }

/-- An unused process slot. -/
def unusedProc : Proc := { startProc 0 0 0 with state := .unused }

/-- The allocator with the frames 4, 5, ... free. -/
def startKmem (count : ℕ) (hcount : count ≤ 10000) : Kmem where
  freelist := (List.range count).map fun i ↦ frameAt (i + 4)
  bytes := fun _ ↦ 0
  isFrame := by
    intro v hv
    obtain ⟨i, hi, rfl⟩ := List.mem_map.mp hv
    rw [List.mem_range] at hi
    exact isFrame_frameAt (by omega)

/-- `init` in slot 0, a process of pid 3 in slot 2, and `count` free frames. -/
def startKernel (count : ℕ) (hcount : count ≤ 10000 := by decide) : Kernel :=
  { kmem := startKmem count hcount
    shmpgtable := ShmPgTable.initial
    shmInfo := ⟨0, 0⟩
    proc := fun q ↦
      if q = 0 then startProc 1 (frameAt 0) (frameAt 1)
      else if q = 2 then startProc 3 (frameAt 2) (frameAt 3)
      else unusedProc
    nextpid := 4
    initproc := 0 }

def startClock : Clock := ⟨0, 0, 0, 1, 0⟩

/-- A call of the process of pid 3. -/
def startLabel (call : Call) : Label := ⟨2, startClock, call⟩

theorem startProc_frames (pid : ℤ) (page kstack : ℕ) :
    (startProc pid page kstack).frames = {kstack} + {page} := by
  unfold Proc.frames startProc
  rw [if_neg (by simp), frames_empty]

variable {count : ℕ}

section

variable (hcount : count ≤ 10000)

include hcount

theorem startKernel_procFrames : (startKernel count hcount).procFrames =
      {frameAt 1} + {frameAt 0} + ({frameAt 3} + {frameAt 2}) := by
  unfold Kernel.procFrames
  have hother (q : ℕ) (h : q ≠ 0 ∧ q ≠ 2) : ((startKernel count hcount).proc q).frames = 0 := by
    unfold startKernel
    dsimp only
    rw [if_neg h.1, if_neg h.2]
    rfl
  rw [Finset.sum_eq_add_of_mem 0 2 (by decide) (by decide) (by decide) fun q _ h ↦ hother q h,
    ← startProc_frames 1, ← startProc_frames 3]
  rfl

theorem startKernel_frames :
    (startKernel count hcount).frames = Multiset.map frameAt (Multiset.range (4 + count)) := by
  have hsegments : (startKernel count hcount).shmpgtable.segmentFrames = 0 := rfl
  have hfree : ((startKernel count hcount).kmem.freelist : Multiset ℕ) =
      Multiset.map frameAt (Multiset.map (fun i ↦ 4 + i) (Multiset.range count)) := by
    rw [Multiset.map_map]
    change Multiset.map (fun i ↦ frameAt (i + 4)) (Multiset.range count) = _
    simp only [Function.comp_def, Nat.add_comm]
  have hfirst : Multiset.map frameAt (Multiset.range 4) =
      {frameAt 1} + {frameAt 0} + ({frameAt 3} + {frameAt 2}) := by
    decide
  unfold Kernel.frames
  rw [hsegments, hfree, startKernel_procFrames, Multiset.range_add, Multiset.map_add, hfirst]
  abel

theorem startKernel_isFrame : ∀ v ∈ (startKernel count hcount).frames, IsFrame v := by
  rw [startKernel_frames]
  intro v hv
  obtain ⟨number, hnumber, rfl⟩ := Multiset.mem_map.mp hv
  have hlt := Multiset.mem_range.mp hnumber
  exact isFrame_frameAt (by omega)

theorem startKernel_boot : Boot (startKernel count hcount) where
  table := rfl
  info := rfl
  sizes := by
    intro q
    unfold startKernel
    dsimp only
    split
    · decide
    · split <;> decide
  unattached := by
    intro q w
    unfold startKernel
    dsimp only
    split
    · rfl
    · split <;> rfl
  records := by
    intro q w
    left
    unfold startKernel
    dsimp only
    split
    · rfl
    · split <;> rfl
  window := by
    intro q _ b _ _
    unfold startKernel
    dsimp only
    split
    · rfl
    · split <;> rfl
  owned := by
    rw [startKernel_frames]
    exact Multiset.Nodup.map frameAt_injective (Multiset.nodup_range _)

end

end Xv6Shm
