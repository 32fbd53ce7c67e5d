import Xv6Shm.Memory.Uvm
import Xv6Shm.Shm.Table

/-!
# Processes and the kernel state

The part of `struct proc` that memory management reads or writes, and the kernel state that the
system calls share: the page allocator, the shared-memory table with its counters, and the process
table. A slot keeps what an earlier process left there, as the source does.
-/

namespace Xv6Shm

open Function

inductive ProcState where
  | unused
  | embryo
  | sleeping
  | runnable
  | running
  | zombie
deriving DecidableEq, Repr

/-- `struct attached_shmsegs`: one page of the window of a process. -/
structure AttachedShmsegs where
  isAttached : Bool
  shmid : ℤ
deriving DecidableEq, Repr

/-- A slot that never belonged to an attachment, as `fork` initialises it. -/
def AttachedShmsegs.none : AttachedShmsegs := ⟨false, -1⟩

structure Proc where
  sz : ℕ
  pgdir : Pgdir
  kstack : ℕ
  state : ProcState
  pid : ℤ
  parent : Option ℕ
  killed : Bool
  shmsegs : ℕ → AttachedShmsegs

structure Kernel where
  kmem : Kmem
  shmpgtable : ShmPgTable
  shmInfo : ShmInfo
  proc : ℕ → Proc
  nextpid : ℤ
  initproc : ℕ

namespace Kernel

def setProc (kernel : Kernel) (p : ℕ) (process : Proc) : Kernel :=
  { kernel with proc := update kernel.proc p process }

@[simp] theorem setProc_kmem (kernel : Kernel) (p : ℕ) (process : Proc) :
    (kernel.setProc p process).kmem = kernel.kmem := rfl

@[simp] theorem setProc_shmpgtable (kernel : Kernel) (p : ℕ) (process : Proc) :
    (kernel.setProc p process).shmpgtable = kernel.shmpgtable := rfl

@[simp] theorem setProc_proc_self (kernel : Kernel) (p : ℕ) (process : Proc) :
    (kernel.setProc p process).proc p = process := update_self _ _ _

theorem setProc_proc_of_ne (kernel : Kernel) {p q : ℕ} (process : Proc) (h : q ≠ p) :
    (kernel.setProc p process).proc q = kernel.proc q := update_of_ne h _ _

end Kernel

/-- The address of a slot of the shared-memory window. -/
def windowAddr (slot : ℕ) : ℕ := heapLimit + slot * pgSize

theorem windowAddr_lt {slot : ℕ} (h : slot < shmMaxSeg) : windowAddr slot < kernBase := by
  unfold windowAddr heapLimit pgSize kernBase
  unfold shmMaxSeg at h
  omega

theorem windowAddr_aligned (slot : ℕ) : windowAddr slot % pgSize = 0 := by
  unfold windowAddr heapLimit pgSize
  omega

theorem windowAddr_page (slot : ℕ) : windowAddr slot / pgSize = heapLimit / pgSize + slot := by
  unfold windowAddr heapLimit pgSize
  omega

end Xv6Shm
