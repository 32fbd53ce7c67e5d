import Xv6Shm.Proc.Exec

/-!
# Faults of memory management

The functions of `vm.c` and `exec.c` on page tables and the allocator can panic, but they never
index the arrays of the shared-memory code.
-/

namespace Xv6Shm

open Fallible

variable {array : KernelArray}

section Vm

@[simp] theorem kfree_avoids (kmem : Kmem) (v : ℕ) :
    Avoids (.outOfBounds array) (kmem.kfree v) := by
  unfold Kmem.kfree
  split <;> simp

@[simp] theorem mapPage_avoids (vm : Vm) (a pte : ℕ) :
    Avoids (.outOfBounds array) (mapPage vm a pte) := by
  unfold mapPage
  split <;> simp

theorem mappagesLoop_avoids {perm : ℕ} : ∀ (remaining : ℕ) (vm : Vm) (a pa : ℕ),
    Avoids (.outOfBounds array) (mappagesLoop perm remaining vm a pa) := by
  intro remaining
  induction remaining with
  | zero => simp [mappagesLoop]
  | succ remaining ih => simp [mappagesLoop, Option.forall, ih]

@[simp] theorem mappages_avoids (vm : Vm) (va size pa perm : ℕ) :
    Avoids (.outOfBounds array) (mappages vm va size pa perm) := mappagesLoop_avoids _ _ _ _

@[simp] theorem clearpteu_avoids (pgdir : Pgdir) (uva : ℕ) :
    Avoids (.outOfBounds array) (clearpteu pgdir uva) := by
  simp [clearpteu]

@[simp] theorem clearmapping_avoids (pgdir : Pgdir) (uva : ℕ) :
    Avoids (.outOfBounds array) (clearmapping pgdir uva) := by
  simp [clearmapping]

theorem deallocuvmLoop_avoids {oldsz : ℕ} : ∀ (fuel : ℕ) (vm : Vm) (a : ℕ),
    Avoids (.outOfBounds array) (deallocuvmLoop oldsz fuel vm a) := by
  intro fuel
  induction fuel with
  | zero => simp [deallocuvmLoop]
  | succ fuel ih => simp [deallocuvmLoop, ih]

@[simp] theorem deallocuvm_avoids (vm : Vm) (oldsz newsz : ℕ) :
    Avoids (.outOfBounds array) (deallocuvm vm oldsz newsz) := by
  simp [deallocuvm, deallocuvmLoop_avoids]

theorem freeTables_avoids (pgdir : Pgdir) (kmem : Kmem) : ∀ count : ℕ,
    Avoids (.outOfBounds array) (freeTables pgdir kmem count) := by
  intro count
  induction count with
  | zero => simp [freeTables]
  | succ index ih =>
    rw [freeTables, avoids_bind]
    refine ⟨ih, fun kmem _ ↦ ?_⟩
    split <;> simp

@[simp] theorem freevm_avoids (vm : Vm) : Avoids (.outOfBounds array) (freevm vm) := by
  simp [freevm, freeTables_avoids]

theorem setupkvmLoop_avoids : ∀ (rows : List Kmap) (vm : Vm),
    Avoids (.outOfBounds array) (setupkvmLoop rows vm) := by
  intro rows
  induction rows with
  | nil => simp [setupkvmLoop]
  | cons row rest ih => simp [setupkvmLoop, ih]

@[simp] theorem setupkvm_avoids (kmem : Kmem) : Avoids (.outOfBounds array) (setupkvm kmem) := by
  unfold setupkvm
  split <;> simp [setupkvmLoop_avoids]

theorem allocuvmLoop_avoids {oldsz newsz : ℕ} (remaining : ℕ) (vm : Vm) (a : ℕ) :
    Avoids (.outOfBounds array) (allocuvmLoop oldsz newsz remaining vm a) := by
  induction remaining generalizing vm a with
  | zero => simp [allocuvmLoop]
  | succ remaining ih =>
    rw [allocuvmLoop]
    split <;> simp [ih]

@[simp] theorem allocuvm_avoids (vm : Vm) (oldsz newsz : ℕ) :
    Avoids (.outOfBounds array) (allocuvm vm oldsz newsz) := by
  simp [allocuvm, allocuvmLoop_avoids]

theorem copyuvmLoop_avoids {parent : Pgdir} (remaining : ℕ) (vm : Vm) (i : ℕ) :
    Avoids (.outOfBounds array) (copyuvmLoop parent remaining vm i) := by
  induction remaining generalizing vm i with
  | zero => simp [copyuvmLoop]
  | succ remaining ih =>
    rw [copyuvmLoop]
    split
    · simp
    · split
      · simp
      · split <;> simp [ih]

@[simp] theorem copyuvm_avoids (kmem : Kmem) (parent : Pgdir) (sz : ℕ) :
    Avoids (.outOfBounds array) (copyuvm kmem parent sz) := by
  simp [copyuvm, Option.forall, copyuvmLoop_avoids]

end Vm

section Exec

variable {pgdir : Pgdir} {file : ExecFile}

theorem loaduvmLoop_avoids {addr offset sz : ℕ} (remaining : ℕ) (kmem : Kmem) (i : ℕ) :
    Avoids (.outOfBounds array) (loaduvmLoop pgdir addr file offset sz remaining kmem i) := by
  induction remaining generalizing kmem i with
  | zero => simp [loaduvmLoop]
  | succ remaining ih =>
    rw [loaduvmLoop]
    dsimp only
    split
    · simp
    · split <;> simp [ih]

@[simp] theorem loaduvm_avoids (kmem : Kmem) (pgdir : Pgdir) (addr offset sz : ℕ) :
    Avoids (.outOfBounds array) (loaduvm kmem pgdir addr file offset sz) := by
  simp [loaduvm, loaduvmLoop_avoids]

@[simp] theorem uva2ka_avoids (pgdir : Pgdir) (uva : ℕ) :
    Avoids (.outOfBounds array) (uva2ka pgdir uva) := by
  simp [uva2ka]

theorem copyoutLoop_avoids (fuel : ℕ) (kmem : Kmem) (va : ℕ) (content : List UInt8) :
    Avoids (.outOfBounds array) (copyoutLoop pgdir fuel kmem va content) := by
  induction fuel generalizing kmem va content with
  | zero => simp [copyoutLoop]
  | succ fuel ih =>
    rw [copyoutLoop]
    split <;> simp [ih]

@[simp] theorem copyout_avoids (kmem : Kmem) (pgdir : Pgdir) (va : ℕ) (content : List UInt8) :
    Avoids (.outOfBounds array) (copyout kmem pgdir va content) := copyoutLoop_avoids _ _ _ _

theorem loadSegments_avoids (remaining : ℕ) (vm : Vm) (sz off : ℕ) :
    Avoids (.outOfBounds array) (loadSegments file remaining vm sz off) := by
  induction remaining generalizing vm sz off with
  | zero => simp [loadSegments]
  | succ remaining ih =>
    rw [loadSegments]
    split <;> simp [ih]

theorem pushArgs_avoids : ∀ (arguments : List (List UInt8)) (kmem : Kmem) (sp : ℕ)
    (pushed : List ℕ), Avoids (.outOfBounds array) (pushArgs pgdir arguments kmem sp pushed) := by
  intro arguments
  induction arguments with
  | nil => simp [pushArgs]
  | cons argument rest ih => simp [pushArgs, ih]

@[simp] theorem buildStack_avoids (vm : Vm) (sz eip : ℕ) (argv : List (List UInt8)) :
    Avoids (.outOfBounds array) (buildStack vm sz eip argv) := by
  simp [buildStack, pushArgs_avoids]

@[simp] theorem execImage_avoids (kmem : Kmem) (argv : List (List UInt8)) :
    Avoids (.outOfBounds array) (execImage kmem file argv) := by
  unfold execImage
  split <;> simp [Option.forall, loadSegments_avoids]

end Exec

end Xv6Shm
