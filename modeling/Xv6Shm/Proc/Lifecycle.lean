import Xv6Shm.Proc.State

/-!
# Creating, growing and ending processes

`growproc`, `fork`, `exit` and `wait` of `proc.c`, as far as they concern memory, the process table
and the attach counts. Open files, trap frame and scheduler are not part of this state.
-/

namespace Xv6Shm

open Fallible

/-- Grow or shrink the memory of the process by `n` bytes. -/
def growproc (kernel : Kernel) (p : ℕ) (n : ℤ) : Except Fault (Kernel × ℤ) := do
  let curproc := kernel.proc p
  let vm : Vm := ⟨kernel.kmem, curproc.pgdir⟩
  if n > 0 then
    let (vm, sz) ← allocuvm vm curproc.sz (Word.ofInt (curproc.sz + n))
    if sz = 0 then pure (commit kernel curproc vm curproc.sz, -1)
    else pure (commit kernel curproc vm sz, 0)
  else if n < 0 then
    let (vm, sz) ← deallocuvm vm curproc.sz (Word.ofInt (curproc.sz + n))
    if sz = 0 then pure (commit kernel curproc vm curproc.sz, -1)
    else pure (commit kernel curproc vm sz, 0)
  else pure (kernel, 0)
where
  commit (kernel : Kernel) (curproc : Proc) (vm : Vm) (sz : ℕ) : Kernel :=
    { kernel with kmem := vm.kmem }.setProc p { curproc with pgdir := vm.pgdir, sz := sz }

/-- `sys_sbrk`. -/
def sysSbrk (kernel : Kernel) (p : ℕ) (n : ℤ) : Except Fault (Kernel × ℤ) := do
  let addr := Word.toInt (kernel.proc p).sz
  let (kernel, result) ← growproc kernel p n
  pure (kernel, if result < 0 then -1 else addr)

/-- Take the first unused slot and give it a pid and a kernel stack. -/
def allocproc (kernel : Kernel) : Kernel × Option ℕ :=
  match (List.range nProc).find? fun p ↦ (kernel.proc p).state == .unused with
  | none => (kernel, none)
  | some p =>
    let process := { kernel.proc p with state := .embryo, pid := kernel.nextpid }
    let kernel := { kernel with nextpid := kernel.nextpid + 1 }
    match kernel.kmem.kalloc with
    | none => (kernel.setProc p { process with state := .unused, kstack := 0 }, none)
    | some (kstack, kmem) =>
      ({ kernel with kmem := kmem }.setProc p { process with kstack := kstack }, some p)

/-- The loop of `fork` over the window slots from `i` on: recorded identifiers that differ from the
one before are counted. -/
def inheritLoop (clock : Clock) (pid : ℤ) (shmsegs : ℕ → AttachedShmsegs) :
    ℕ → ℕ → ℤ → ShmPgTable → Except Fault ShmPgTable
  | 0, _, _, table => pure table
  | remaining + 1, i, lastShmid, table =>
    let tempShmid := (shmsegs i).shmid
    if tempShmid = -1 ∨ tempShmid = lastShmid then
      inheritLoop clock pid shmsegs remaining (i + 1) lastShmid table
    else do
      let table ← updateShmSeg table clock tempShmid pid 0
      inheritLoop clock pid shmsegs remaining (i + 1) tempShmid table

/-- Overwrite the slots of an attachment array, which has `SHMMAXSEG` of them. -/
def copyShmsegs (source target : ℕ → AttachedShmsegs) : ℕ → AttachedShmsegs :=
  fun i ↦ if i < shmMaxSeg then source i else target i

def fork (kernel : Kernel) (p : ℕ) (clock : Clock) : Except Fault (Kernel × ℤ) := do
  let curproc := kernel.proc p
  match allocproc kernel with
  | (kernel, none) => pure (kernel, -1)
  | (kernel, some np) =>
    let child := kernel.proc np
    match ← copyuvm kernel.kmem curproc.pgdir curproc.sz with
    | (kmem, none) =>
      let kmem ← kmem.kfree child.kstack
      let kernel := { kernel with kmem := kmem }
      pure (kernel.setProc np { child with kstack := 0, state := .unused }, -1)
    | (kmem, some pgdir) =>
      let child := { child with pgdir := pgdir, sz := curproc.sz, parent := some p, state := .runnable }
      if curproc.pid > 2 then
        let table ← inheritLoop clock child.pid curproc.shmsegs shmMaxSeg 0 (-2) kernel.shmpgtable
        let child := { child with shmsegs := copyShmsegs curproc.shmsegs child.shmsegs }
        let kernel := { kernel with kmem := kmem, shmpgtable := table }
        pure (kernel.setProc np child, child.pid)
      else
        let child := { child with shmsegs := copyShmsegs (fun _ ↦ .none) child.shmsegs }
        let kernel := { kernel with kmem := kmem }
        pure (kernel.setProc np child, child.pid)

/-- `exit`: the children go to init and the process becomes a zombie, with its memory and
attachments as they are. -/
def exit (kernel : Kernel) (p : ℕ) : Except Fault (Kernel × ℤ) :=
  if p = kernel.initproc then .error (.panic "init exiting")
  else
    let reparent (process : Proc) : Proc :=
      if process.parent = some p then { process with parent := some kernel.initproc } else process
    let kernel := { kernel with proc := fun q ↦ reparent (kernel.proc q) }
    pure (kernel.setProc p { kernel.proc p with state := .zombie }, 0)

/-- `wait`: release the first zombie child, or sleep, unless there is nothing to wait for. -/
def wait (kernel : Kernel) (p : ℕ) : Except Fault (Kernel × ℤ) := do
  let isChild (q : ℕ) : Bool := (kernel.proc q).parent = some p
  match (List.range nProc).find? fun q ↦ isChild q && (kernel.proc q).state == .zombie with
  | some q =>
    let child := kernel.proc q
    let kmem ← kernel.kmem.kfree child.kstack
    let kmem ← freevm ⟨kmem, child.pgdir⟩
    let kernel := { kernel with kmem := kmem }
    pure (kernel.setProc q { child with
      kstack := 0, pid := 0, parent := none, killed := false, state := .unused }, child.pid)
  | none =>
    if !(List.range nProc).any isChild || (kernel.proc p).killed then pure (kernel, -1)
    else .error .blocked

end Xv6Shm
