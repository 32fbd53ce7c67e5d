import Xv6Shm.Lib.FirstFit
import Xv6Shm.Proc.State

/-!
# The shared-memory system calls

The helpers behind `shmget`, `shmat`, `shmdt`, `shmctl` and `removeshm`, on the kernel state and for
the process in slot `p`. Results are the integers the helpers return; an address is the integer of
its word.
-/

namespace Xv6Shm

open Function

open Fallible

/-- A free slot, as the search for room sees it. -/
def ShmPgTable.isFree (table : ShmPgTable) (i : ℕ) : Bool := (table.shmSegs i).shmPerm.key == -1

/-- The slot for a new segment, and whether it comes behind the last one: the first long enough run
of free slots, or the end of the table. -/
def ShmPgTable.findRoom (table : ShmPgTable) (reqPages bound : ℕ) : ℤ × Bool :=
  match FirstFit.find table.isFree reqPages bound with
  | some si => (si, false)
  | none => (table.lastShmSegIndex + 1, true)

/-- Allocate the pages of a new segment. -/
def allocShmSeg (kernel : Kernel) (p : ℕ) (segmentSize : ℕ) (key : ℤ) (shmflag : ℕ) :
    Except Fault (Kernel × ℤ) :=
  if segmentSize < shmMin ∨ segmentSize > maxSegSize then pure (kernel, eInval)
  else do
    let roundedSegSize := pgRoundUp segmentSize
    let reqPages := roundedSegSize / pgSize
    let bound ← kernel.shmpgtable.scanBound
    let (index, incrementLastIndex) := kernel.shmpgtable.findRoom reqPages bound
    if index + reqPages > shmMaxSeg then pure (kernel, eNospc)
    else do
      let (kmem, table, ok) ← allocShmSegLoop key roundedSegSize (kernel.proc p).pid (shmflag &&& 3)
        incrementLastIndex reqPages 0 index kernel.kmem kernel.shmpgtable
      let kernel := { kernel with kmem := kmem, shmpgtable := table }
      if ok then
        let info : ShmInfo :=
          { usedIds := kernel.shmInfo.usedIds + 1
            shmTot := Word.ofInt (table.lastShmSegIndex + 1) }
        pure ({ kernel with shmInfo := info }, index)
      else pure (kernel, -1)

/-- The key `shmget` works with. -/
def shmgetKey (clock : Clock) (key : ℤ) : ℤ :=
  if key = ipcPrivate then generateRandomKey clock else key

def shmgetHelper (kernel : Kernel) (p : ℕ) (clock : Clock) (key : ℤ) (size shmflag : ℕ) :
    Except Fault (Kernel × ℤ) := do
  let key := shmgetKey clock key
  let found ← kernel.shmpgtable.findKey key
  if shmflag = ipcCreat ||| ipcExcl then
    match found with
    | some _ => pure (kernel, eExist)
    | none => allocShmSeg kernel p size key shmflag
  else if shmflag = ipcCreat then
    match found with
    | some i =>
      if (kernel.shmpgtable.shmSegs i).shmSegsz ≤ size then pure (kernel, i)
      else if ¬ (kernel.shmpgtable.shmSegs i).shmSegsz > size then pure (kernel, eInval)
      else allocShmSeg kernel p size key shmflag
    | none => allocShmSeg kernel p size key shmflag
  else
    match found with
    | some i => pure (kernel, i)
    | none => pure (kernel, eNoent)

/-- Change the slot of a process's attachment array at a signed index. -/
def modifyShmsegs (shmsegs : ℕ → AttachedShmsegs) (index : ℤ)
    (change : AttachedShmsegs → AttachedShmsegs) : Except Fault (ℕ → AttachedShmsegs) :=
  if 0 ≤ index ∧ index < shmMaxSeg then
    pure (update shmsegs index.toNat (change (shmsegs index.toNat)))
  else .error (.outOfBounds .attachedShmsegs)

/-- What the loops of `shmat` and `shmdt` work on: the table, the allocator with the page directory,
and the attachment array. -/
structure Attaching where
  table : ShmPgTable
  vm : Vm
  shmsegs : ℕ → AttachedShmsegs

/-- What a successful attach does to each slot of the segment. -/
def ShmidDs.attached (clock : Clock) (pid : ℤ) (slot : ShmidDs) : ShmidDs :=
  { slot with
    shmNattch := Word.add slot.shmNattch 1
    shmAtime := clock.stamp
    shmCtime := clock.stamp
    shmLpid := pid }

/-- The flags of a page of the window. -/
def attachPerm (shmflag : ℕ) : ℕ := if shmflag &&& 2 ≠ 0 then pteW ||| pteU else pteU

/-- The page loop of `allocshmuvm` from page `i` on; the flag is false where the source gives up,
still holding the lock. -/
def allocshmuvmLoop (clock : Clock) (pid shmid : ℤ) (shmaddr : ℕ) (si : ℤ) (shmflag : ℕ) :
    ℕ → ℕ → Attaching → Except Fault (Attaching × Bool)
  | 0, _, st => pure (st, true)
  | remaining + 1, i, st => do
    let shmsegs ← modifyShmsegs st.shmsegs (si + i) fun _ ↦ ⟨true, shmid⟩
    let slot ← st.table.slot (shmid + i)
    let va := Word.add shmaddr (i * pgSize)
    let (vm, ok) ← mappages st.vm va pgSize (v2p slot.pa) (attachPerm shmflag)
    if ok then
      let table ← st.table.modify (shmid + i) (ShmidDs.attached clock pid)
      allocshmuvmLoop clock pid shmid shmaddr si shmflag remaining (i + 1) ⟨table, vm, shmsegs⟩
    else
      let (vm, _) ← deallocuvm vm va shmaddr
      pure (⟨st.table, vm, shmsegs⟩, false)

def allocshmuvm (kernel : Kernel) (p : ℕ) (clock : Clock) (shmid : ℤ) (shmaddr : ℕ)
    (reqPages si : ℤ) (shmflag : ℕ) : Except Fault (Kernel × ℤ) := do
  let process := kernel.proc p
  let table ← kernel.shmpgtable.acquire
  let (st, ok) ← allocshmuvmLoop clock process.pid shmid shmaddr si shmflag reqPages.toNat 0
    ⟨table, ⟨kernel.kmem, process.pgdir⟩, process.shmsegs⟩
  let table := if ok then st.table.release else st.table
  let kernel := { kernel with kmem := st.vm.kmem, shmpgtable := table }.setProc p
    { process with pgdir := st.vm.pgdir, shmsegs := st.shmsegs }
  pure (kernel, if ok then Word.toInt shmaddr else eNomem)

/-- The check of the slots from `i` on that `shmat` makes for a given address. -/
def checkUnattached (shmsegs : ℕ → AttachedShmsegs) : ℕ → ℤ → Except Fault Bool
  | 0, _ => pure true
  | remaining + 1, i =>
    if 0 ≤ i ∧ i < shmMaxSeg then
      if (shmsegs i.toNat).isAttached then pure false
      else checkUnattached shmsegs remaining (i + 1)
    else .error (.outOfBounds .attachedShmsegs)

def shmatHelper (kernel : Kernel) (p : ℕ) (clock : Clock) (shmid shmaddr : ℤ) (shmflag : ℕ) :
    Except Fault (Kernel × ℤ) := do
  if shmid < 0 ∨ shmid > kernel.shmpgtable.lastShmSegIndex then pure (kernel, eInval)
  else
    let slot ← kernel.shmpgtable.slot shmid
    let segsz := Word.toInt slot.shmSegsz
    if segsz = 0 then pure (kernel, eIdrm)
    else
      let reqPages := segsz.tdiv pgSize
      let shmsegs := (kernel.proc p).shmsegs
      if shmaddr = 0 then
        match FirstFit.find (fun i ↦ !(shmsegs i).isAttached) reqPages shmMaxSeg with
        | none => pure (kernel, eNomem)
        | some index => attachAt kernel shmid (windowAddr index) reqPages index
      else if Word.ofInt shmaddr > kernBase ∨ shmaddr < heapLimit then pure (kernel, eInval)
      else if shmflag ≠ shmRnd ∧ shmaddr.tmod pgSize ≠ 0 then pure (kernel, eInval)
      else
        -- only `SHM_RND` sets the address; without it `va` is still null here
        let va := if shmflag = shmRnd then pgRoundDown (Word.ofInt shmaddr) else 0
        let givenSi := (Word.toInt va - heapLimit).tdiv pgSize
        let clear ← checkUnattached shmsegs (reqPages - givenSi).toNat givenSi
        if clear then attachAt kernel shmid va reqPages givenSi else pure (kernel, eInval)
where
  attachAt (kernel : Kernel) (shmid : ℤ) (va : ℕ) (reqPages si : ℤ) :
      Except Fault (Kernel × ℤ) := do
    let (kernel, va) ← allocshmuvm kernel p clock shmid va reqPages si shmflag
    if va = 0 then pure (kernel, eNomem) else pure (kernel, va)

/-- What a detach does to each slot of the segment. -/
def ShmidDs.detached (clock : Clock) (pid : ℤ) (slot : ShmidDs) : ShmidDs :=
  { slot with
    shmNattch := Word.sub slot.shmNattch 1
    shmDtime := clock.stamp
    shmLpid := pid }

def ShmidDs.markDest (slot : ShmidDs) : ShmidDs :=
  { slot with shmPerm := { slot.shmPerm with mode := slot.shmPerm.mode ||| shmDest } }

/-- The page loop of `shmdtHelper`, which has detached the pages below `i`. -/
def shmdtLoop (clock : Clock) (pid shmid si : ℤ) : ℕ → ℕ → Attaching → Except Fault Attaching
  | 0, _, st => pure st
  | remaining + 1, i, st => do
    let shmsegs ← modifyShmsegs st.shmsegs (si + i) fun entry ↦ { entry with isAttached := false }
    let table ← st.table.modify (shmid + i) (ShmidDs.detached clock pid)
    let pgdir ← clearmapping st.vm.pgdir (Word.ofInt ((si + i) * pgSize + heapLimit))
    shmdtLoop clock pid shmid si remaining (i + 1) ⟨table, ⟨st.vm.kmem, pgdir⟩, shmsegs⟩

/-- The window slot of an address. -/
def addrSlot (shmaddr : ℤ) : ℕ := (Word.ofInt shmaddr - heapLimit) / pgSize

/-- `shmdtHelper` behind the checks: detach what window slot `si` records. -/
def detachAt (kernel : Kernel) (p : ℕ) (clock : Clock) (si : ℕ) : Except Fault (Kernel × ℤ) := do
  let process := kernel.proc p
  let shmid := (process.shmsegs si).shmid
  let shmsegs := update process.shmsegs si ⟨false, -1⟩
  let slot ← kernel.shmpgtable.slot shmid
  let reqPages := (Word.toInt slot.shmSegsz).tdiv pgSize
  let table ← kernel.shmpgtable.acquire
  let st ← shmdtLoop clock process.pid shmid si reqPages.toNat 0
    ⟨table, ⟨kernel.kmem, process.pgdir⟩, shmsegs⟩
  let table ← st.table.modify shmid ShmidDs.markDest
  let kernel := { kernel with kmem := st.vm.kmem, shmpgtable := table.release }.setProc p
    { process with pgdir := st.vm.pgdir, shmsegs := st.shmsegs }
  pure (kernel, 0)

def shmdtHelper (kernel : Kernel) (p : ℕ) (clock : Clock) (shmaddr : ℤ) :
    Except Fault (Kernel × ℤ) :=
  if shmaddr < heapLimit ∨ Word.ofInt shmaddr > kernBase then pure (kernel, eInval)
  else
    let si := addrSlot shmaddr
    if si < shmMaxSeg then
      if ((kernel.proc p).shmsegs si).isAttached = false then pure (kernel, eInval)
      else detachAt kernel p clock si
    else .error (.outOfBounds .attachedShmsegs)

/-- `IPC_STAT`: what the caller's buffer receives; the `pa` field is not copied. -/
def ShmidDs.stat (slot buf : ShmidDs) : ShmidDs := { slot with pa := buf.pa }

/-- `IPC_SET`: what the caller's buffer does to a slot; the `pa` field is kept. -/
def ShmidDs.set (buf slot : ShmidDs) : ShmidDs := { buf with pa := slot.pa }

/-- The result is the kernel, the returned integer and the caller's buffer. -/
def shmctlHelper (kernel : Kernel) (shmid cmd : ℤ) (buf : ShmidDs) :
    Except Fault (Kernel × ℤ × ShmidDs) := do
  if shmid < 0 ∨ shmid > kernel.shmpgtable.lastShmSegIndex then pure (kernel, eInval, buf)
  else
    let slot ← kernel.shmpgtable.slot shmid
    if slot.shmPerm.key = -1 then pure (kernel, eIdrm, buf)
    else if cmd = ipcStat then pure (kernel, 0, slot.stat buf)
    else if cmd = ipcSet then
      if slot.shmPerm.mode &&& shmR ≠ 0 then pure (kernel, -1, buf)
      else
        let table ← kernel.shmpgtable.acquire
        let table ← table.forPages shmid buf.set buf.pages
        pure ({ kernel with shmpgtable := table.release }, 0, buf)
    else if cmd = ipcRmid then
      let table ← kernel.shmpgtable.forPages shmid ShmidDs.markDest slot.pages
      pure ({ kernel with shmpgtable := table }, 0, buf)
    else if cmd = ipcInfo then pure (kernel, kernel.shmpgtable.lastShmSegIndex, buf)
    else if cmd = shmInfoCmd then pure (kernel, kernel.shmpgtable.lastShmSegIndex, buf)
    else pure (kernel, 0, buf)

/-- What `freeshmPages` leaves in a slot. -/
def ShmidDs.freed : ShmidDs :=
  { shmPerm := ⟨-1, 0⟩, shmSegsz := 0, shmAtime := -1, shmDtime := -1, shmCtime := -1
    shmCpid := -1, shmLpid := -1, shmNattch := 0, pa := 0 }

/-- The page loop of `freeshmPages`: the slots `shmid, ..., shmid + count - 1`. -/
def freeshmPagesLoop (kmem : Kmem) (table : ShmPgTable) (shmid : ℤ) :
    ℕ → Except Fault (Kmem × ShmPgTable)
  | 0 => pure (kmem, table)
  | count + 1 => do
    let (kmem, table) ← freeshmPagesLoop kmem table shmid count
    let slot ← table.slot (shmid + count)
    let kmem ← kmem.kfree (v2p slot.pa)
    let table ← table.modify (shmid + count) fun _ ↦ ShmidDs.freed
    pure (kmem, table)

def freeshmPages (kmem : Kmem) (table : ShmPgTable) (shmid : ℤ) :
    Except Fault (Kmem × ShmPgTable) := do
  let slot ← table.slot shmid
  freeshmPagesLoop kmem table shmid slot.pages

/-- What a removal request does to the mode of each slot. -/
def ShmidDs.setDest (slot : ShmidDs) : ShmidDs :=
  { slot with shmPerm := { slot.shmPerm with mode := shmDest } }

/-- The part of `removeshmHelper` behind the resolution of the identifier. -/
def removeSegment (kernel : Kernel) (shmid : ℤ) : Except Fault (Kernel × ℤ) := do
  let slot ← kernel.shmpgtable.slot shmid
  let table ← kernel.shmpgtable.forPages shmid ShmidDs.setDest slot.pages
  let slot ← table.slot shmid
  if slot.shmNattch = 0 ∧ slot.shmPerm.mode &&& shmDest ≠ 0 then
    let (kmem, table) ← freeshmPages kernel.kmem table shmid
    pure ({ kernel with kmem := kmem, shmpgtable := table }, 0)
  else pure ({ kernel with shmpgtable := table }, -1)

def removeshmHelper (kernel : Kernel) (shmIdentifier flag : ℤ) : Except Fault (Kernel × ℤ) := do
  let last := kernel.shmpgtable.lastShmSegIndex
  if flag = 1 then
    match ← kernel.shmpgtable.findKey shmIdentifier with
    | none => pure (kernel, -1)
    | some i => removeSegment kernel i
  else if 0 = last + 1 ∨ shmIdentifier = last + 1 then pure (kernel, -1)
  else removeSegment kernel shmIdentifier

end Xv6Shm
