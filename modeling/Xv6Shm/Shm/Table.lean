import Xv6Shm.Memory.Kalloc

/-!
# The shared-memory page table

The data of `shm.h` and the functions of `shm.c` on the table alone. A slot describes one page of a
segment and carries its own copy of the segment's key, size and attach count; a slot whose key is -1
is free. An access outside the `SHMMAXSEG` slots is a fault of its own. The loops that treat the
slots `shmid, shmid + 1, ...` alike are one loop `forPages`.
-/

namespace Xv6Shm

open Fallible

def shmR : ℕ := 1
def shmW : ℕ := 2
def ipcCreat : ℕ := 4
def ipcExcl : ℕ := 16
def ipcPrivate : ℤ := -99999
def shmRdonly : ℕ := 2
def shmRnd : ℕ := 4
def shmDest : ℕ := 32

def eExist : ℤ := -101
def eInval : ℤ := -102
def eNoent : ℤ := -103
def eNomem : ℤ := -104
def eNospc : ℤ := -105
def eIdrm : ℤ := -202

def ipcStat : ℤ := 1
def ipcSet : ℤ := 2
def ipcRmid : ℤ := 3
def ipcInfo : ℤ := 4
def shmInfoCmd : ℤ := 5

structure IpcPerm where
  key : ℤ
  mode : ℕ
deriving DecidableEq, Repr

/-- `struct shmid_ds`: one page of a segment. -/
structure ShmidDs where
  shmPerm : IpcPerm
  shmSegsz : ℕ
  shmAtime : ℤ
  shmDtime : ℤ
  shmCtime : ℤ
  shmCpid : ℤ
  shmLpid : ℤ
  shmNattch : ℕ
  pa : ℕ
deriving DecidableEq, Repr

/-- A slot of the zero-initialised table. -/
def ShmidDs.zero : ShmidDs :=
  { shmPerm := ⟨0, 0⟩, shmSegsz := 0, shmAtime := 0, shmDtime := 0, shmCtime := 0, shmCpid := 0
    shmLpid := 0, shmNattch := 0, pa := 0 }

/-- The number of pages of the segment, as the slot records it. -/
def ShmidDs.pages (slot : ShmidDs) : ℕ := slot.shmSegsz / pgSize

structure ShmPgTable where
  locked : Bool
  shmSegs : ℕ → ShmidDs
  lastShmSegIndex : ℤ

/-- `struct shm_info`. -/
structure ShmInfo where
  usedIds : ℤ
  shmTot : ℕ

/-- The clock as `cmostime` and the timer interrupt leave it. -/
structure Clock where
  second : ℕ
  minute : ℕ
  hour : ℕ
  day : ℕ
  ticks : ℕ

/-- The time stamp the source stores in a slot. -/
def Clock.stamp (clock : Clock) : ℤ := clock.hour * 10000 + clock.minute * 100 + clock.second

/-- The key of a private segment. -/
def generateRandomKey (clock : Clock) : ℤ :=
  Word.toInt ((clock.second * 10000 + clock.minute * 100 + clock.hour * 10 + clock.day +
    clock.ticks) % Word.size)

namespace ShmPgTable

/-- The table before the first call. -/
def initial : ShmPgTable :=
  { locked := false, shmSegs := fun _ ↦ ShmidDs.zero, lastShmSegIndex := -1 }

/-- Taking a held lock does not return: it spins, or panics on the CPU that holds it. -/
def acquire (table : ShmPgTable) : Except Fault ShmPgTable :=
  if table.locked then .error .blocked else pure { table with locked := true }

def release (table : ShmPgTable) : ShmPgTable := { table with locked := false }

/-- Read the slot at a signed index. -/
def slot (table : ShmPgTable) (index : ℤ) : Except Fault ShmidDs :=
  if 0 ≤ index ∧ index < shmMaxSeg then pure (table.shmSegs index.toNat)
  else .error (.outOfBounds .shmSegs)

/-- Change the slot at a signed index. -/
def modify (table : ShmPgTable) (index : ℤ) (change : ShmidDs → ShmidDs) :
    Except Fault ShmPgTable :=
  if 0 ≤ index ∧ index < shmMaxSeg then
    pure { table with
      shmSegs := Function.update table.shmSegs index.toNat (change (table.shmSegs index.toNat)) }
  else .error (.outOfBounds .shmSegs)

/-- Change the slots `shmid, ..., shmid + reqPages - 1` one after the other. -/
def forPages (table : ShmPgTable) (shmid : ℤ) (change : ShmidDs → ShmidDs) :
    ℕ → Except Fault ShmPgTable
  | 0 => pure table
  | count + 1 => do
    let table ← table.forPages shmid change count
    table.modify (shmid + count) change

/-- The number of slots a scan of `0 .. lastShmSegIndex` reads. -/
def scanBound (table : ShmPgTable) : Except Fault ℕ :=
  if table.lastShmSegIndex < shmMaxSeg then pure (table.lastShmSegIndex + 1).toNat
  else .error (.outOfBounds .shmSegs)

/-- The first of the slots `index, index + 1, ...` that carries `key`. -/
def findKeyFrom (table : ShmPgTable) (key : ℤ) : ℕ → ℕ → Option ℕ
  | 0, _ => none
  | remaining + 1, index =>
    if (table.shmSegs index).shmPerm.key = key then some index
    else table.findKeyFrom key remaining (index + 1)

/-- The key search over `0 .. lastShmSegIndex`. -/
def findKey (table : ShmPgTable) (key : ℤ) : Except Fault (Option ℕ) := do
  let bound ← table.scanBound
  pure (table.findKeyFrom key bound 0)

end ShmPgTable

/-- What `updateShmSeg` does to a slot when a child inherits the segment. -/
def ShmidDs.inherited (clock : Clock) (pid : ℤ) (slot : ShmidDs) : ShmidDs :=
  { slot with shmNattch := Word.add slot.shmNattch 1, shmLpid := pid, shmAtime := clock.stamp }

/-- What `updateShmSeg` does to a slot when `exec` drops the segment. -/
def ShmidDs.dropped (clock : Clock) (slot : ShmidDs) : ShmidDs :=
  { slot with shmNattch := Word.sub slot.shmNattch 1, shmDtime := clock.stamp }

/-- What `updateShmSeg` does to a slot: flag 0 for `fork`, any other for `exec`. -/
def ShmidDs.updated (clock : Clock) (pid flag : ℤ) (slot : ShmidDs) : ShmidDs :=
  if flag = 0 then slot.inherited clock pid else slot.dropped clock

def updateShmSeg (table : ShmPgTable) (clock : Clock) (shmid pid flag : ℤ) :
    Except Fault ShmPgTable := do
  let first ← table.slot shmid
  let reqPages := first.pages
  let table ← table.acquire
  let table ← table.forPages shmid (ShmidDs.updated clock pid flag) reqPages
  pure table.release

/-- The slot of a page of a new segment. -/
def ShmidDs.fresh (pa : ℕ) (key : ℤ) (segSize : ℕ) (pid : ℤ) (perm : ℕ) : ShmidDs :=
  { shmPerm := ⟨key, perm⟩, shmSegsz := segSize, shmAtime := -1, shmDtime := -1, shmCtime := -1
    shmCpid := -1, shmLpid := pid, shmNattch := 0, pa := pa }

def mapShmSegPage (table : ShmPgTable) (pa : ℕ) (key : ℤ) (segSize : ℕ) (index pid : ℤ)
    (perm : ℕ) : Except Fault ShmPgTable := do
  let table ← table.acquire
  let table ← table.modify index fun _ ↦ ShmidDs.fresh pa key segSize pid perm
  pure table.release

/-- What `unmapShmSegPage` does to a slot. -/
def ShmidDs.unmapped (slot : ShmidDs) : ShmidDs :=
  { slot with shmPerm := ⟨-1, 0⟩, shmSegsz := 0, pa := 0 }

/-- The loop of `unmapShmSegPage`. The unsigned index wraps below slot zero, which ends the loop
only if `lastShmSegIndex` is -1 and otherwise leaves the array. -/
def unmapShmSegPageLoop (table : ShmPgTable) : ℕ → Except Fault ShmPgTable
  | 0 =>
    if table.lastShmSegIndex = 0 then pure table
    else do
      let table ← table.modify 0 ShmidDs.unmapped
      if table.lastShmSegIndex = -1 then pure table else .error (.outOfBounds .shmSegs)
  | endIndex + 1 =>
    if table.lastShmSegIndex = endIndex + 1 then pure table
    else do
      let table ← table.modify (endIndex + 1) ShmidDs.unmapped
      unmapShmSegPageLoop table endIndex

def unmapShmSegPage (table : ShmPgTable) (endIndex : ℕ) : Except Fault ShmPgTable := do
  let table ← table.acquire
  let table ← unmapShmSegPageLoop table endIndex
  pure table.release

/-- The page loop of `allocShmSeg`: `done` pages are allocated, `remaining` are to go, the next one
for slot `index`; the flag is false where the source returns -1. -/
def allocShmSegLoop (key : ℤ) (segSize : ℕ) (pid : ℤ) (perm : ℕ) (incrementLastIndex : Bool) :
    ℕ → ℕ → ℤ → Kmem → ShmPgTable → Except Fault (Kmem × ShmPgTable × Bool)
  | 0, _, _, kmem, table => pure (kmem, table, true)
  | remaining + 1, done, index, kmem, table =>
    match kmem.kalloc with
    | none => do
      let table ← unmapShmSegPage table done
      pure (kmem, table, false)
    | some (mem, kmem) => do
      let table ← mapShmSegPage table (v2p mem) key segSize index pid perm
      let table :=
        if incrementLastIndex then { table with lastShmSegIndex := table.lastShmSegIndex + 1 }
        else table
      allocShmSegLoop key segSize pid perm incrementLastIndex remaining (done + 1) (index + 1)
        (kmem.memset mem 0 pgSize) table

end Xv6Shm
