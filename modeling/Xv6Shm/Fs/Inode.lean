import Xv6Shm.Fs.Icache
import Xv6Shm.Fs.Layout

/-!
# Blocks and inodes

The block allocator, the inodes and their contents, as `fs.c` has them, on the disk that the buffer
cache and the log show to the rest of the kernel. The table of inodes in memory is indexed by inode
number; an inode is in it while its count of references is positive. The functions are the sections
of the code that run under the lock of an inode, or under `icache.lock`.
-/

namespace Xv6Shm

open Function

def FileType.code : FileType → ℕ
  | dir => 1
  | file => 2
  | dev => 3

/-- The major number of the console, the only device with a driver. -/
def console : ℕ := 1

/-- `struct inode`, with the fields that `ilock` copies from disk in `copy`. -/
structure MemInode (Pid : Type) where
  ref : ℕ
  holder : Option Pid
  valid : Bool
  copy : Dinode

def MemInode.withCopy {Pid : Type} (ip : MemInode Pid) (copy : Dinode) : MemInode Pid :=
  { ip with copy := copy }

/-- The disk, the inodes in memory, and the blocks that were passed to `log_write`, the latest
first. -/
structure FileSys (Pid : Type) where
  disk : Disk
  inode : ℕ → MemInode Pid
  logged : List ℕ

/-- The result of `readi` and `writei`: -1, a count with the data, or whatever the driver of a
device does. -/
inductive Transfer (Data : Type) where
  | failed
  | moved (n : ℕ) (data : Data)
  | driver (major : ℕ)

namespace FileSys

/-- A section of code that works on the file system. -/
abbrev Action (Pid : Type) := StateT (FileSys Pid) (Except Fault)

variable {Pid : Type} (sb : Superblock)

def bread (b : ℕ) : Action Pid Block := do
  return (← get).disk b

/-- Change a block and pass it to `log_write`, whose panics for a log that is full and for a call
outside a transaction are left out: `logged` has the blocks that it was given. -/
def logWrite (b : ℕ) (data : Block) : Action Pid Unit :=
  modify fun fs ↦ { fs with disk := update fs.disk b data, logged := b :: fs.logged }

/-- The fields of an inode in memory. -/
def peek (i : ℕ) : Action Pid (MemInode Pid) := do
  return (← get).inode i

def setInode (i : ℕ) (change : MemInode Pid → MemInode Pid) : Action Pid Unit :=
  modify fun fs ↦ { fs with inode := update fs.inode i (change (fs.inode i)) }

def setCopy (i : ℕ) (change : Dinode → Dinode) : Action Pid Unit :=
  setInode i fun ip ↦ ip.withCopy (change ip.copy)

def setAddr (i k addr : ℕ) : Action Pid Unit :=
  setCopy i fun d ↦ d.setAddr k addr

def bzero (bno : ℕ) : Action Pid Unit := logWrite bno Block.zero

/-- The loops over the blocks of the free map and over the bits of each look at the block numbers
in order. -/
def balloc : Action Pid ℕ := do
  let fs ← get
  match (List.range sb.size).find? fun b ↦ !(fs.disk (sb.bblock b)).bit (b % bpb) with
  | some b => do
    logWrite (sb.bblock b) ((fs.disk (sb.bblock b)).setBit (b % bpb))
    bzero b
    return b
  | none => throw (.panic "balloc: out of blocks")

def bfree (b : ℕ) : Action Pid Unit := do
  let block ← bread (sb.bblock b)
  if block.bit (b % bpb) then logWrite (sb.bblock b) (block.clearBit (b % bpb))
  else throw (.panic "freeing free block")

/-- The inode on disk. -/
def dinode (fs : FileSys Pid) (i : ℕ) : Dinode := Dinode.read (fs.disk (sb.iblock i)) (i % ipb)

def iupdate (i : ℕ) : Action Pid Unit := do
  let block ← bread (sb.iblock i)
  logWrite (sb.iblock i) ((← peek i).copy.store block (i % ipb))

/-- The first half of `ialloc`: mark the first free inode as allocated. -/
def allocInode (type : FileType) : Action Pid ℕ := do
  let fs ← get
  match (List.range sb.ninodes).find? fun i ↦ decide (0 < i) && decide ((fs.dinode sb i).type = 0) with
  | some i => do
    logWrite (sb.iblock i) ((Dinode.fresh type.code).store (fs.disk (sb.iblock i)) (i % ipb))
    return i
  | none => throw (.panic "ialloc: no inodes")

/-- The number of inodes in the table. -/
def inUse (fs : FileSys Pid) : ℕ := (List.range sb.ninodes).countP fun i ↦ decide (0 < (fs.inode i).ref)

def iget (i : ℕ) : Action Pid Unit := do
  let fs ← get
  if 0 < (fs.inode i).ref then setInode i fun ip ↦ { ip with ref := ip.ref + 1 }
  else if nInode ≤ fs.inUse sb then throw (.panic "iget: no inodes")
  else setInode i fun ip ↦ { ip with ref := 1, valid := false }

def idup (i : ℕ) : Action Pid Unit := setInode i fun ip ↦ { ip with ref := ip.ref + 1 }

def acquiresleep (p : Pid) (i : ℕ) : Action Pid Unit := do
  if (← peek i).holder.isSome then throw .blocked
  else setInode i fun ip ↦ { ip with holder := some p }

def releasesleep (i : ℕ) : Action Pid Unit := setInode i fun ip ↦ { ip with holder := none }

def ilock (p : Pid) (i : ℕ) : Action Pid Unit := do
  if (← peek i).ref < 1 then throw (.panic "ilock")
  else
    acquiresleep p i
    if (← peek i).valid then pure ()
    else
      let d := (← get).dinode sb i
      setInode i fun ip ↦ { ip with valid := true, copy := d }
      if d.type = 0 then throw (.panic "ilock: no type")

def iunlock [DecidableEq Pid] (p : Pid) (i : ℕ) : Action Pid Unit := do
  let ip ← peek i
  if ip.holder ≠ some p ∨ ip.ref < 1 then throw (.panic "iunlock")
  else releasesleep i

/-- The address for a field of an inode that should hold one, allocated if it is zero. -/
def ensureAddr (i k : ℕ) : Action Pid ℕ := do
  let addr := (← peek i).copy.addrs k
  if addr = 0 then
    let b ← balloc sb
    setAddr i k b
    return b
  else return addr

/-- The address for an entry of an indirect block, allocated if it is zero. -/
def ensureEntry (indirect j : ℕ) : Action Pid ℕ := do
  let block ← bread indirect
  let addr := block.word (4 * j)
  if addr = 0 then
    let b ← balloc sb
    logWrite indirect (block.setWord (4 * j) b)
    return b
  else return addr

def bmap (i bn : ℕ) : Action Pid ℕ :=
  if bn < nDirect then ensureAddr sb i bn
  else if bn - nDirect < nIndirect then do
    let indirect ← ensureAddr sb i nDirect
    ensureEntry sb indirect (bn - nDirect)
  else throw (.panic "bmap: out of range")

/-- The body of the first loop of `itrunc`. -/
def truncDirect (i k : ℕ) : Action Pid Unit := do
  let addr := (← peek i).copy.addrs k
  if addr = 0 then pure ()
  else
    bfree sb addr
    setAddr i k 0

/-- The body of the second loop of `itrunc`. -/
def truncEntry (block : Block) (j : ℕ) : Action Pid Unit :=
  if block.word (4 * j) = 0 then pure () else bfree sb (block.word (4 * j))

/-- The part of `itrunc` for the indirect block. -/
def truncIndirect (i : ℕ) : Action Pid Unit := do
  let indirect := (← peek i).copy.addrs nDirect
  if indirect = 0 then pure ()
  else
    let block ← bread indirect
    (List.range nIndirect).forM (truncEntry sb block)
    bfree sb indirect
    setAddr i nDirect 0

def itrunc (i : ℕ) : Action Pid Unit := do
  (List.range nDirect).forM (truncDirect sb i)
  truncIndirect sb i
  setCopy i fun d ↦ { d with size := 0 }
  iupdate sb i

/-- The part of `iput` that frees an inode. -/
def free (i : ℕ) : Action Pid Unit := do
  itrunc sb i
  setCopy i fun d ↦ { d with type := 0 }
  iupdate sb i
  setInode i fun ip ↦ { ip with valid := false }

/-- The loop of `readi`, with at most as many rounds as there are bytes to read. -/
def readLoop (i n : ℕ) : (rounds tot off : ℕ) → (ℕ → UInt8) → Action Pid (ℕ → UInt8)
  | 0, _, _, dst => pure dst
  | rounds + 1, tot, off, dst =>
    if tot < n then do
      let b ← bmap sb i (off / bsize)
      let block ← bread b
      let m := min (n - tot) (bsize - off % bsize)
      readLoop i n rounds (tot + m) (off + m) (Block.move dst tot m fun t ↦ block (off % bsize + t))
    else pure dst

def readi (i off n : ℕ) : Action Pid (Transfer (ℕ → UInt8)) := do
  let d := (← peek i).copy
  if d.type = FileType.dev.code then
    return if d.major = console then .driver d.major else .failed
  else if d.size < off ∨ Word.add off n < off then return .failed
  else
    let n := if d.size < Word.add off n then d.size - off else n
    let data ← readLoop sb i n n 0 off fun _ ↦ 0
    return .moved n data

/-- The loop of `writei`. -/
def writeLoop (i n : ℕ) (src : ℕ → UInt8) : (rounds tot off : ℕ) → Action Pid Unit
  | 0, _, _ => pure ()
  | rounds + 1, tot, off =>
    if tot < n then do
      let b ← bmap sb i (off / bsize)
      let block ← bread b
      let m := min (n - tot) (bsize - off % bsize)
      logWrite b (block.move (off % bsize) m fun t ↦ src (tot + t))
      writeLoop i n src rounds (tot + m) (off + m)
    else pure ()

/-- The end of `writei`: a file that has grown gets its new size. -/
def recordSize (i n size off : ℕ) : Action Pid Unit :=
  if 0 < n ∧ size < off then do
    setCopy i fun d ↦ { d with size := off }
    iupdate sb i
  else pure ()

def writei (i : ℕ) (src : ℕ → UInt8) (off n : ℕ) : Action Pid (Transfer Unit) := do
  let d := (← peek i).copy
  if d.type = FileType.dev.code then
    return if d.major = console then .driver d.major else .failed
  else if d.size < off ∨ Word.add off n < off then return .failed
  else if maxFile * bsize < Word.add off n then return .failed
  else
    writeLoop sb i n src n 0 off
    recordSize sb i n d.size (off + n)
    return .moved n ()

end FileSys

end Xv6Shm
