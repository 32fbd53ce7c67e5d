import Xv6Shm.Fs.Block
import Xv6Shm.Lib.Ring
import Xv6Shm.Memory.Kalloc

/-!
# The buffer cache

`bio.c` and the memory disk `memide.c`. The buffers are linked in a ring through `head`; a buffer
released by its last user is moved behind `head`, and a block that is not cached takes the unused
buffer nearest to the other end. Each call is split where its lock is released: `bget` and the
second half of `brelse` run under `bcache.lock`, the rest of `bread` and `bwrite` under the
sleep-lock of one buffer.
-/

namespace Xv6Shm

open Fallible Function

/-- `struct buf`; the two flags are the bits `B_VALID` and `B_DIRTY`, and `holder` is the process
that holds the sleep-lock. -/
structure Buf where
  valid : Bool
  dirty : Bool
  dev : ℕ
  blockno : ℕ
  holder : Option ℕ
  refcnt : ℕ
  data : Block

namespace Buf

/-- The buffer is cached for this block. -/
def isFor (buf : Buf) (dev blockno : ℕ) : Bool := buf.dev == dev && buf.blockno == blockno

/-- A buffer that nobody uses and that holds nothing. -/
def isIdle (buf : Buf) : Bool := buf.refcnt == 0 && !buf.valid && !buf.dirty

def isUnused (buf : Buf) : Bool := buf.refcnt == 0 && !buf.dirty

/-- A buffer that `binit` finds. -/
def initial : Buf := ⟨false, false, 0, 0, none, 0, Block.zero⟩

/-- `acquiresleep`; a process that finds the lock taken sleeps. -/
def acquiresleep (buf : Buf) (pid : ℕ) : Except Fault Buf :=
  if buf.holder.isSome then .error .blocked else .ok { buf with holder := some pid }

def holdingsleep (buf : Buf) (pid : ℕ) : Bool := buf.holder == some pid

/-- Give the buffer to a block: the recycling branch of `bget`. -/
def recycled (buf : Buf) (dev blockno : ℕ) : Buf :=
  { buf with dev := dev, blockno := blockno, valid := false, dirty := false, refcnt := 1 }

variable {buf : Buf}

theorem isFor_iff {dev blockno : ℕ} :
    buf.isFor dev blockno = true ↔ buf.dev = dev ∧ buf.blockno = blockno := by
  simp [isFor]

theorem isIdle_iff :
    buf.isIdle = true ↔ buf.refcnt = 0 ∧ buf.valid = false ∧ buf.dirty = false := by
  simp [isIdle, and_assoc]

theorem isUnused_iff : buf.isUnused = true ↔ buf.refcnt = 0 ∧ buf.dirty = false := by
  simp [isUnused]

end Buf

structure Bcache where
  buf : Fin nBuf → Buf
  links : Links (Fin nBuf)

namespace Bcache

/-- Change one buffer. -/
def set (cache : Bcache) (b : Fin nBuf) (buf : Buf) : Bcache :=
  { cache with buf := update cache.buf b buf }

@[simp] theorem set_buf_self (cache : Bcache) (b : Fin nBuf) (buf : Buf) :
    (cache.set b buf).buf b = buf := by
  simp only [set, update_self]

theorem set_buf_of_ne (cache : Bcache) {b c : Fin nBuf} (h : c ≠ b) (buf : Buf) :
    (cache.set b buf).buf c = cache.buf c := by
  simp only [set, update_of_ne h]

/-- `binit`: link all buffers, each one behind `head`. -/
def binit : Bcache where
  buf := fun _ ↦ Buf.initial
  links := (List.finRange nBuf).foldl Links.pushFront ⟨fun _ ↦ none, fun _ ↦ none⟩

/-- The buffer that is cached for a block: the first loop of `bget`. -/
def cached (cache : Bcache) (dev blockno : ℕ) : Option (Fin nBuf) :=
  Links.search cache.links.next (fun b ↦ (cache.buf b).isFor dev blockno) nBuf
    (cache.links.next none)

/-- The buffer to be recycled: the second loop of `bget`. -/
def leastRecent (cache : Bcache) : Option (Fin nBuf) :=
  Links.search cache.links.prev (fun b ↦ (cache.buf b).isUnused) nBuf (cache.links.prev none)

/-- The section of `bget` under `bcache.lock`. -/
def bget (cache : Bcache) (dev blockno : ℕ) : Except Fault (Bcache × Fin nBuf) :=
  match cache.cached dev blockno with
  | some b => .ok (cache.set b { cache.buf b with refcnt := (cache.buf b).refcnt + 1 }, b)
  | none =>
    match cache.leastRecent with
    | some b => .ok (cache.set b ((cache.buf b).recycled dev blockno), b)
    | none => .error (.panic "bget: no buffers")

/-- The section of `brelse` under `bcache.lock`. -/
def unref (cache : Bcache) (b : Fin nBuf) : Bcache :=
  let buf := { cache.buf b with refcnt := (cache.buf b).refcnt - 1 }
  if buf.refcnt = 0 then
    { cache.set b buf with links := (cache.links.unlink b).pushFront b }
  else cache.set b buf

end Bcache

/-- The cache and the disk behind it. -/
structure Storage where
  disk : Disk
  disksize : ℕ
  bcache : Bcache

namespace Storage

/-- The buffer `b`. -/
def buf (storage : Storage) (b : Fin nBuf) : Buf := storage.bcache.buf b

/-- Change one buffer. -/
def set (storage : Storage) (b : Fin nBuf) (buf : Buf) : Storage :=
  { storage with bcache := storage.bcache.set b buf }

/-- `iderw` of the memory disk: write the buffer if it is dirty, else read it. -/
def iderw (storage : Storage) (pid : ℕ) (b : Fin nBuf) : Except Fault Storage :=
  let buf := storage.buf b
  if !buf.holdingsleep pid then .error (.panic "iderw: buf not locked")
  else if buf.valid && !buf.dirty then .error (.panic "iderw: nothing to do")
  else if buf.dev ≠ rootDev then .error (.panic "iderw: request not for disk 1")
  else if storage.disksize ≤ buf.blockno then .error (.panic "iderw: block out of range")
  else if buf.dirty then
    .ok { storage.set b { buf with dirty := false, valid := true } with
      disk := update storage.disk buf.blockno buf.data }
  else .ok (storage.set b { buf with data := storage.disk buf.blockno, valid := true })

def bget (storage : Storage) (dev blockno : ℕ) : Except Fault (Storage × Fin nBuf) := do
  let (bcache, b) ← storage.bcache.bget dev blockno
  pure ({ storage with bcache := bcache }, b)

/-- What `bread` does when `bget` has found a buffer: lock it, and read it if it is not valid. -/
def breadLocked (storage : Storage) (pid : ℕ) (b : Fin nBuf) : Except Fault Storage := do
  let buf ← (storage.buf b).acquiresleep pid
  if buf.valid then pure (storage.set b buf) else (storage.set b buf).iderw pid b

def bwrite (storage : Storage) (pid : ℕ) (b : Fin nBuf) : Except Fault Storage :=
  if !(storage.buf b).holdingsleep pid then .error (.panic "bwrite")
  else (storage.set b { storage.buf b with dirty := true }).iderw pid b

/-- The first half of `brelse`: give the sleep-lock back. -/
def releasesleep (storage : Storage) (pid : ℕ) (b : Fin nBuf) : Except Fault Storage :=
  if !(storage.buf b).holdingsleep pid then .error (.panic "brelse")
  else .ok (storage.set b { storage.buf b with holder := none })

/-- The second half of `brelse`. -/
def unref (storage : Storage) (b : Fin nBuf) : Storage :=
  { storage with bcache := storage.bcache.unref b }

section

variable (storage : Storage)

include storage

@[simp] theorem set_disk (b : Fin nBuf) (buf : Buf) : (storage.set b buf).disk = storage.disk := rfl

@[simp] theorem set_buf_self (b : Fin nBuf) (buf : Buf) :
    (storage.set b buf).buf b = buf := Bcache.set_buf_self storage.bcache b buf

@[simp] theorem set_set (b : Fin nBuf) (first second : Buf) :
    (storage.set b first).set b second = storage.set b second := by
  simp only [set, Bcache.set, update_idem]

theorem set_buf_of_ne {b c : Fin nBuf} (h : c ≠ b) (buf : Buf) :
    (storage.set b buf).buf c = storage.buf c := Bcache.set_buf_of_ne storage.bcache h buf

theorem buf_set_cases (b : Fin nBuf) (buf : Buf) (c : Fin nBuf) :
    c = b ∧ (storage.set b buf).buf c = buf ∨
      c ≠ b ∧ (storage.set b buf).buf c = storage.buf c := by
  by_cases hc : c = b
  · exact Or.inl ⟨hc, hc ▸ set_buf_self storage b buf⟩
  · exact Or.inr ⟨hc, set_buf_of_ne storage hc buf⟩

end

end Storage

end Xv6Shm
