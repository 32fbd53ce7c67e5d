import Xv6Shm.Fs.Block
import Xv6Shm.Lib.Linked
import Xv6Shm.Sync.Sleep

/-!
# The queue of the disk driver

`iderw`, `idestart` and `ideintr` as programs around `idequeue`, a list of buffers linked by
`qnext`, which `idelock` guards. Processes append buffers that they have locked and sleep on them;
the interrupt handler takes the first one off, marks it as done, wakes its process and starts the
next one. The transfer of the data is left out.

The flags of a buffer outside the queue belong to the process that has locked it.
-/

namespace Xv6Shm

open Function

/-- The fields of `struct buf` that the driver reads. -/
structure DiskBuf where
  valid : Bool
  dirty : Bool
  dev : ℕ
  blockno : ℕ
deriving DecidableEq

/-- The flags are `B_VALID` without `B_DIRTY`. -/
def DiskBuf.isDone (buf : DiskBuf) : Bool := buf.valid && !buf.dirty

/-- What `idelock` guards, the buffer that the disk works on, and as history variables the buffers
in the order in which they were queued, started and completed. -/
structure IdeData (Buf : Type) where
  idequeue : Option Buf
  qnext : Buf → Option Buf
  buf : Buf → DiskBuf
  working : Option Buf
  queued : List Buf
  started : List Buf
  completed : List Buf

/-- The sleep locks of the buffers, and whether there is a second disk. -/
structure IdeOuter (Pid Buf : Type) where
  owner : Buf → Option Pid
  havedisk1 : Bool

inductive IdeOp (Buf : Type) where
  | append (b : Buf) (buf : DiskBuf)
  | head
  | idestart (b : Buf)
  | flags (b : Buf)
  | pop
  | complete (b : Buf)

inductive IdeVisit (Buf : Type) where
  | check (b : Buf) (buf : DiskBuf)
  | lock (b : Buf)
  | unlock (b : Buf)

namespace IdeData

variable {Buf : Type} [DecidableEq Buf]

/-- `iderw` appends a buffer; the loop over the links ends unless they are circular. -/
def append [Fintype Buf] (data : IdeData Buf) (b : Buf) (buf : DiskBuf) :
    Except Fault (IdeData Buf) :=
  match appendCell (Fintype.card Buf) data.idequeue (update data.qnext b none) b with
  | some (idequeue, qnext) => .ok { data with
      idequeue := idequeue
      qnext := qnext
      buf := update data.buf b buf
      queued := data.queued ++ [b] }
  | none => .error .blocked

/-- `idestart` of a buffer. -/
def idestart (data : IdeData Buf) (b : Buf) : Except Fault (IdeData Buf) :=
  if (data.buf b).blockno ≥ fsSize then .error (.panic "incorrect blockno")
  else .ok { data with working := some b, started := data.started ++ [b] }

/-- `ideintr` takes the first buffer off. -/
def pop (data : IdeData Buf) : Option Buf × IdeData Buf :=
  match data.idequeue with
  | none => (none, data)
  | some b => (some b, { data with idequeue := data.qnext b })

/-- `ideintr` sets the flags of a buffer; the disk has finished with it. -/
def complete (data : IdeData Buf) (b : Buf) : IdeData Buf :=
  { data with
    buf := update data.buf b { data.buf b with valid := true, dirty := false }
    working := none
    completed := data.completed ++ [b] }

theorem complete_buf_self (data : IdeData Buf) (b : Buf) :
    (data.complete b).buf b = { data.buf b with valid := true, dirty := false } :=
  update_self _ _ _

theorem complete_buf_of_ne {data : IdeData Buf} {b c : Buf} (h : c ≠ b) :
    (data.complete b).buf c = data.buf c := update_of_ne h _ _

end IdeData

namespace Ide

variable {Pid Buf : Type} [DecidableEq Pid] [DecidableEq Buf]

abbrev Result : IdeOp Buf → Type
  | .head | .pop => Option Buf
  | .flags _ => DiskBuf
  | _ => Unit

abbrev Reply : IdeVisit Buf → Type := fun _ ↦ Unit

def access [Fintype Buf] (_ : Pid) : (op : IdeOp Buf) → IdeData Buf →
    Except Fault (Result op × IdeData Buf)
  | .append b buf, data => do return ((), ← data.append b buf)
  | .head, data => .ok (data.idequeue, data)
  | .idestart b, data => do return ((), ← data.idestart b)
  | .flags b, data => .ok (data.buf b, data)
  | .pop, data => .ok data.pop
  | .complete b, data => .ok ((), data.complete b)

/-- The checks of `iderw`, and the sleep locks of the buffers. -/
def visit (p : Pid) : (op : IdeVisit Buf) → IdeOuter Pid Buf →
    Except Fault (Reply op × IdeOuter Pid Buf)
  | .check b buf, outer =>
    if outer.owner b ≠ some p then .error (.panic "iderw: buf not locked")
    else if buf.isDone then .error (.panic "iderw: nothing to do")
    else if buf.dev ≠ 0 ∧ !outer.havedisk1 then .error (.panic "iderw: ide disk 1 not present")
    else .ok ((), outer)
  | .lock b, outer =>
    if outer.owner b = none then
      .ok ((), { outer with owner := update outer.owner b (some p) })
    else .error .blocked
  | .unlock b, outer =>
    if outer.owner b = some p then
      .ok ((), { outer with owner := update outer.owner b none })
    else .error (.panic "brelse")

/-- Where a process is: outside, in the loop of `iderw`, or just back from it. -/
inductive Point (Buf : Type) where
  | idle
  | waiting (b : Buf)
  | served (b : Buf)

inductive Request (Pid Buf : Type) where
  | iderw (b : Buf) (buf : DiskBuf)
  | interrupt
  | lock (b : Buf)
  | unlock (b : Buf)
  | kill (q : Pid)

open MonitorProgram

abbrev Code (Pid Buf : Type) := MonitorProgram Pid Buf (@Result Buf) (@Reply Buf)

/-- `iderw` up to its loop. -/
def iderw (b : Buf) (buf : DiskBuf) : Code Pid Buf (Point Buf) := do
  MonitorProgram.visit (IdeVisit.check b buf)
  acquire
  MonitorProgram.access (IdeOp.append b buf)
  let head : Option Buf ← MonitorProgram.access IdeOp.head
  if head = some b then do
    MonitorProgram.access (IdeOp.idestart b)
    return .waiting b
  else return .waiting b

/-- One round of the loop of `iderw`, and what follows the last round. -/
def waitRound (b : Buf) : Code Pid Buf (Point Buf) := do
  let buf : DiskBuf ← MonitorProgram.access (IdeOp.flags b)
  if buf.isDone then do
    release
    return .served b
  else do
    sleep b
    return .waiting b

/-- The end of `ideintr`: the next buffer is started. -/
def startNext (point : Point Buf) : Code Pid Buf (Point Buf) := do
  let head : Option Buf ← MonitorProgram.access IdeOp.head
  match head with
  | some b => do
    MonitorProgram.access (IdeOp.idestart b)
    release
    return point
  | none => do
    release
    return point

/-- `ideintr`, which interrupts a process at a place. -/
def ideintr (point : Point Buf) : Code Pid Buf (Point Buf) := do
  acquire
  let first : Option Buf ← MonitorProgram.access IdeOp.pop
  match first with
  | none => do
    release
    return point
  | some b => do
    MonitorProgram.access (IdeOp.complete b)
    wakeup b
    startNext point

/-- What a process does next. In the loop it goes on with it whatever the request. -/
def code : Point Buf → Request Pid Buf → Code Pid Buf (Point Buf)
  | .waiting b, _ => waitRound b
  | _, .iderw b buf => iderw b buf
  | point, .interrupt => ideintr point
  | _, .lock b => do
    MonitorProgram.visit (IdeVisit.lock b)
    return .idle
  | _, .unlock b => do
    MonitorProgram.visit (IdeVisit.unlock b)
    return .idle
  | point, .kill q => do
    kill q
    return point

/-- The processes and interrupts around the disk. -/
abbrev System (Pid Buf : Type) :=
  Pool (Monitor Pid Buf (IdeData Buf) (IdeOuter Pid Buf)) Pid
    (@MonitorAnswer Pid Buf _ _ (@Result Buf) (@Reply Buf)) (Point Buf)

def step [Fintype Buf] :
    System Pid Buf → PoolLabel Pid (Request Pid Buf) → Except Fault (System Pid Buf × Unit) :=
  Pool.step (Monitor.perform access visit) code .blocked

/-- After `ideinit`: the queue is empty and nobody is in the driver. -/
structure Initial (system : System Pid Buf) : Prop where
  idle : system.Idle fun _ ↦ .idle
  unheld : ∀ lk, system.store.lock lk = none
  awake : ∀ p, system.store.state p ≠ .sleeping
  idequeue : system.store.data.idequeue = none
  working : system.store.data.working = none
  history : system.store.data.queued = [] ∧ system.store.data.started = [] ∧
    system.store.data.completed = []

end Ide

end Xv6Shm
