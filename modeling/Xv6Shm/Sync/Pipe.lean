import Mathlib.Data.Finset.Basic
import Xv6Shm.Lib.Circular
import Xv6Shm.Sync.Sleep

/-!
# Pipes

`pipewrite`, `piperead` and `pipeclose` as programs around `struct pipe`. The lock of the pipe is
held from one sleep to the next, and a process can be killed at any point. A process gets an end, by
`fork` or `dup`, only while some process has it, and the last one that closes an end calls
`pipeclose`.
-/

namespace Xv6Shm

open Function

def pipeSize : ℕ := 512

/-- `struct pipe`, without its lock. -/
structure Pipe where
  data : ℕ → UInt8
  nread : ℕ
  nwrite : ℕ
  readopen : Bool
  writeopen : Bool

/-- The channels `&p->nread` and `&p->nwrite`. -/
inductive PipeChan where
  | nread
  | nwrite
deriving DecidableEq, Repr

inductive PipeEnd where
  | read
  | write
deriving DecidableEq, Repr

namespace Pipe

/-- The pipe that `pipealloc` makes of a page. -/
def alloc (page : ℕ → UInt8) : Pipe := ⟨page, 0, 0, true, true⟩

def isFull (pipe : Pipe) : Bool := decide (pipe.nwrite = Word.add pipe.nread pipeSize)

def isEmpty (pipe : Pipe) : Bool := decide (pipe.nread = pipe.nwrite)

/-- `p->data[p->nwrite++ % PIPESIZE] = c`. -/
def put (pipe : Pipe) (c : UInt8) : Pipe :=
  { pipe with
    data := update pipe.data (pipe.nwrite % pipeSize) c
    nwrite := Word.add pipe.nwrite 1 }

/-- The byte `p->data[p->nread % PIPESIZE]`. -/
def first (pipe : Pipe) : UInt8 := pipe.data (pipe.nread % pipeSize)

def skip (pipe : Pipe) : Pipe := { pipe with nread := Word.add pipe.nread 1 }

def close (pipe : Pipe) : PipeEnd → Pipe
  | .read => { pipe with readopen := false }
  | .write => { pipe with writeopen := false }

end Pipe

/-- A byte is stored, or it is delivered. -/
inductive PipeEvent where
  | put (c : UInt8)
  | take (c : UInt8)

def PipeEvent.stored? : PipeEvent → Option UInt8
  | .put c => some c
  | .take _ => none

def PipeEvent.delivered? : PipeEvent → Option UInt8
  | .put _ => none
  | .take c => some c

/-- The pipe with its history. -/
structure PipeData (Pid : Type) where
  pipe : Pipe
  history : List (Pid × PipeEvent)

inductive PipeOp where
  | look
  | put (c : UInt8)
  | take
  | close (side : PipeEnd)

/-- What the layer of open files does: whether the process has an end, one more process has an end,
and a process closes an end, with the answer whether it was the last one. -/
inductive PipeVisit where
  | has (side : PipeEnd)
  | share (side : PipeEnd)
  | drop (side : PipeEnd)

namespace Pipe

variable {Pid : Type} [DecidableEq Pid]

/-- All bytes that were stored, in order. -/
def stored (history : List (Pid × PipeEvent)) : List UInt8 := history.filterMap (·.2.stored?)

def delivered (history : List (Pid × PipeEvent)) : List UInt8 :=
  history.filterMap (·.2.delivered?)

abbrev Result : PipeOp → Type
  | .look => Pipe
  | .take => UInt8
  | _ => Unit

abbrev Reply : PipeVisit → Type
  | .share _ => Unit
  | _ => Bool

def access (p : Pid) : (op : PipeOp) → PipeData Pid → Except Fault (Result op × PipeData Pid)
  | .look, data => .ok (data.pipe, data)
  | .put c, data => .ok ((), ⟨data.pipe.put c, data.history ++ [(p, .put c)]⟩)
  | .take, data =>
    .ok (data.pipe.first, ⟨data.pipe.skip, data.history ++ [(p, .take data.pipe.first)]⟩)
  | .close side, data => .ok ((), { data with pipe := data.pipe.close side })

/-- The processes that have an open file for each end. -/
abbrev Holders (Pid : Type) := PipeEnd → Finset Pid

def visit (p : Pid) : (op : PipeVisit) → Holders Pid → Except Fault (Reply op × Holders Pid)
  | .has side, holders => .ok (decide (p ∈ holders side), holders)
  | .share side, holders =>
    if holders side = ∅ then .error (.panic "filedup")
    else .ok ((), update holders side (insert p (holders side)))
  | .drop side, holders =>
    .ok (decide (p ∈ holders side ∧ (holders side).erase p = ∅),
      update holders side ((holders side).erase p))

/-- Where a process is: outside with what the last call has returned, at the head of the loop of
`pipewrite` or of one of the loops of `piperead`. -/
inductive Point where
  | idle (returned : ℤ) (received : List UInt8)
  | writing (n : ℕ) (rest : List UInt8)
  | reading (n : ℕ)
  | copying (n : ℕ) (received : List UInt8)
deriving DecidableEq

inductive Request (Pid : Type) where
  | write (bytes : List UInt8)
  | read (n : ℕ)
  | share (side : PipeEnd)
  | close (side : PipeEnd)
  | kill (q : Pid)

open MonitorProgram

abbrev Code (Pid : Type) := MonitorProgram Pid PipeChan Result Reply

/-- `pipewrite` up to its loop. -/
def pipewrite (bytes : List UInt8) : Code Pid Point := do
  let has : Bool ← MonitorProgram.visit (PipeVisit.has .write)
  if has then do
    acquire
    return .writing bytes.length bytes
  else return .idle (-1) []

/-- One round of the loops of `pipewrite`, and what follows the last round. -/
def writeRound (n : ℕ) : List UInt8 → Code Pid Point
  | [] => do
    wakeup .nread
    release
    return .idle n []
  | c :: rest => do
    let pipe : Pipe ← MonitorProgram.access PipeOp.look
    if pipe.isFull then
      if pipe.readopen = false then do
        release
        return .idle (-1) []
      else do
        let killed : Bool ← isKilled
        if killed then do
          release
          return .idle (-1) []
        else do
          wakeup .nread
          sleep .nwrite
          return .writing n (c :: rest)
    else do
      MonitorProgram.access (PipeOp.put c)
      return .writing n rest

/-- `piperead` up to its first loop. -/
def piperead (n : ℕ) : Code Pid Point := do
  let has : Bool ← MonitorProgram.visit (PipeVisit.has .read)
  if has then do
    acquire
    return .reading n
  else return .idle (-1) []

/-- One round of the loop of `piperead` that waits for data. -/
def waitRound (n : ℕ) : Code Pid Point := do
  let pipe : Pipe ← MonitorProgram.access PipeOp.look
  if pipe.isEmpty && pipe.writeopen then do
    let killed : Bool ← isKilled
    if killed then do
      release
      return .idle (-1) []
    else do
      sleep .nread
      return .reading n
  else return .copying n []

/-- The end of `piperead`. -/
def readDone (received : List UInt8) : Code Pid Point := do
  wakeup .nwrite
  release
  return .idle received.length received

/-- One round of the loop of `piperead` that copies the data. -/
def copyRound (n : ℕ) (received : List UInt8) : Code Pid Point := do
  if received.length < n then do
    let pipe : Pipe ← MonitorProgram.access PipeOp.look
    if pipe.isEmpty then readDone received
    else do
      let c : UInt8 ← MonitorProgram.access PipeOp.take
      return .copying n (received ++ [c])
  else readDone received

/-- The channel on which `pipeclose` wakes processes up. -/
def closeChan : PipeEnd → PipeChan
  | .read => .nwrite
  | .write => .nread

/-- `fileclose` with `pipeclose`. The page of a pipe with both ends closed is freed; no open file
leads to it any more. -/
def fileclose (side : PipeEnd) : Code Pid Point := do
  let last : Bool ← MonitorProgram.visit (PipeVisit.drop side)
  if last then do
    acquire
    MonitorProgram.access (PipeOp.close side)
    wakeup (closeChan side)
    release
    return .idle 0 []
  else return .idle 0 []

/-- What a process does next. In a loop it goes on with it whatever the request. -/
def code : Point → Request Pid → Code Pid Point
  | .writing n rest, _ => writeRound n rest
  | .reading n, _ => waitRound n
  | .copying n received, _ => copyRound n received
  | .idle _ _, .write bytes => pipewrite bytes
  | .idle _ _, .read n => piperead n
  | .idle _ _, .share side => do
    MonitorProgram.visit (PipeVisit.share side)
    return .idle 0 []
  | .idle _ _, .close side => fileclose side
  | .idle _ _, .kill q => do
    kill q
    return .idle 0 []

/-- The processes around one pipe. -/
abbrev System (Pid : Type) :=
  Pool (Monitor Pid PipeChan (PipeData Pid) (Holders Pid)) Pid
    (@MonitorAnswer Pid PipeChan _ _ Result Reply) Point

def step : System Pid → PoolLabel Pid (Request Pid) → Except Fault (System Pid × Unit) :=
  Pool.step (Monitor.perform access visit) code .blocked

/-- After `pipealloc`: the pipe is empty and no process is in one of the functions. -/
structure Initial (system : System Pid) : Prop where
  idle : ∀ p, ∃ returned received, system.process p = .done (.idle returned received)
  unheld : ∀ lk, system.store.lock lk = none
  awake : ∀ p, system.store.state p ≠ .sleeping
  pipe : ∃ page, system.store.data = ⟨.alloc page, []⟩

/-- A call of `pipewrite` with what it has returned, or the bytes that one of `piperead` returned. -/
inductive Exchange where
  | wrote (bytes : List UInt8) (returned : ℤ)
  | received (bytes : List UInt8)
deriving DecidableEq

/-- The calls of a process, and the bytes of the call of `pipewrite` that it is in. -/
structure Transcript where
  past : List Exchange
  pending : List UInt8
deriving DecidableEq

/-- What a piece of the code adds to the transcript. A call of `piperead` returns the first bytes
that it has received, as many as its result says. -/
def transcribe : Point → Request Pid → Point → Transcript → Transcript
  | .idle _ _, .write bytes, .idle returned _, log =>
    { log with past := log.past ++ [.wrote bytes returned] }
  | .idle _ _, .write bytes, _, log => { log with pending := bytes }
  | .writing _ _, _, .idle returned _, log =>
    { log with past := log.past ++ [.wrote log.pending returned] }
  | .copying _ _, _, .idle returned received, log =>
    { log with past := log.past ++ [.received (received.take returned.toNat)] }
  | _, _, _, log => log

/-- The processes around one pipe, with their transcripts. -/
abbrev RecordedSystem (Pid : Type) :=
  Pool (Monitor Pid PipeChan (PipeData Pid) (Holders Pid)) Pid
    (@MonitorAnswer Pid PipeChan _ _ Result Reply) (Point × Transcript)

end Pipe

end Xv6Shm
