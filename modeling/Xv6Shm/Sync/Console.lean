import Xv6Shm.Lib.Circular
import Xv6Shm.Sync.Sleep

/-!
# The input of the console

`consoleintr` and `consoleread` as programs around the buffer `input`, which `cons.lock` guards. The
echo, the listing of processes and the inode lock are left out. `LineEditor` says what the two are
for: the characters that come in are edited until they are committed, and what is committed is
delivered.
-/

namespace Xv6Shm

def inputBuf : ℕ := 128

/-- `C(x)`. -/
def control (x : Char) : UInt8 := x.toNat.toUInt8 - 64

def newline : UInt8 := 10

def carriageReturn : UInt8 := 13

def delete : UInt8 := 127

/-- The buffer `input`. -/
structure Input where
  buf : ℕ → UInt8
  r : ℕ
  w : ℕ
  e : ℕ

namespace Input

/-- The loop for `C('U')`, with at most one round for each character being edited. -/
def killLineLoop (input : Input) : ℕ → ℕ → ℕ
  | 0, e => e
  | rounds + 1, e =>
    if e ≠ input.w ∧ input.buf (Word.sub e 1 % inputBuf) ≠ newline then
      killLineLoop input rounds (Word.sub e 1)
    else e

def killLine (input : Input) : Input :=
  { input with e := killLineLoop input (Word.sub input.e input.w) input.e }

def backspace (input : Input) : Input :=
  if input.e ≠ input.w then { input with e := Word.sub input.e 1 } else input

/-- A character is stored at the end. -/
def append (input : Input) (c : UInt8) : Input :=
  { input with
    buf := Function.update input.buf (input.e % inputBuf) c
    e := Word.add input.e 1 }

/-- Whether what is in the buffer becomes readable after a character. -/
def commits (input : Input) (c : UInt8) : Bool :=
  c = newline || c = control 'D' || input.e = Word.add input.r inputBuf

def commit (input : Input) : Input := { input with w := input.e }

/-- The last case of the switch of `consoleintr`, with whether it calls `wakeup`. -/
def enter (input : Input) (c : UInt8) : Bool × Input :=
  if c ≠ 0 ∧ Word.sub input.e input.r < inputBuf then
    let c := if c = carriageReturn then newline else c
    let input := input.append c
    if input.commits c then (true, input.commit) else (false, input)
  else (false, input)

/-- The switch of `consoleintr`. -/
def handle (input : Input) (c : UInt8) : Bool × Input :=
  if c = control 'P' then (false, input)
  else if c = control 'U' then (false, input.killLine)
  else if c = control 'H' ∨ c = delete then (false, input.backspace)
  else input.enter c

/-- The next character for a process that has received some: `C('D')` is put back unless it is the
first one. -/
def take (input : Input) (received : List UInt8) : UInt8 × Input :=
  let c := input.buf (input.r % inputBuf)
  let input := { input with r := Word.add input.r 1 }
  if c = control 'D' ∧ received ≠ [] then (c, { input with r := Word.sub input.r 1 })
  else (c, input)

end Input

/-- A character comes in, one is delivered, or an end of file is. -/
inductive ConsoleEvent where
  | typed (c : UInt8)
  | read (c : UInt8)
  | eof

/-- An abstract line editor: the characters that were committed, those of them that were delivered,
and those being edited. -/
structure LineEditor where
  committed : List UInt8
  delivered : List UInt8
  tail : List UInt8

namespace LineEditor

/-- The number of characters that are not yet delivered. -/
def load (editor : LineEditor) : ℕ :=
  editor.committed.length - editor.delivered.length + editor.tail.length

def append (editor : LineEditor) (c : UInt8) : LineEditor := { editor with tail := editor.tail ++ [c] }

def commit (editor : LineEditor) : LineEditor :=
  { editor with committed := editor.committed ++ editor.tail, tail := [] }

/-- An ordinary character; a newline, `C('D')` and a character that fills the buffer commit. -/
def enter (editor : LineEditor) (c : UInt8) : LineEditor :=
  if c ≠ 0 ∧ editor.load < inputBuf then
    let c := if c = carriageReturn then newline else c
    let editor := editor.append c
    if c = newline ∨ c = control 'D' ∨ editor.load = inputBuf then editor.commit else editor
  else editor

def killLine (editor : LineEditor) : LineEditor := { editor with tail := [] }

def backspace (editor : LineEditor) : LineEditor := { editor with tail := editor.tail.dropLast }

def handle (editor : LineEditor) (c : UInt8) : LineEditor :=
  if c = control 'P' then editor
  else if c = control 'U' then editor.killLine
  else if c = control 'H' ∨ c = delete then editor.backspace
  else editor.enter c

def deliver (editor : LineEditor) (c : UInt8) : LineEditor :=
  { editor with delivered := editor.delivered ++ [c] }

/-- `C('D')` is delivered as an end of file. -/
def next (editor : LineEditor) : ConsoleEvent → LineEditor
  | .typed c => editor.handle c
  | .read c => editor.deliver c
  | .eof => editor.deliver (control 'D')

/-- The editor after a history that begins with nothing. -/
def run (events : List ConsoleEvent) : LineEditor := events.foldl next ⟨[], [], []⟩

end LineEditor

/-- The buffer with its history. -/
structure ConsoleData (Pid : Type) where
  input : Input
  history : List (Pid × ConsoleEvent)

def ConsoleData.editor {Pid : Type} (data : ConsoleData Pid) : LineEditor :=
  LineEditor.run (data.history.map Prod.snd)

inductive ConsoleOp where
  | look
  | handle (c : UInt8)
  | take (received : List UInt8)

namespace Console

variable {Pid : Type} [DecidableEq Pid]

abbrev Result : ConsoleOp → Type
  | .look => Input
  | .handle _ => Bool
  | .take _ => UInt8

abbrev Reply : Empty → Type := fun _ ↦ Unit

/-- The event of an operation. `C('D')` is delivered only to a process that has received nothing. -/
def opEvent : (op : ConsoleOp) → Result op → Option ConsoleEvent
  | .look, _ => none
  | .handle c, _ => some (.typed c)
  | .take received, c =>
    if c = control 'D' then if received = [] then some .eof else none else some (.read c)

def access (p : Pid) :
    (op : ConsoleOp) → ConsoleData Pid → Except Fault (Result op × ConsoleData Pid)
  | .look, data => .ok (data.input, data)
  | .handle c, data =>
    .ok ((data.input.handle c).1, ⟨(data.input.handle c).2, data.history ++ [(p, .typed c)]⟩)
  | .take received, data =>
    .ok ((data.input.take received).1, ⟨(data.input.take received).2,
      noted ((opEvent (.take received) (data.input.take received).1).map (p, ·)) data.history⟩)

def visit (_ : Pid) : (op : Empty) → Unit → Except Fault (Reply op × Unit) := fun op ↦ nomatch op

/-- Where a process is: outside with what its last call has returned, or at the head of the loop of
`consoleread`. -/
inductive Point where
  | idle (returned : ℤ) (received : List UInt8)
  | reading (n : ℕ) (received : List UInt8)
deriving DecidableEq

inductive Request (Pid : Type) where
  | interrupt (chars : List UInt8)
  | read (n : ℕ)
  | kill (q : Pid)

open MonitorProgram

abbrev Code (Pid : Type) := MonitorProgram Pid Unit Result Reply

/-- One character of `consoleintr`. -/
def handle (c : UInt8) : Code Pid Unit := do
  let committed : Bool ← MonitorProgram.access (ConsoleOp.handle c)
  if committed then wakeup () else return ()

/-- The loop of `consoleintr` over the characters that `getc` returns. -/
def handleAll : List UInt8 → Code Pid Unit
  | [] => return ()
  | c :: rest => do
    handle c
    handleAll rest

def consoleintr (chars : List UInt8) : Code Pid Point := do
  acquire
  handleAll chars
  release
  return .idle 0 []

/-- `consoleread` up to its loop. -/
def consoleread (n : ℕ) : Code Pid Point := do
  acquire
  return .reading n []

/-- The end of `consoleread`. -/
def readDone (received : List UInt8) : Code Pid Point := do
  release
  return .idle received.length received

/-- One round of the loops of `consoleread`. -/
def readRound (n : ℕ) (received : List UInt8) : Code Pid Point :=
  if n = 0 then readDone received
  else do
    let input : Input ← MonitorProgram.access ConsoleOp.look
    if input.r = input.w then do
      let killed : Bool ← isKilled
      if killed then do
        release
        return .idle (-1) received
      else do
        sleep ()
        return .reading n received
    else do
      let c : UInt8 ← MonitorProgram.access (ConsoleOp.take received)
      if c = control 'D' then readDone received
      else if c = newline then readDone (received ++ [c])
      else return .reading (n - 1) (received ++ [c])

/-- What a process does next. In a loop it goes on with it whatever the request. -/
def code : Point → Request Pid → Code Pid Point
  | .reading n received, _ => readRound n received
  | .idle _ _, .interrupt chars => consoleintr chars
  | .idle _ _, .read n => consoleread n
  | .idle _ _, .kill q => do
    kill q
    return .idle 0 []

/-- The processes and interrupt handlers around the console. -/
abbrev System (Pid : Type) :=
  Pool (Monitor Pid Unit (ConsoleData Pid) Unit) Pid (@MonitorAnswer Pid Unit _ _ Result Reply) Point

/-- Before the first character: the counters are equal and nobody is in one of the functions. -/
structure Initial (system : System Pid) : Prop where
  idle : ∀ p, ∃ returned received, system.process p = .done (.idle returned received)
  unheld : ∀ lk, system.store.lock lk = none
  awake : ∀ p, system.store.state p ≠ .sleeping
  input : ∃ buf, system.store.data = ⟨⟨buf, 0, 0, 0⟩, []⟩

/-- The characters of an interrupt, or a call of `consoleread` with the bytes that it has copied and
what it has returned. -/
inductive Exchange where
  | typed (chars : List UInt8)
  | read (n : ℕ) (bytes : List UInt8) (returned : ℤ)
deriving DecidableEq

/-- The calls of a process, and the length that the call of `consoleread` it is in asks for. -/
structure Transcript where
  past : List Exchange
  pending : ℕ
deriving DecidableEq

/-- What a piece of the code adds to the transcript. -/
def transcribe : Point → Request Pid → Point → Transcript → Transcript
  | .idle _ _, .interrupt chars, _, log => { log with past := log.past ++ [.typed chars] }
  | .idle _ _, .read n, _, log => { log with pending := n }
  | .reading _ _, _, .idle returned received, log =>
    { log with past := log.past ++ [.read log.pending received returned] }
  | _, _, _, log => log

abbrev RecordedSystem (Pid : Type) := Pool (Monitor Pid Unit (ConsoleData Pid) Unit) Pid
  (@MonitorAnswer Pid Unit _ _ Result Reply) (Point × Transcript)

/-- The processes and interrupt handlers, with their transcripts. -/
def step :
    RecordedSystem Pid → PoolLabel Pid (Request Pid) → Except Fault (RecordedSystem Pid × Unit) :=
  Pool.step (Monitor.perform access visit) (Pool.recordedCode transcribe code) .blocked

end Console

end Xv6Shm
