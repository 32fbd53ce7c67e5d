import Xv6Shm.Proc.Ptable

/-!
# CPUs and context switches

The scheduler of each CPU and the kernel threads of the processes, down to the single accesses to
the process table under `ptable.lock`. A CPU is on the stack of its scheduler or of a process, and
`swtch` goes on where the other context says. The lock belongs to the CPU. The functions name a
process by `myproc()`, the field `proc` of the CPU, and not by the stack they run on; that the two
agree has to be shown.
-/

namespace Xv6Shm.Scheduler

open Function

export Ptable (Slot Chan)

/-- What a process goes on with after `swtch`: `forkret`, the end of `yield`, of `sleep` or of the
`sleep` of `wait`, and the panic behind the `sched` of `exit`. -/
inductive Return where
  | forkret
  | yield
  | sleep
  | wait
  | exit
deriving DecidableEq

/-- A place in a kernel thread; only outside it does not have `ptable.lock`. `exit` carries the
channels that it wakes up before its end. -/
inductive Point where
  | outside
  | yield
  | sleep (chan : Chan)
  | exit (chans : List Chan)
  | wait
  | wakeup (chan : Chan)
  | kill (q : Slot)
  | allocproc (q : Slot)
  | fork (q : Slot)
  | sched (ret : Return)
  | resumed (ret : Return)
  | leaving
deriving DecidableEq

/-- A place that a thread outside reaches by acquiring `ptable.lock`. -/
def Point.isEntry : Point → Bool
  | .outside | .sched _ | .resumed _ | .leaving => false
  | _ => true

/-- A place in the scheduler. While it is idle an interrupt can call `wakeup`. -/
inductive SchedPoint where
  | idle
  | scan (i : ℕ)
  | chosen (p : Slot)
  | ready (p : Slot)
  | back (p : Slot)
  | unlock
  | wakeup (chan : Chan)
deriving DecidableEq

inductive Place where
  | scheduler (point : SchedPoint)
  | process (p : Slot) (point : Point)
deriving DecidableEq

/-- `struct cpu`, with the place of the CPU. -/
structure Cpu where
  proc : Option Slot
  scheduler : SchedPoint
  place : Place

structure Proc where
  state : ProcState
  chan : Option Chan
  context : Return

abbrev Procs := Slot → Proc

structure System (Id : Type) where
  lock : Option Id
  cpu : Id → Cpu
  proc : Procs

/-- What `wait` does after a scan: it reaps a child, returns -1, or sleeps. -/
inductive WaitChoice where
  | reap (q : Slot)
  | leave
  | sleep

/-- A CPU acquires the lock for a function, makes a step, or decides in `wait`. -/
inductive Label (Id : Type) where
  | enter (c : Id) (point : Point)
  | advance (c : Id)
  | wait (c : Id) (choice : WaitChoice)

namespace Procs

def setState (procs : Procs) (p : Slot) (state : ProcState) : Procs :=
  update procs p { procs p with state := state }

def setChan (procs : Procs) (p : Slot) (chan : Option Chan) : Procs :=
  update procs p { procs p with chan := chan }

def setContext (procs : Procs) (p : Slot) (ret : Return) : Procs :=
  update procs p { procs p with context := ret }

def wakeup1 (procs : Procs) (chan : Chan) : Procs := fun p ↦
  if (procs p).state = .sleeping ∧ (procs p).chan = some chan then
    { procs p with state := .runnable }
  else procs p

end Procs

namespace System

variable {Id : Type} [DecidableEq Id]

def goto (system : System Id) (c : Id) (place : Place) : System Id :=
  { system with cpu := update system.cpu c { system.cpu c with place := place } }

def setMyproc (system : System Id) (c : Id) (proc : Option Slot) : System Id :=
  { system with cpu := update system.cpu c { system.cpu c with proc := proc } }

def put (system : System Id) (procs : Procs) : System Id := { system with proc := procs }

@[simp] theorem goto_cpu_self (system : System Id) (c : Id) (place : Place) :
    (system.goto c place).cpu c = { system.cpu c with place := place } := update_self _ _ _

theorem goto_cpu_of_ne {system : System Id} {c d : Id} {place : Place} (h : d ≠ c) :
    (system.goto c place).cpu d = system.cpu d := update_of_ne h _ _

@[simp] theorem setMyproc_cpu_self (system : System Id) (c : Id) (proc : Option Slot) :
    (system.setMyproc c proc).cpu c = { system.cpu c with proc := proc } := update_self _ _ _

theorem setMyproc_cpu_of_ne {system : System Id} {c d : Id} {proc : Option Slot} (h : d ≠ c) :
    (system.setMyproc c proc).cpu d = system.cpu d := update_of_ne h _ _

def acquire (system : System Id) (c : Id) : Except Fault (System Id) :=
  match system.lock with
  | none => .ok { system with lock := some c }
  | some d => if d = c then .error (.panic "acquire") else .error .blocked

def release (system : System Id) (c : Id) : Except Fault (System Id) :=
  if system.lock = some c then .ok { system with lock := none } else .error (.panic "release")

def myproc (system : System Id) (c : Id) : Except Fault Slot :=
  match (system.cpu c).proc with
  | some p => .ok p
  | none => .error .nullPointer

/-- `swtch` from the scheduler to a process. -/
def swtchTo (system : System Id) (c : Id) (p : Slot) : System Id :=
  { system with cpu := update system.cpu c { system.cpu c with
      scheduler := .back p
      place := .process p (.resumed (system.proc p).context) } }

/-- `swtch` from a process back to the scheduler. -/
def swtchFrom (system : System Id) (c : Id) (p : Slot) (ret : Return) : System Id :=
  (system.put (system.proc.setContext p ret)).goto c (.scheduler (system.cpu c).scheduler)

/-- The next step of the scheduler. -/
def advanceScheduler (system : System Id) (c : Id) : SchedPoint → Except Fault (System Id)
  | .idle => do
    let system ← system.acquire c
    return system.goto c (.scheduler (.scan 0))
  | .scan i =>
    if h : i < nProc then
      if (system.proc ⟨i, h⟩).state ≠ .runnable then return system.goto c (.scheduler (.scan (i + 1)))
      else return (system.setMyproc c (some ⟨i, h⟩)).goto c (.scheduler (.chosen ⟨i, h⟩))
    else return system.goto c (.scheduler .unlock)
  | .chosen p => return (system.put (system.proc.setState p .running)).goto c (.scheduler (.ready p))
  | .ready p => return system.swtchTo c p
  | .back p => return (system.setMyproc c none).goto c (.scheduler (.scan (p.val + 1)))
  | .unlock => do
    let system ← system.release c
    return system.goto c (.scheduler .idle)
  | .wakeup chan => return (system.put (system.proc.wakeup1 chan)).goto c (.scheduler .unlock)

/-- `sched`. -/
def sched (system : System Id) (c : Id) (ret : Return) : Except Fault (System Id) := do
  let p ← system.myproc c
  if system.lock ≠ some c then .error (.panic "sched ptable.lock")
  else if (system.proc p).state = .running then .error (.panic "sched running")
  else return system.swtchFrom c p ret

/-- The next step of the kernel thread of a process. -/
def advanceProcess (system : System Id) (c : Id) (p : Slot) : Point → Except Fault (System Id)
  | .outside | .wait => .error .blocked
  | .yield => do
    let curproc ← system.myproc c
    return (system.put (system.proc.setState curproc .runnable)).goto c (.process p (.sched .yield))
  | .sleep chan => do
    let curproc ← system.myproc c
    let procs := (system.proc.setChan curproc (some chan)).setState curproc .sleeping
    return (system.put procs).goto c (.process p (.sched .sleep))
  | .exit chans => do
    let curproc ← system.myproc c
    let procs := (chans.foldl Procs.wakeup1 system.proc).setState curproc .zombie
    return (system.put procs).goto c (.process p (.sched .exit))
  | .wakeup chan =>
    return (system.put (system.proc.wakeup1 chan)).goto c (.process p .leaving)
  | .kill q =>
    if (system.proc q).state = .sleeping then
      return (system.put (system.proc.setState q .runnable)).goto c (.process p .leaving)
    else return system.goto c (.process p .leaving)
  | .allocproc q =>
    if (system.proc q).state = .unused then
      let procs := (system.proc.setState q .embryo).setContext q .forkret
      return (system.put procs).goto c (.process p .leaving)
    else .error .blocked
  | .fork q =>
    if (system.proc q).state = .embryo then
      return (system.put (system.proc.setState q .runnable)).goto c (.process p .leaving)
    else .error .blocked
  | .sched ret => system.sched c ret
  | .resumed .forkret | .resumed .yield => return system.goto c (.process p .leaving)
  | .resumed .sleep => return (system.put (system.proc.setChan p none)).goto c (.process p .leaving)
  | .resumed .wait => return (system.put (system.proc.setChan p none)).goto c (.process p .wait)
  | .resumed .exit => .error (.panic "zombie exit")
  | .leaving => do
    let system ← system.release c
    return system.goto c (.process p .outside)

/-- The end of a scan of `wait`. -/
def waitStep (system : System Id) (c : Id) (p : Slot) : WaitChoice → Except Fault (System Id)
  | .reap q =>
    if (system.proc q).state = .zombie then
      return (system.put (system.proc.setState q .unused)).goto c (.process p .leaving)
    else .error .blocked
  | .leave => return system.goto c (.process p .leaving)
  | .sleep => do
    let curproc ← system.myproc c
    let procs := (system.proc.setChan curproc (some (.proc curproc))).setState curproc .sleeping
    return (system.put procs).goto c (.process p (.sched .wait))

/-- A function that needs the lock is called. -/
def enter (system : System Id) (c : Id) (point : Point) : Except Fault (System Id) :=
  match (system.cpu c).place, point with
  | .process p .outside, point =>
    if point.isEntry then do
      let system ← system.acquire c
      return system.goto c (.process p point)
    else .error .blocked
  | .scheduler .idle, .wakeup chan => do
    let system ← system.acquire c
    return system.goto c (.scheduler (.wakeup chan))
  | _, _ => .error .blocked

end System

variable {Id : Type} [DecidableEq Id]

def advance (system : System Id) (c : Id) : Except Fault (System Id) :=
  match (system.cpu c).place with
  | .scheduler point => system.advanceScheduler c point
  | .process p point => system.advanceProcess c p point

def step (system : System Id) : Label Id → Except Fault (System Id × Unit)
  | .enter c point => do return (← system.enter c point, ())
  | .advance c => do return (← advance system c, ())
  | .wait c choice =>
    match (system.cpu c).place with
    | .process p .wait => do return (← system.waitStep c p choice, ())
    | _ => .error .blocked

/-- Every CPU has just entered its scheduler, and no process runs. -/
structure Initial (system : System Id) : Prop where
  lock : system.lock = none
  cpu : ∀ c, (system.cpu c).proc = none ∧ (system.cpu c).place = .scheduler .idle
  proc : ∀ p, (system.proc p).state ≠ .running

end Xv6Shm.Scheduler
