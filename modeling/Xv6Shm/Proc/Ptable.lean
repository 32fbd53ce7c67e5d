import Mathlib.Data.List.FinRange
import Xv6Shm.Proc.State

/-!
# The process table

The calls of `proc.c` that create, end, wait for and kill processes. A step is a section of the code
under `ptable.lock`, or a write to a slot that only its owner makes; `fork` is four steps. Whether
memory suffices is part of the label. A process is resumed only where it left off, so the table
records the place of each kernel thread.
-/

namespace Xv6Shm

open Function

/-- A process that has started and not ended. -/
def ProcState.alive : ProcState → Bool
  | .sleeping | .runnable | .running => true
  | .unused | .embryo | .zombie => false

namespace Ptable

abbrev Slot := Fin nProc

instance : NeZero nProc := ⟨by decide⟩

/-- A channel: `wait` sleeps on the process itself, all else elsewhere. -/
inductive Chan where
  | proc (p : Slot)
  | other (address : ℕ)
deriving DecidableEq

structure Proc where
  state : ProcState
  pid : ℤ
  parent : Option Slot
  chan : Option Chan
  killed : Bool

/-- Where a kernel thread is: outside these calls, in `fork` with a slot at one of three stages, or
in `sleep`, called by `wait` or for something else. -/
inductive Point where
  | user
  | allocated (np : Slot)
  | stacked (np : Slot)
  | copied (np : Slot)
  | waiting
  | dozing
deriving DecidableEq

/-- The slot of a process that is being created. -/
def Point.holds : Point → Option Slot
  | .allocated np | .stacked np | .copied np => some np
  | .user | .waiting | .dozing => none

abbrev Procs := Slot → Proc

structure System where
  proc : Procs
  thread : Slot → Point
  nextpid : ℤ
  initproc : Slot

inductive Label where
  | scheduler (p : Slot)
  | yield (p : Slot)
  | allocproc (p : Slot)
  | kalloc (p : Slot) (found : Bool)
  | copyuvm (p : Slot) (found : Bool)
  | fork (p : Slot)
  | exit (p : Slot)
  | wait (p : Slot)
  | kill (p : Slot) (pid : ℤ)
  | sleep (p : Slot) (address : ℕ)
  | tidy (p : Slot)
  | wakeup (address : ℕ)
  | trap (p : Slot)

namespace Procs

def setState (procs : Procs) (p : Slot) (state : ProcState) : Procs :=
  update procs p { procs p with state := state }

/-- `allocproc` takes a slot. -/
def claim (procs : Procs) (np : Slot) (pid : ℤ) : Procs :=
  update procs np { procs np with state := .embryo, pid := pid }

/-- Wake up all processes that sleep on a channel. -/
def wakeup1 (procs : Procs) (chan : Option Chan) : Procs := fun p ↦
  if (procs p).state = .sleeping ∧ (procs p).chan = chan then { procs p with state := .runnable }
  else procs p

def setParent (procs : Procs) (p parent : Slot) : Procs :=
  update procs p { procs p with parent := some parent }

/-- One round of the loop of `exit` over the table: a child is passed to init. -/
def passChild (curproc initproc : Slot) (procs : Procs) (p : Slot) : Procs :=
  if (procs p).parent = some curproc then
    let procs := procs.setParent p initproc
    if (procs p).state = .zombie then procs.wakeup1 (some (.proc initproc)) else procs
  else procs

/-- The section of `exit` under `ptable.lock`. -/
def exit (procs : Procs) (curproc initproc : Slot) : Procs :=
  let procs := procs.wakeup1 ((procs curproc).parent.map .proc)
  let procs := (List.finRange nProc).foldl (passChild curproc initproc) procs
  procs.setState curproc .zombie

/-- The first zombie child of a process. -/
def zombieChild (procs : Procs) (curproc : Slot) : Option Slot :=
  (List.finRange nProc).find? fun p ↦ (procs p).parent = some curproc && (procs p).state = .zombie

def haveKids (procs : Procs) (curproc : Slot) : Bool :=
  (List.finRange nProc).any fun p ↦ (procs p).parent = some curproc

/-- `wait` frees the slot of a zombie. -/
def reap (procs : Procs) (p : Slot) : Procs :=
  update procs p { procs p with pid := 0, parent := none, killed := false, state := .unused }

/-- `sleep` up to `sched`. -/
def fallAsleep (procs : Procs) (p : Slot) (chan : Chan) : Procs :=
  update procs p { procs p with chan := some chan, state := .sleeping }

def tidy (procs : Procs) (p : Slot) : Procs := update procs p { procs p with chan := none }

def setKilled (procs : Procs) (p : Slot) : Procs :=
  update procs p { procs p with
    killed := true
    state := if (procs p).state = .sleeping then .runnable else (procs p).state }

end Procs

namespace System

def put (system : System) (procs : Procs) : System := { system with proc := procs }

/-- A process goes on at another place, with the given table. -/
def move (system : System) (p : Slot) (point : Point) (procs : Procs) : System :=
  { system with proc := procs, thread := update system.thread p point }

@[simp] theorem put_proc (system : System) (procs : Procs) : (system.put procs).proc = procs := rfl

@[simp] theorem put_thread (system : System) (procs : Procs) :
    (system.put procs).thread = system.thread := rfl

@[simp] theorem move_proc (system : System) (p : Slot) (point : Point) (procs : Procs) :
    (system.move p point procs).proc = procs := rfl

@[simp] theorem move_thread_self (system : System) (p : Slot) (point : Point) (procs : Procs) :
    (system.move p point procs).thread p = point := update_self _ _ _

theorem move_thread_of_ne {system : System} {p q : Slot} {point : Point} {procs : Procs}
    (h : q ≠ p) : (system.move p point procs).thread q = system.thread q :=
  update_of_ne h _ _

/-- A process that runs at a place. -/
def runs (system : System) (p : Slot) (point : Point) : Bool :=
  (system.proc p).state = .running && system.thread p = point

/-- `allocproc` up to the kernel stack; without a slot `fork` returns. -/
def allocproc (system : System) (p : Slot) : System × ℤ :=
  match (List.finRange nProc).find? fun np ↦ (system.proc np).state = .unused with
  | none => (system, -1)
  | some np =>
    ({ system.move p (.allocated np) (system.proc.claim np system.nextpid) with
        nextpid := Word.toInt (Word.ofInt (system.nextpid + 1)) }, 0)

/-- `fork` gives its slot back. -/
def abandon (system : System) (p np : Slot) : System :=
  system.move p .user (system.proc.setState np .unused)

/-- The last section of `fork`. The new process starts outside. -/
def fork (system : System) (p np : Slot) : System :=
  (system.move np .user system.proc).move p .user (system.proc.setState np .runnable)

/-- `wait`, from its start or after its `sleep`, to its end or its next `sleep`. -/
def wait (system : System) (p : Slot) : System × ℤ :=
  match system.proc.zombieChild p with
  | some child => (system.move p .user (system.proc.reap child), (system.proc child).pid)
  | none =>
    if !system.proc.haveKids p || (system.proc p).killed then (system.move p .user system.proc, -1)
    else (system.move p .waiting (system.proc.fallAsleep p (.proc p)), 0)

def kill (system : System) (pid : ℤ) : System × ℤ :=
  match (List.finRange nProc).find? fun p ↦ (system.proc p).pid = pid with
  | some p => (system.put (system.proc.setKilled p), 0)
  | none => (system, -1)

end System

def step (system : System) : Label → Except Fault (System × ℤ)
  | .scheduler p =>
    if (system.proc p).state = .runnable then
      .ok (system.put (system.proc.setState p .running), 0)
    else .error .blocked
  | .yield p =>
    if (system.proc p).state = .running then
      .ok (system.put (system.proc.setState p .runnable), 0)
    else .error .blocked
  | .allocproc p => if system.runs p .user then .ok (system.allocproc p) else .error .blocked
  | .kalloc p found =>
    match system.thread p with
    | .allocated np =>
      if (system.proc p).state ≠ .running then .error .blocked
      else if found then .ok (system.move p (.stacked np) system.proc, 0)
      else .ok (system.abandon p np, -1)
    | _ => .error .blocked
  | .copyuvm p found =>
    match system.thread p with
    | .stacked np =>
      if (system.proc p).state ≠ .running then .error .blocked
      else if found then
        .ok (system.move p (.copied np) (system.proc.setParent np p), 0)
      else .ok (system.abandon p np, -1)
    | _ => .error .blocked
  | .fork p =>
    match system.thread p with
    | .copied np =>
      if (system.proc p).state ≠ .running then .error .blocked
      else .ok (system.fork p np, (system.proc np).pid)
    | _ => .error .blocked
  | .exit p =>
    if !system.runs p .user then .error .blocked
    else if p = system.initproc then .error (.panic "init exiting")
    else .ok (system.put (system.proc.exit p system.initproc), 0)
  | .wait p =>
    if system.runs p .user then .ok (system.wait p)
    else if system.runs p .waiting then .ok ((system.put (system.proc.tidy p)).wait p)
    else .error .blocked
  | .kill p pid => if system.runs p .user then .ok (system.kill pid) else .error .blocked
  | .sleep p address =>
    if system.runs p .user then
      .ok (system.move p .dozing (system.proc.fallAsleep p (.other address)), 0)
    else .error .blocked
  | .tidy p =>
    if system.runs p .dozing then .ok (system.move p .user (system.proc.tidy p), 0)
    else .error .blocked
  | .wakeup address =>
    .ok (system.put (system.proc.wakeup1 (some (.other address))), 0)
  | .trap p =>
    if system.runs p .user then
      .ok (system.put (update system.proc p { system.proc p with killed := true }), 0)
    else .error .blocked

/-- What a step does, with the conditions under which it is made. -/
inductive Takes (system : System) : Label → System × ℤ → Prop where
  | scheduler {p : Slot} (hrunnable : (system.proc p).state = .runnable) :
    Takes system (.scheduler p) (system.put (system.proc.setState p .running), 0)
  | yield {p : Slot} (hrunning : (system.proc p).state = .running) :
    Takes system (.yield p) (system.put (system.proc.setState p .runnable), 0)
  | allocproc {p : Slot} (hrunning : (system.proc p).state = .running)
    (hthread : system.thread p = .user) :
    Takes system (.allocproc p) (system.allocproc p)
  | kalloc {p np : Slot} (hrunning : (system.proc p).state = .running)
    (hthread : system.thread p = .allocated np) :
    Takes system (.kalloc p true) (system.move p (.stacked np) system.proc, 0)
  | kallocFails {p np : Slot} (hrunning : (system.proc p).state = .running)
    (hthread : system.thread p = .allocated np) :
    Takes system (.kalloc p false) (system.abandon p np, -1)
  | copyuvm {p np : Slot} (hrunning : (system.proc p).state = .running)
    (hthread : system.thread p = .stacked np) :
    Takes system (.copyuvm p true) (system.move p (.copied np) (system.proc.setParent np p), 0)
  | copyuvmFails {p np : Slot} (hrunning : (system.proc p).state = .running)
    (hthread : system.thread p = .stacked np) :
    Takes system (.copyuvm p false) (system.abandon p np, -1)
  | fork {p np : Slot} (hrunning : (system.proc p).state = .running)
    (hthread : system.thread p = .copied np) :
    Takes system (.fork p) (system.fork p np, (system.proc np).pid)
  | exit {p : Slot} (hrunning : (system.proc p).state = .running)
    (hthread : system.thread p = .user) (hinit : p ≠ system.initproc) :
    Takes system (.exit p) (system.put (system.proc.exit p system.initproc), 0)
  | wait {p : Slot} (hrunning : (system.proc p).state = .running)
    (hthread : system.thread p = .user) :
    Takes system (.wait p) (system.wait p)
  | waitAgain {p : Slot} (hrunning : (system.proc p).state = .running)
    (hthread : system.thread p = .waiting) :
    Takes system (.wait p) ((system.put (system.proc.tidy p)).wait p)
  | kill {p : Slot} {pid : ℤ} (hrunning : (system.proc p).state = .running)
    (hthread : system.thread p = .user) :
    Takes system (.kill p pid) (system.kill pid)
  | sleep {p : Slot} {address : ℕ} (hrunning : (system.proc p).state = .running)
    (hthread : system.thread p = .user) :
    Takes system (.sleep p address)
      (system.move p .dozing (system.proc.fallAsleep p (.other address)), 0)
  | tidy {p : Slot} (hrunning : (system.proc p).state = .running)
    (hthread : system.thread p = .dozing) :
    Takes system (.tidy p) (system.move p .user (system.proc.tidy p), 0)
  | wakeup {address : ℕ} :
    Takes system (.wakeup address) (system.put (system.proc.wakeup1 (some (.other address))), 0)
  | trap {p : Slot} (hrunning : (system.proc p).state = .running)
    (hthread : system.thread p = .user) :
    Takes system (.trap p)
      (system.put (update system.proc p { system.proc p with killed := true }), 0)

theorem System.runs_iff {system : System} {p : Slot} {point : Point} : system.runs p point = true ↔
    (system.proc p).state = .running ∧ system.thread p = point := by
  rw [System.runs, Bool.and_eq_true, decide_eq_true_eq, decide_eq_true_eq]

theorem step_takes {system : System} {label : Label} {outcome : System × ℤ}
    (h : step system label = .ok outcome) : Takes system label outcome := by
  cases label with
  | scheduler p =>
    rw [step] at h
    split at h
    · rename_i hrunnable
      cases h
      exact .scheduler hrunnable
    · cases h
  | yield p =>
    rw [step] at h
    split at h
    · rename_i hrunning
      cases h
      exact .yield hrunning
    · cases h
  | kalloc p found =>
    rw [step] at h
    split at h
    · rename_i np hthread
      split at h
      · cases h
      · rename_i hrunning
        cases found with
        | true => cases h; exact .kalloc (not_not.mp hrunning) hthread
        | false => cases h; exact .kallocFails (not_not.mp hrunning) hthread
    · cases h
  | copyuvm p found =>
    rw [step] at h
    split at h
    · rename_i np hthread
      split at h
      · cases h
      · rename_i hrunning
        cases found with
        | true => cases h; exact .copyuvm (not_not.mp hrunning) hthread
        | false => cases h; exact .copyuvmFails (not_not.mp hrunning) hthread
    · cases h
  | fork p =>
    rw [step] at h
    split at h
    · rename_i np hthread
      split at h
      · cases h
      · rename_i hrunning
        cases h
        exact .fork (not_not.mp hrunning) hthread
    · cases h
  | exit p =>
    rw [step] at h
    split at h
    · cases h
    · rename_i hruns
      split at h
      · cases h
      · rename_i hinit
        obtain ⟨hrunning, hthread⟩ := System.runs_iff.mp (by simpa using hruns)
        cases h
        exact .exit hrunning hthread hinit
  | wait p =>
    rw [step] at h
    split at h
    · rename_i hruns
      obtain ⟨hrunning, hthread⟩ := System.runs_iff.mp hruns
      cases h
      exact .wait hrunning hthread
    · split at h
      · rename_i hruns
        obtain ⟨hrunning, hthread⟩ := System.runs_iff.mp hruns
        cases h
        exact .waitAgain hrunning hthread
      · cases h
  | wakeup address =>
    cases h
    exact .wakeup
  | allocproc p | kill p pid | sleep p address | tidy p | trap p =>
    rw [step] at h
    split at h
    · rename_i hruns
      obtain ⟨hrunning, hthread⟩ := System.runs_iff.mp hruns
      cases h
      constructor
      · exact hrunning
      · exact hthread
    · cases h

/-- After `userinit`: init can run, and no other slot was ever used. -/
structure Initial (system : System) : Prop where
  init : system.proc system.initproc = ⟨.runnable, 1, none, none, false⟩
  unused : ∀ p ≠ system.initproc, system.proc p = ⟨.unused, 0, none, none, false⟩
  thread : ∀ p, system.thread p = .user

end Ptable

end Xv6Shm
