import Xv6Shm.Proc.Family

/-!
# The lives of a slot

The history of a slot, as far as other processes take part: it is allocated, the process starts and
exits, and its parent reaps it, or its allocation is abandoned. The history is read off the states
before and after each step, so it shows whatever the calls do. In every run it is a sequence of
complete lives and the present one.
-/

namespace Xv6Shm

open Function

/-- What the parent of a process has to know about it. -/
inductive Stage where
  | free
  | embryo
  | alive
  | zombie
deriving DecidableEq

def ProcState.stage : ProcState → Stage
  | .unused => .free
  | .embryo => .embryo
  | .sleeping | .runnable | .running => .alive
  | .zombie => .zombie

variable {state : ProcState}

theorem ProcState.stage_of_alive (h : state.alive = true) : state.stage = .alive := by
  cases state with
  | sleeping | runnable | running => rfl
  | unused | embryo | zombie => cases h

theorem ProcState.started (hunused : state ≠ .unused)
    (hembryo : state ≠ .embryo) : state.alive = true ∨ state = .zombie := by
  cases state with
  | sleeping | runnable | running => exact Or.inl rfl
  | zombie => exact Or.inr rfl
  | unused => exact absurd rfl hunused
  | embryo => exact absurd rfl hembryo

namespace Ptable

open Fallible

/-- A change of stage; for the last one, who called `wait` and the parent at that time. -/
inductive Event where
  | allocated
  | abandoned
  | started
  | exited
  | reaped (caller : Slot) (parent : Option Slot)
deriving DecidableEq

/-- The event that a change of stage in a step is. -/
def event (label : Label) (parent : Option Slot) : Stage → Stage → Option Event
  | .free, .embryo => some .allocated
  | .embryo, .free => some .abandoned
  | .embryo, .alive => some .started
  | .alive, .zombie => some .exited
  | .zombie, .free =>
    match label with
    | .wait p => some (.reaped p parent)
    | _ => none
  | _, _ => none

def note (history : Slot → List Event) (system : System) (label : Label) (next : System) (_ : ℤ) :
    Slot → List Event := fun s ↦
  history s ++ (event label (system.proc s).parent (system.proc s).state.stage
    (next.proc s).state.stage).toList

/-- The changes of stage that occur. -/
inductive Turn (label : Label) (parent : Option Slot) : Stage → Stage → Prop where
  | same (stage : Stage) : Turn label parent stage stage
  | allocated : Turn label parent .free .embryo
  | abandoned : Turn label parent .embryo .free
  | started : Turn label parent .embryo .alive
  | exited : Turn label parent .alive .zombie
  | reaped {p : Slot} (hlabel : label = .wait p) (hparent : parent = some p) :
    Turn label parent .zombie .free

section Turn

variable {label : Label} {parent : Option Slot} {stage stage' : Stage}

theorem Turn.of_eq (h : stage' = stage) : Turn label parent stage stage' := by
  rw [h]
  exact .same stage

end Turn

section Stages

variable {procs procs' : Procs} {label : Label} {parent : Option Slot} {p np s : Slot}

theorem Calm.stage (h : Calm procs procs') (s : Slot) :
    (procs' s).state.stage = (procs s).state.stage := by
  rcases h.state s with hsame | ⟨hbefore, hafter⟩
  · rw [hsame]
  · rw [ProcState.stage_of_alive hbefore, ProcState.stage_of_alive hafter]

theorem passChild_stage (curproc initproc child s : Slot) :
    (procs.passChild curproc initproc child s).state.stage = (procs s).state.stage := by
  unfold Procs.passChild
  split
  · dsimp only
    split
    · rw [(Quiet.wakeup1 _).stage, setParent_state]
    · rw [setParent_state]
  · rfl

variable {system : System}

end Stages

/-- The table after `userinit`, with init in slot 0. -/
def boot : System where
  proc p := if p = 0 then ⟨.runnable, 1, none, none, false⟩ else ⟨.unused, 0, none, none, false⟩
  thread _ := .user
  nextpid := 2
  initproc := 0

theorem boot_initial : Initial boot :=
  ⟨rfl, fun _ hp ↦ if_neg hp, fun _ ↦ rfl⟩

end Ptable

end Xv6Shm
