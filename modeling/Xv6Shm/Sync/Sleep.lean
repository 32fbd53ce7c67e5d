import Xv6Shm.Lib.Interaction
import Xv6Shm.Proc.State

/-!
# Spin locks, `sleep`, `wakeup` and `kill`

The calls that processes make around an object that a spin lock guards, with the states and channels
of the processes, and `sleep`, `wakeup` and `kill` as programs of these calls. A process that is not
asleep may be delayed at any point, so `yield` and the choice of the scheduler need no steps.
-/

namespace Xv6Shm

open Function

/-- The lock of the object, and `ptable.lock`. -/
inductive SpinLock where
  | guard
  | ptable
deriving DecidableEq, Repr

/-- An object and the processes around it. The lock guards `data`; the processes reach `outer`
without it, in steps that other locks make atomic. -/
structure Monitor (Pid Chan Data Outer : Type) where
  lock : SpinLock → Option Pid
  state : Pid → ProcState
  chan : Pid → Option Chan
  killed : Pid → Bool
  data : Data
  outer : Outer

inductive MonitorCall (Pid Chan Op Visit : Type) where
  | acquire (lk : SpinLock)
  | release (lk : SpinLock)
  | doze (chan : Chan)
  | resume
  | tidy
  | wakeup1 (chan : Chan)
  | isKilled
  | kill1 (q : Pid)
  | access (op : Op)
  | visit (op : Visit)

variable {Pid Chan Data Outer Op Visit : Type}

def MonitorAnswer (Result : Op → Type) (Reply : Visit → Type) : MonitorCall Pid Chan Op Visit → Type
  | .isKilled => Bool
  | .access op => Result op
  | .visit op => Reply op
  | _ => Unit

/-- What a call adds to the history of the object. -/
def MonitorAnswer.event {Event : Type} {Result : Op → Type} {Reply : Visit → Type}
    (event : (op : Op) → Result op → Option Event) :
    (call : MonitorCall Pid Chan Op Visit) → MonitorAnswer Result Reply call → Option Event
  | .access op, answer => event op answer
  | _, _ => none

namespace Monitor

/-- A process asleep on a channel. -/
def Asleep (m : Monitor Pid Chan Data Outer) (p : Pid) (c : Chan) : Prop :=
  m.state p = .sleeping ∧ m.chan p = some c

instance [DecidableEq Chan] (m : Monitor Pid Chan Data Outer) (p : Pid) (c : Chan) :
    Decidable (m.Asleep p c) := instDecidableAnd

abbrev Action (Pid Chan Data Outer : Type) :=
  StateT (Monitor Pid Chan Data Outer) (Except Fault)

def setLock (m : Monitor Pid Chan Data Outer) (lk : SpinLock) (holder : Option Pid) :
    Monitor Pid Chan Data Outer :=
  { m with lock := update m.lock lk holder }

@[simp] theorem setLock_lock_self (m : Monitor Pid Chan Data Outer) (lk : SpinLock)
    (holder : Option Pid) : (m.setLock lk holder).lock lk = holder := update_self _ _ _

theorem setLock_lock_of_ne {m : Monitor Pid Chan Data Outer} {lk l : SpinLock}
    {holder : Option Pid} (h : l ≠ lk) : (m.setLock lk holder).lock l = m.lock l :=
  update_of_ne h _ _

variable (m : Monitor Pid Chan Data Outer)

include m

theorem setLock_lock_iff {lk : SpinLock} {holder : Option Pid}
    {p q : Pid} (hheld : m.lock lk = none ∧ holder = some p ∨ m.lock lk = some p ∧ holder = none)
    (hq : q ≠ p) (l : SpinLock) : (m.setLock lk holder).lock l = some q ↔ m.lock l = some q := by
  by_cases hl : l = lk
  · subst hl
    rcases hheld with ⟨hfree, rfl⟩ | ⟨hheld, rfl⟩
    · simp [hfree, hq.symm]
    · simp [hheld, hq.symm]
  · rw [setLock_lock_of_ne hl]

@[simp] theorem setLock_guard_lock_ptable (holder : Option Pid) :
    (m.setLock .guard holder).lock .ptable = m.lock .ptable := rfl

@[simp] theorem setLock_ptable_lock_guard (holder : Option Pid) :
    (m.setLock .ptable holder).lock .guard = m.lock .guard := rfl

@[simp] theorem setLock_state (lk : SpinLock)
    (holder : Option Pid) : (m.setLock lk holder).state = m.state := rfl

@[simp] theorem setLock_chan (lk : SpinLock)
    (holder : Option Pid) : (m.setLock lk holder).chan = m.chan := rfl

omit m

section

variable [DecidableEq Pid]

def setState (m : Monitor Pid Chan Data Outer) (p : Pid) (state : ProcState) :
    Monitor Pid Chan Data Outer :=
  { m with state := update m.state p state }

def setChan (m : Monitor Pid Chan Data Outer) (p : Pid) (chan : Option Chan) :
    Monitor Pid Chan Data Outer :=
  { m with chan := update m.chan p chan }

section

variable (m : Monitor Pid Chan Data Outer) (p : Pid) (state : ProcState) (chan : Option Chan)

@[simp] theorem setState_lock : (m.setState p state).lock = m.lock := rfl

@[simp] theorem setState_chan : (m.setState p state).chan = m.chan := rfl

@[simp] theorem setState_state_self : (m.setState p state).state p = state :=
  update_self _ _ _

@[simp] theorem setChan_lock : (m.setChan p chan).lock = m.lock := rfl

@[simp] theorem setChan_state : (m.setChan p chan).state = m.state := rfl

@[simp] theorem setChan_chan_self : (m.setChan p chan).chan p = chan := update_self _ _ _

variable {m p state chan} {q : Pid}

theorem setState_state_of_ne (h : q ≠ p) : (m.setState p state).state q = m.state q :=
  update_of_ne h _ _

theorem setChan_chan_of_ne (h : q ≠ p) : (m.setChan p chan).chan q = m.chan q :=
  update_of_ne h _ _

end

/-- `acquire`, which is tried again as long as another process holds the lock. -/
def acquire (p : Pid) (lk : SpinLock) : Action Pid Chan Data Outer Unit := do
  let m ← get
  if m.lock lk = some p then throw (.panic "acquire")
  else if (m.lock lk).isSome then throw .blocked
  else modify fun m ↦ m.setLock lk (some p)

def release (p : Pid) (lk : SpinLock) : Action Pid Chan Data Outer Unit := do
  let m ← get
  if m.lock lk = some p then modify fun m ↦ m.setLock lk none
  else throw (.panic "release")

/-- The middle of `sleep` up to the switch to the scheduler, with the checks of `sched`. The
scheduler, or the process that it picks, releases `ptable.lock`. -/
def doze (p : Pid) (chan : Chan) : Action Pid Chan Data Outer Unit := do
  let m ← get
  if m.lock .ptable ≠ some p then throw (.panic "sched ptable.lock")
  else if m.lock .guard = some p then throw (.panic "sched locks")
  else modify fun m ↦ ((m.setChan p (some chan)).setState p .sleeping).setLock .ptable none

/-- A scheduler has picked the process, which finds itself behind `sched` with `ptable.lock`. -/
def resume (p : Pid) : Action Pid Chan Data Outer Unit := do
  let m ← get
  if m.state p = .runnable ∧ (m.lock .ptable).isNone then
    modify fun m ↦ (m.setState p .running).setLock .ptable (some p)
  else throw .blocked

def tidy (p : Pid) : Action Pid Chan Data Outer Unit := modify fun m ↦ m.setChan p none

/-- The processes asleep on a channel are made runnable. -/
def rouse [DecidableEq Chan] (m : Monitor Pid Chan Data Outer) (chan : Chan) :
    Monitor Pid Chan Data Outer :=
  { m with state := fun q ↦ if m.Asleep q chan then .runnable else m.state q }

/-- `wakeup1`, which goes over all processes. -/
def wakeup1 [DecidableEq Chan] (chan : Chan) : Action Pid Chan Data Outer Unit :=
  modify fun m ↦ m.rouse chan

def setKilled (m : Monitor Pid Chan Data Outer) (q : Pid) : Monitor Pid Chan Data Outer :=
  { m with
    killed := update m.killed q true
    state := update m.state q (if m.state q = .sleeping then .runnable else m.state q) }

/-- What `kill` does to the process that it has found. -/
def kill1 (q : Pid) : Action Pid Chan Data Outer Unit := modify fun m ↦ m.setKilled q

/-- A call by a process, given what the operations on the object do. -/
def perform [DecidableEq Chan] {Result : Op → Type} {Reply : Visit → Type}
    (access : Pid → (op : Op) → Data → Except Fault (Result op × Data))
    (visit : Pid → (op : Visit) → Outer → Except Fault (Reply op × Outer)) (p : Pid) :
    (call : MonitorCall Pid Chan Op Visit) →
      Action Pid Chan Data Outer (MonitorAnswer Result Reply call)
  | .acquire lk => acquire p lk
  | .release lk => release p lk
  | .doze chan => doze p chan
  | .resume => resume p
  | .tidy => tidy p
  | .wakeup1 chan => wakeup1 chan
  | .isKilled => do return (← get).killed p
  | .kill1 q => kill1 q
  | .access op => fun m ↦ do
    let (result, data) ← access p op m.data
    pure (result, { m with data := data })
  | .visit op => fun m ↦ do
    let (reply, outer) ← visit p op m.outer
    pure (reply, { m with outer := outer })

variable {m : Monitor Pid Chan Data Outer} {p : Pid} {lk : SpinLock} {allowed : Fault → Prop}

theorem acquire_ends (hblocked : allowed .blocked) (hother : m.lock lk ≠ some p) :
    Ends allowed (fun _ m' ↦ m.lock lk = none ∧ m' = m.setLock lk (some p))
      (Monitor.acquire p lk m) := by
  unfold Monitor.acquire
  rw [ends_bind, ends_get, if_neg hother]
  apply ends_ite
  · intro _
    exact hblocked
  · intro hfree
    simp only [Option.isSome_iff_ne_none, ne_eq, not_not] at hfree
    exact ⟨hfree, rfl⟩

theorem release_ends (hheld : m.lock lk = some p) :
    Ends allowed (fun _ m' ↦ m' = m.setLock lk none) (Monitor.release p lk m) := by
  unfold Monitor.release
  rw [ends_bind, ends_get, if_pos hheld, ends_modify]

theorem doze_ends {c : Chan} (htable : m.lock .ptable = some p) (hguard : m.lock .guard ≠ some p) :
    Ends allowed
      (fun _ m' ↦ m' = ((m.setChan p (some c)).setState p .sleeping).setLock .ptable none)
      (Monitor.doze p c m) := by
  unfold Monitor.doze
  rw [ends_bind, ends_get, if_neg (not_not.mpr htable), if_neg hguard, ends_modify]

omit [DecidableEq Pid] in
theorem rouse_asleep [DecidableEq Chan] {q : Pid} {c : Chan} :
    (m.rouse c).state q = .sleeping ↔ m.state q = .sleeping ∧ ¬ m.Asleep q c := by
  unfold rouse
  by_cases hasleep : m.Asleep q c
  · simp [hasleep]
  · simp [hasleep]

theorem setKilled_asleep {q r : Pid} (h : (m.setKilled q).state r = .sleeping) :
    m.state r = .sleeping := by
  unfold setKilled at h
  by_cases hr : r = q
  · subst hr
    simp only [update_self] at h
    split at h
    · cases h
    · exact h
  · simpa only [update_of_ne hr] using h

theorem resume_ends (hblocked : allowed .blocked) : Ends allowed (fun _ m' ↦ m.lock .ptable = none ∧
      m' = (m.setState p .running).setLock .ptable (some p)) (Monitor.resume p m) := by
  unfold Monitor.resume
  rw [ends_bind, ends_get]
  apply ends_ite
  · intro hpicked
    exact ⟨Option.isNone_iff_eq_none.mp hpicked.2, rfl⟩
  · intro _
    exact hblocked

end

end Monitor

/-- A program of calls around an object. -/
abbrev MonitorProgram (Pid Chan : Type) (Result : Op → Type) (Reply : Visit → Type) :=
  Program (@MonitorAnswer Pid Chan Op Visit Result Reply)

namespace MonitorProgram

variable {Result : Op → Type} {Reply : Visit → Type}

def call (op : MonitorCall Pid Chan Op Visit) :
    MonitorProgram Pid Chan Result Reply (MonitorAnswer Result Reply op) := Program.lift op

/-- `sleep` with the lock of the object. -/
def sleep (chan : Chan) : MonitorProgram Pid Chan Result Reply Unit := do
  call (.acquire .ptable)
  call (.release .guard)
  call (.doze chan)
  call .resume
  call .tidy
  call (.release .ptable)
  call (.acquire .guard)

def wakeup (chan : Chan) : MonitorProgram Pid Chan Result Reply Unit := do
  call (.acquire .ptable)
  call (.wakeup1 chan)
  call (.release .ptable)

/-- `kill`, with the process that its loop finds. -/
def kill (q : Pid) : MonitorProgram Pid Chan Result Reply Unit := do
  call (.acquire .ptable)
  call (.kill1 q)
  call (.release .ptable)

def acquire : MonitorProgram Pid Chan Result Reply Unit := call (.acquire .guard)

def release : MonitorProgram Pid Chan Result Reply Unit := call (.release .guard)

def access (op : Op) : MonitorProgram Pid Chan Result Reply (Result op) := call (.access op)

def visit (op : Visit) : MonitorProgram Pid Chan Result Reply (Reply op) := call (.visit op)

def isKilled : MonitorProgram Pid Chan Result Reply Bool := call .isKilled

end MonitorProgram

end Xv6Shm
