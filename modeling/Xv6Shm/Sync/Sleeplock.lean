import Xv6Shm.Sync.Protocol

/-!
# Sleep locks

`acquiresleep` and `releasesleep` as programs around `struct sleeplock`, whose spin lock guards the
flag `locked`, while processes are killed at any time. At most one process is between its
`acquiresleep` and its `releasesleep`, and nobody sleeps on the lock while it is free.
-/

namespace Xv6Shm

open Fallible Function Protocol Program

/-- `struct sleeplock`. -/
structure Sleeplock (Pid : Type) where
  locked : Bool
  pid : Option Pid

/-- The lock with a history variable: which processes have set `locked` and not yet cleared it. -/
structure SleeplockData (Pid : Type) where
  lock : Sleeplock Pid
  inside : Pid → Bool

inductive SleeplockOp where
  | look
  | take
  | give

namespace Sleeplock

variable {Pid : Type} [DecidableEq Pid]

abbrev Result : SleeplockOp → Type
  | .look => Bool
  | _ => Unit

abbrev Reply : Empty → Type := fun _ ↦ Unit

def access (p : Pid) : (op : SleeplockOp) → SleeplockData Pid →
    Except Fault (Result op × SleeplockData Pid)
  | .look, data => .ok (data.lock.locked, data)
  | .take, data => .ok ((), ⟨⟨true, some p⟩, update data.inside p true⟩)
  | .give, data => .ok ((), ⟨⟨false, none⟩, update data.inside p false⟩)

def visit (_ : Pid) : (op : Empty) → Unit → Except Fault (Reply op × Unit) := fun op ↦ nomatch op

/-- Whether a process has the lock, and whether it is in the loop of `acquiresleep`. -/
structure Point where
  holds : Bool
  trying : Bool
deriving DecidableEq

inductive Request (Pid : Type) where
  | acquiresleep
  | releasesleep
  | kill (q : Pid)

open MonitorProgram

abbrev Code (Pid : Type) := MonitorProgram Pid Unit Result Reply

/-- `acquiresleep` up to its loop. -/
def acquiresleep (holds : Bool) : Code Pid Point := do
  acquire
  return ⟨holds, true⟩

/-- One round of the loop of `acquiresleep`, and what follows the last round. -/
def acquireRound (holds : Bool) : Code Pid Point := do
  let locked : Bool ← MonitorProgram.access SleeplockOp.look
  if locked then do
    sleep ()
    return ⟨holds, true⟩
  else do
    MonitorProgram.access SleeplockOp.take
    release
    return ⟨true, false⟩

def releasesleep : Code Pid Point := do
  acquire
  MonitorProgram.access SleeplockOp.give
  wakeup ()
  release
  return ⟨false, false⟩

/-- What a process does next. Only the holder calls `releasesleep`; a process in the loop goes on
with it. -/
def code : Point → Request Pid → Code Pid Point
  | ⟨holds, true⟩, _ => acquireRound holds
  | ⟨holds, false⟩, .acquiresleep => acquiresleep holds
  | ⟨true, false⟩, .releasesleep => releasesleep
  | ⟨false, false⟩, .releasesleep => return ⟨false, false⟩
  | ⟨holds, false⟩, .kill q => do
    kill q
    return ⟨holds, false⟩

/-- The processes around one sleep lock. -/
abbrev System (Pid : Type) :=
  Pool (Monitor Pid Unit (SleeplockData Pid) Unit) Pid (@MonitorAnswer Pid Unit _ _ Result Reply)
    Point

def step : System Pid → PoolLabel Pid (Request Pid) → Except Fault (System Pid × Unit) :=
  Pool.step (Monitor.perform access visit) code .blocked

/-- After `initsleeplock`: the lock is free and no process is in one of the functions. -/
structure Initial (system : System Pid) : Prop where
  idle : system.Idle fun _ ↦ ⟨false, false⟩
  unheld : ∀ lk, system.store.lock lk = none
  awake : ∀ p, system.store.state p ≠ .sleeping
  free : system.store.data.lock.locked = false
  nobody : ∀ p, system.store.data.inside p = false

/-- The users of the lock and its flag. -/
structure Agrees (data : SleeplockData Pid) (users : Pid → Bool) : Prop where
  inside : ∀ p, data.inside p = users p
  unique : ∀ p q, users p = true → users q = true → p = q
  locked : data.lock.locked = true ↔ ∃ p, users p = true

/-- A process waits while the lock is taken. -/
def protocol (Pid : Type) [DecidableEq Pid] :
    Protocol Pid Unit (SleeplockData Pid) Unit Bool Result Reply where
  access := access
  visit := visit
  waits _ data := data.lock.locked = true
  role _ _ := True
  agrees data _ users := Agrees data users
  settled _ := True
  permitted _ _ _ := True
  allowed _ := True
  blocked := trivial

/-- What a process has between two pieces of its code. -/
def At (point : Point) (stake : Stake Unit (SleeplockData Pid) Bool) : Prop :=
  if point.trying then
    ∃ data, stake = .inside data (fun _ ↦ False) point.holds
  else stake = .outside point.holds

section Rounds

variable {data : SleeplockData Pid} {users : Pid → Bool} {p : Pid}

theorem Agrees.take (h : Agrees data users) (hfree : data.lock.locked = false) :
    Agrees ⟨⟨true, some p⟩, update data.inside p true⟩ (update users p true) := by
  have hnobody : ∀ q, users q = false := fun q ↦ by
    by_contra hq
    rw [Bool.not_eq_false] at hq
    rw [h.locked.mpr ⟨q, hq⟩] at hfree
    cases hfree
  have honly : ∀ q, update users p true q = true → q = p := fun q hq ↦ by
    by_contra hqp
    rw [update_of_ne hqp, hnobody q] at hq
    cases hq
  refine ⟨fun q ↦ ?_, fun q r hq hr ↦ (honly q hq).trans (honly r hr).symm,
    iff_of_true rfl ⟨p, update_self _ _ _⟩⟩
  rw [funext h.inside]

theorem Agrees.give (h : Agrees data users) (hp : users p = true) :
    Agrees ⟨⟨false, none⟩, update data.inside p false⟩ (update users p false) := by
  have hnobody : ∀ q, update users p false q = false := fun q ↦ by
    by_cases hqp : q = p
    · rw [hqp, update_self]
    · rw [update_of_ne hqp, Bool.eq_false_iff]
      exact fun hq ↦ hqp (h.unique q p hq hp)
  refine ⟨fun q ↦ ?_, fun q _ hq ↦ absurd hq (by simp [hnobody q]),
    iff_of_false (by simp) fun ⟨q, hq⟩ ↦ absurd hq (by simp [hnobody q])⟩
  rw [funext h.inside]

theorem acquiresleep_safe (holds : Bool) :
    (protocol Pid).Safe (acquiresleep holds) (.outside holds) At := by
  refine Safe.bind (acquire_safe rfl rfl fun data _ _ _ _ _ _ ↦ ?_)
  exact ⟨data, rfl⟩

theorem acquireRound_safe (holds : Bool) :
    (protocol Pid).Safe (acquireRound holds) (.inside data (fun _ ↦ False) holds) At := by
  refine Safe.bind (look_safe (fun _ ↦ rfl) ?_)
  apply Safe.ite
  · intro hheld
    refine Safe.bind (sleep_safe (fun _ ↦ id) trivial hheld trivial ?_)
    exact fun data _ _ _ _ _ _ ↦ ⟨data, rfl⟩
  · intro hfree
    rw [Bool.not_eq_true] at hfree
    refine Safe.bind (access_safe rfl rfl fun _ users p hagrees hp ↦ ?_)
    refine ⟨true, fun _ ↦ False, hagrees.take hfree, fun _ _ _ ↦ Or.inl rfl, ?_⟩
    exact Safe.bind (release_safe (fun _ ↦ id) (fun _ _ _ ↦ agrees_same)
      trivial rfl)

theorem releasesleep_safe : (protocol Pid).Safe releasesleep (.outside true) At := by
  refine Safe.bind (acquire_safe rfl rfl fun data _ _ _ _ _ _ ↦ ?_)
  refine Safe.bind (access_safe rfl rfl fun _ users p hagrees hp ↦ ?_)
  refine ⟨false, fun _ ↦ True, hagrees.give hp, fun _ _ _ ↦ Or.inr trivial, ?_⟩
  refine Safe.bind (wakeup_safe ?_)
  exact Safe.bind (release_safe (fun _ hc ↦ hc.2 rfl) (fun _ _ _ ↦ agrees_same) trivial rfl)

theorem code_safe (point : Point) (request : Request Pid)
    (stake : Stake Unit (SleeplockData Pid) Bool) (h : At point stake) :
    (protocol Pid).Safe (code point request) stake At := by
  obtain ⟨holds, trying⟩ := point
  cases trying with
  | true =>
    obtain ⟨data, rfl⟩ := h
    exact acquireRound_safe holds
  | false =>
    obtain rfl : stake = .outside holds := h
    cases request with
    | acquiresleep => exact acquiresleep_safe holds
    | releasesleep =>
      cases holds with
      | true => exact releasesleep_safe
      | false => exact rfl
    | kill q =>
      cases holds with
      | true => exact Safe.bind (kill_safe q rfl)
      | false => exact Safe.bind (kill_safe q rfl)

end Rounds

theorem Initial.steady {start : System Pid} (h : Initial start) :
    start.Steady (Monitor.perform access visit) (protocol Pid).Holds (protocol Pid).permitted
      (protocol Pid).allowed At fun _ ↦ .outside false := by
  refine ⟨Protocol.Holds.of_outside h.unheld h.awake ⟨h.nobody, fun _ _ hp ↦ (nomatch hp), ?_⟩
    trivial, fun p ↦ ?_⟩
  · simp [h.free]
  · rw [h.idle p]
    exact rfl

end Sleeplock

end Xv6Shm
