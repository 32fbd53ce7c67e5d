import Xv6Shm.Lib.Fallible
import Xv6Shm.Lib.Outcome

/-!
# Processes that share a store

A program is a tree of calls on a shared store, each followed by what the program does with the
answer. The calls are the atomic steps of a pool of processes, in any order.

A token says what a process holds and knows, and an invariant relates the store to all tokens. A
program is safe with a token if each of its calls, in any store that the invariant allows, keeps the
invariant with a new token for the process alone and leaves a program that is safe with it. If all
programs that can be started are safe, the invariant holds in every run.

What a process is asked for and returns is put down in a record that its code does not read, to be
compared with the events of that process in the history of the store.
-/

namespace Xv6Shm

open Fallible Function

/-- A program that makes calls and ends with a value. -/
inductive Program {Call : Type} (Answer : Call → Type) (Value : Type) where
  | done (value : Value)
  | call (op : Call) (next : Answer op → Program Answer Value)

namespace Program

variable {Call : Type} {Answer : Call → Type} {Value Result : Type}

def bind : Program Answer Value → (Value → Program Answer Result) → Program Answer Result
  | .done value, next => next value
  | .call op rest, next => .call op fun answer ↦ (rest answer).bind next

instance : Monad (Program Answer) where
  pure := .done
  bind := .bind

/-- The program that makes one call. -/
def lift (op : Call) : Program Answer (Answer op) := .call op .done

end Program

/-- A store and the program of each process; a process whose program has ended is idle. -/
structure Pool (Store Pid : Type) {Call : Type} (Answer : Call → Type) (Local : Type) where
  store : Store
  process : Pid → Program Answer Local

inductive PoolLabel (Pid Request : Type) where
  | start (p : Pid) (request : Request)
  | advance (p : Pid)

namespace Pool

variable {Store Pid Call Error Request Local : Type} {Answer : Call → Type} [DecidableEq Pid]

/-- An idle process starts a program, or a process makes its next call. -/
def step (perform : Pid → (op : Call) → Store → Except Error (Answer op × Store))
    (code : Local → Request → Program Answer Local) (blocked : Error)
    (pool : Pool Store Pid Answer Local) :
    PoolLabel Pid Request → Except Error (Pool Store Pid Answer Local × Unit)
  | .start p request =>
    match pool.process p with
    | .done record =>
      .ok (⟨pool.store, update pool.process p (code record request)⟩, ())
    | .call _ _ => .error blocked
  | .advance p =>
    match pool.process p with
    | .done _ => .error blocked
    | .call op next => do
      let (answer, store) ← perform p op pool.store
      pure (⟨store, update pool.process p (next answer)⟩, ())

/-- The requests that may be started and the calls that may be made. -/
def Permits (startable : Request → Prop) (permitted : Store → Pid → Call → Prop)
    (pool : Pool Store Pid Answer Local) : PoolLabel Pid Request → Prop
  | .start _ request => startable request
  | .advance p =>
    match pool.process p with
    | .done _ => True
    | .call op _ => permitted pool.store p op

omit [DecidableEq Pid] in
theorem Permits.mono {startable weaker : Request → Prop}
    {permitted relaxed : Store → Pid → Call → Prop}
    (hstart : ∀ request, startable request → weaker request)
    (hcall : ∀ store p op, permitted store p op → relaxed store p op)
    {pool : Pool Store Pid Answer Local} {label : PoolLabel Pid Request}
    (h : pool.Permits startable permitted label) : pool.Permits weaker relaxed label := by
  cases label with
  | start p request => exact hstart request h
  | advance p =>
    simp only [Permits] at h ⊢
    split at h
    · trivial
    · exact hcall _ _ _ h

/-- No process is in a program. -/
def Idle (pool : Pool Store Pid Answer Local) (locals : Pid → Local) : Prop :=
  ∀ p, pool.process p = .done (locals p)

variable {Log : Type}

/-- The code of a process, with a record that each piece of it brings up to date. -/
def recordedCode (note : Local → Request → Local → Log → Log)
    (code : Local → Request → Program Answer Local) (entry : Local × Log) (request : Request) :
    Program Answer (Local × Log) := do
  let next ← code entry.1 request
  return (next, note entry.1 request next entry.2)

/-- All processes begin with the same record. -/
def recorded (log : Log) (pool : Pool Store Pid Answer Local) :
    Pool Store Pid Answer (Local × Log) :=
  ⟨pool.store, fun p ↦ do return (← pool.process p, log)⟩

end Pool

section Safe

variable {Store Pid Call Error Token : Type} {Answer : Call → Type} [DecidableEq Pid]
variable (perform : Pid → (op : Call) → Store → Except Error (Answer op × Store))
  (inv : Store → (Pid → Token) → Prop) (permitted : Store → Pid → Call → Prop)
  (allowed : Error → Prop)

/-- The program keeps the invariant, or ends with an allowed error. -/
def Program.Safe {Value : Type} (post : Value → Token → Prop) : Program Answer Value → Token → Prop
  | .done value, token => post value token
  | .call op next, token => ∀ store tokens p, inv store tokens → tokens p = token →
      permitted store p op →
      Ends allowed (fun answer store' ↦ ∃ token',
        inv store' (update tokens p token') ∧ (next answer).Safe post token')
        (perform p op store)

namespace Program

variable {perform inv permitted allowed}
variable {Value Result : Type} {token : Token}

theorem Safe.mono {post weaker : Value → Token → Prop} {program : Program Answer Value}
    (hsafe : program.Safe perform inv permitted allowed post token)
    (hweaker : ∀ value token, post value token → weaker value token) :
    program.Safe perform inv permitted allowed weaker token := by
  induction program generalizing token with
  | done value => exact hweaker value token hsafe
  | call op next ih =>
    intro store tokens p hinv htoken hpermitted
    refine (hsafe store tokens p hinv htoken hpermitted).mono ?_
    rintro answer store' ⟨token', hinv', hnext⟩
    exact ⟨token', hinv', ih answer hnext⟩

/-- A sequence is safe if the rest is safe with the token that its first part leaves. -/
theorem Safe.bind {post : Result → Token → Prop} {program : Program Answer Value}
    {next : Value → Program Answer Result} (hsafe : program.Safe perform inv permitted allowed
      (fun value ↦ (next value).Safe perform inv permitted allowed post) token) :
    (program >>= next).Safe perform inv permitted allowed post token := by
  induction program generalizing token with
  | done value => exact hsafe
  | call op rest ih =>
    intro store tokens p hinv htoken hpermitted
    refine (hsafe store tokens p hinv htoken hpermitted).mono ?_
    rintro answer store' ⟨token', hinv', hnext⟩
    exact ⟨token', hinv', ih answer hnext⟩

theorem Safe.ite {post : Value → Token → Prop} {condition : Prop} [Decidable condition]
    {first second : Program Answer Value}
    (hfirst : condition → first.Safe perform inv permitted allowed post token)
    (hsecond : ¬ condition → second.Safe perform inv permitted allowed post token) :
    (if condition then first else second).Safe perform inv permitted allowed post token := by
  split
  · exact hfirst ‹_›
  · exact hsecond ‹_›

end Program

namespace Pool

variable {Request Local : Type} {code : Local → Request → Program Answer Local} {blocked : Error}
variable {perform inv permitted allowed}
variable {startable : Request → Prop} {idle : Local → Token → Prop}
variable {pool next : Pool Store Pid Answer Local} {tokens : Pid → Token}

variable (perform inv permitted allowed idle) in
/-- The invariant holds, and every program is safe with its token. -/
structure Steady (pool : Pool Store Pid Answer Local) (tokens : Pid → Token) : Prop where
  holds : inv pool.store tokens
  safe : ∀ p, (pool.process p).Safe perform inv permitted allowed idle (tokens p)

theorem Steady.move {p : Pid} {token : Token} {store : Store} {program : Program Answer Local}
    (h : pool.Steady perform inv permitted allowed idle tokens)
    (hinv : inv store (update tokens p token))
    (hsafe : program.Safe perform inv permitted allowed idle token) :
    (⟨store, update pool.process p program⟩ : Pool Store Pid Answer Local).Steady
      perform inv permitted allowed idle (update tokens p token) := by
  refine ⟨hinv, fun q ↦ ?_⟩
  by_cases hq : q = p
  · subst hq
    simpa only [update_self] using hsafe
  · simpa only [update_of_ne hq] using h.safe q

section

variable (hcode : ∀ record request token, startable request → idle record token →
    (code record request).Safe perform inv permitted allowed idle token)

include hcode

theorem Steady.step (h : pool.Steady perform inv permitted allowed idle tokens)
    {label : PoolLabel Pid Request} {result : Unit}
    (hpermits : pool.Permits startable permitted label)
    (hok : pool.step perform code blocked label = .ok (next, result)) :
    ∃ tokens', next.Steady perform inv permitted allowed idle tokens' := by
  cases label with
  | start p request =>
    rw [Pool.step] at hok
    split at hok
    · rename_i record hdone
      cases hok
      have hidle : idle record (tokens p) := by
        simpa only [hdone, Program.Safe] using h.safe p
      have hsame := update_eq_self p tokens
      exact ⟨_, h.move (hsame.symm ▸ h.holds) (hcode record request (tokens p) hpermits hidle)⟩
    · cases hok
  | advance p =>
    rw [Pool.step] at hok
    split at hok
    · cases hok
    · rename_i op rest hcall
      obtain ⟨⟨answer, store⟩, hperform, hpure⟩ := bind_eq_ok.mp hok
      cases hpure
      have hsafe := h.safe p
      rw [hcall] at hsafe
      have hpermitted : permitted pool.store p op := by simpa only [Permits, hcall] using hpermits
      obtain ⟨token, hinv, hrest⟩ :=
        (hsafe pool.store tokens p h.holds rfl hpermitted).of_ok hperform
      exact ⟨_, h.move hinv hrest⟩

/-- In every run every process stays in a safe program. -/
theorem Steady.run {start finish : Pool Store Pid Answer Local}
    (hstart : ∃ tokens, start.Steady perform inv permitted allowed idle tokens)
    (hrun : Runs (Pool.step perform code blocked) (Pool.Permits startable permitted) start finish) :
    ∃ tokens, finish.Steady perform inv permitted allowed idle tokens :=
  hrun.invariant (fun pool ↦ ∃ tokens, pool.Steady perform inv permitted allowed idle tokens) hstart
    fun _ _ _ _ ⟨_, hsteady⟩ hpermits hok ↦ hsteady.step hcode hpermits hok

end

end Pool

end Safe

section Journal

variable {Store Pid Call Error Event Value Result Request Local : Type} {Answer : Call → Type}

/-- A list of events with one more, if there was one. -/
def noted : Option Event → List Event → List Event
  | none, events => events
  | some event, events => events ++ [event]

/-- Whatever its calls answer, the program ends with a value that fits the events it has caused. -/
def Program.Leaves (event : (op : Call) → Answer op → Option Event)
    (post : Value → List Event → Prop) : Program Answer Value → List Event → Prop
  | .done value, events => post value events
  | .call op next, events =>
    ∀ answer, (next answer).Leaves event post (noted (event op answer) events)

variable {event : (op : Call) → Answer op → Option Event} {events : List Event}

theorem Program.Leaves.bind {post : Result → List Event → Prop} {program : Program Answer Value}
    {next : Value → Program Answer Result}
    (h : program.Leaves event (fun value ↦ (next value).Leaves event post) events) :
    (program >>= next).Leaves event post events := by
  induction program generalizing events with
  | done value => exact h
  | call op rest ih => exact fun answer ↦ ih answer (h answer)

theorem Program.Leaves.ite {post : Value → List Event → Prop} {condition : Prop}
    [Decidable condition] {first second : Program Answer Value}
    (hfirst : condition → first.Leaves event post events)
    (hsecond : ¬ condition → second.Leaves event post events) :
    (if condition then first else second).Leaves event post events := by
  split
  · exact hfirst ‹_›
  · exact hsecond ‹_›

variable [DecidableEq Pid]

def eventsOf (p : Pid) (history : List (Pid × Event)) : List Event :=
  history.filterMap fun entry ↦ if entry.1 = p then some entry.2 else none

theorem eventsOf_noted (p q : Pid) (new : Option Event) (history : List (Pid × Event)) :
    eventsOf q (noted (new.map (p, ·)) history) =
      update (eventsOf · history) p (noted new (eventsOf p history)) q := by
  by_cases hq : q = p
  · subst hq
    cases new <;> simp [eventsOf, noted]
  · cases new <;> simp [eventsOf, noted, hq, Ne.symm hq]

variable {perform : Pid → (op : Call) → Store → Except Error (Answer op × Store)}
  {history : Store → List (Pid × Event)}
  (hperform : ∀ p op store, Ends (fun _ ↦ True) (fun answer store' ↦
    history store' = noted ((event op answer).map (p, ·)) (history store)) (perform p op store))

include hperform

theorem Program.Leaves.safe {post : Value → List Event → Prop} {program : Program Answer Value}
    (h : program.Leaves event post events) :
    program.Safe perform (fun store tokens ↦ (eventsOf · (history store)) = tokens)
      (fun _ _ _ ↦ True) (fun _ ↦ True) post events := by
  induction program generalizing events with
  | done value => exact h
  | call op next ih =>
    intro store tokens p hinv htoken _
    refine (hperform p op store).mono fun answer store' hstore ↦ ⟨_, ?_, ih answer (h answer)⟩
    subst hinv htoken
    funext q
    rw [hstore, eventsOf_noted]

end Journal

end Xv6Shm
