import Xv6Shm.Lib.Interaction

/-!
# Processes that take turns

If a process moves only while all others are idle, every program runs to its end without
interference. Then it is enough that the program keeps the invariant when it runs alone, and what is
known of the store after a call is still known at the next.
-/

namespace Xv6Shm

open Fallible Function

section Keeps

variable {Store Call Error : Type} {Answer : Call → Type}
variable (perform : (op : Call) → Store → Except Error (Answer op × Store)) (inv : Store → Prop)
  (allowed : Error → Prop)

/-- Run alone, the program keeps the invariant from call to call, and it ends with a value and a
store of some kind or with an allowed error. -/
def Program.Keeps {Value : Type} (post : Value → Store → Prop) : Program Answer Value → Store → Prop
  | .done value, store => post value store
  | .call op next, store => Ends allowed (fun answer store' ↦
      inv store' ∧ (next answer).Keeps post store') (perform op store)

namespace Program

variable {perform inv allowed}
variable {Value Result : Type} {store : Store}

theorem Keeps.mono {post weaker : Value → Store → Prop} {program : Program Answer Value}
    (hkeeps : program.Keeps perform inv allowed post store)
    (hweaker : ∀ value store, post value store → weaker value store) :
    program.Keeps perform inv allowed weaker store := by
  induction program generalizing store with
  | done value => exact hweaker value store hkeeps
  | call op next ih =>
    refine Ends.mono hkeeps ?_
    rintro answer store' ⟨hinv, hnext⟩
    exact ⟨hinv, ih answer hnext⟩

theorem Keeps.bind {post : Result → Store → Prop} {program : Program Answer Value}
    {next : Value → Program Answer Result} (hkeeps : program.Keeps perform inv allowed
      (fun value ↦ (next value).Keeps perform inv allowed post) store) :
    (program >>= next).Keeps perform inv allowed post store := by
  induction program generalizing store with
  | done value => exact hkeeps
  | call op rest ih =>
    refine Ends.mono hkeeps ?_
    rintro answer store' ⟨hinv, hnext⟩
    exact ⟨hinv, ih answer hnext⟩

end Program

end Keeps

/-- The process that moves. -/
def PoolLabel.pid {Pid Request : Type} : PoolLabel Pid Request → Pid
  | .start p _ => p
  | .advance p => p

namespace Pool

variable {Store Pid Call Error Request Local : Type} {Answer : Call → Type}

/-- All processes but the one that moves are idle. -/
def InTurn (pool : Pool Store Pid Answer Local) (label : PoolLabel Pid Request) : Prop :=
  ∀ q ≠ label.pid, ∃ record, pool.process q = .done record

variable [DecidableEq Pid] {perform : Pid → (op : Call) → Store → Except Error (Answer op × Store)}
  {code : Local → Request → Program Answer Local} {blocked : Error} {inv : Store → Prop}
  {allowed : Error → Prop} {idle : Store → (Pid → Local) → Prop}
  {pool next : Pool Store Pid Answer Local} {p : Pid}

variable (perform inv allowed idle) in
/-- The invariant holds and all processes but one are idle; when that one is idle too, the store is
related to what the processes have. -/
structure Turn (pool : Pool Store Pid Answer Local) (locals : Pid → Local) (p : Pid) : Prop where
  others : ∀ q ≠ p, pool.process q = .done (locals q)
  holds : inv pool.store
  keeps : (pool.process p).Keeps (perform p) inv allowed
    (fun record store ↦ idle store (update locals p record)) pool.store

variable {locals : Pid → Local}

theorem Turn.pass {q : Pid} (h : pool.Turn perform inv allowed idle locals p)
    (hidle : ∀ r ≠ q, ∃ record, pool.process r = .done record) :
    ∃ locals', pool.Turn perform inv allowed idle locals' q := by
  by_cases hqp : q = p
  · exact ⟨locals, hqp ▸ h⟩
  · obtain ⟨record, hdone⟩ := hidle p (Ne.symm hqp)
    have hkeeps := h.keeps
    rw [hdone] at hkeeps
    refine ⟨update locals p record, ?_, h.holds, ?_⟩
    · intro r hr
      by_cases hrp : r = p
      · rw [hrp, update_self, hdone]
      · rw [update_of_ne hrp, h.others r hrp]
    · rw [h.others q hqp, ← update_of_ne hqp record locals]
      change idle _ _
      rwa [update_eq_self]

theorem Turn.move {store : Store} {program : Program Answer Local}
    (hothers : ∀ q ≠ p, pool.process q = .done (locals q)) (hinv : inv store)
    (hkeeps : program.Keeps (perform p) inv allowed
      (fun record store ↦ idle store (update locals p record)) store) :
    (⟨store, update pool.process p program⟩ : Pool Store Pid Answer Local).Turn
      perform inv allowed idle locals p := by
  refine ⟨fun q hq ↦ ?_, hinv, ?_⟩
  · simpa only [update_of_ne hq] using hothers q hq
  · simpa only [update_self] using hkeeps

section

variable (hcode : ∀ locals p request store, inv store → idle store locals →
    (code (locals p) request).Keeps (perform p) inv allowed
      (fun record store ↦ idle store (update locals p record)) store)

include hcode

theorem Turn.step {label : PoolLabel Pid Request} {locals : Pid → Local} {result : Unit}
    (h : pool.Turn perform inv allowed idle locals label.pid)
    (hok : pool.step perform code blocked label = .ok (next, result)) :
    ∃ locals', next.Turn perform inv allowed idle locals' label.pid := by
  have hkeeps := h.keeps
  cases label with
  | start p request =>
    rw [Pool.step] at hok
    split at hok
    · rename_i record hdone
      cases hok
      rw [PoolLabel.pid, hdone] at hkeeps
      have hrun := hcode _ p request _ h.holds hkeeps
      rw [update_self] at hrun
      refine ⟨update locals p record, Turn.move (fun q hq ↦ ?_) h.holds hrun⟩
      rw [update_of_ne hq, h.others q hq]
    · cases hok
  | advance p =>
    rw [Pool.step] at hok
    split at hok
    · cases hok
    · rename_i op rest hcall
      obtain ⟨⟨answer, store⟩, hperform, hpure⟩ := bind_eq_ok.mp hok
      cases hpure
      rw [PoolLabel.pid, hcall] at hkeeps
      obtain ⟨hinv, hrest⟩ := Ends.of_ok hkeeps hperform
      exact ⟨locals, Turn.move h.others hinv hrest⟩

/-- In every run in which the processes take turns the invariant holds. -/
theorem Turn.run {start finish : Pool Store Pid Answer Local}
    (hstart : ∃ locals p, start.Turn perform inv allowed idle locals p)
    (hrun : Runs (Pool.step perform code blocked) InTurn start finish) :
    ∃ locals p, finish.Turn perform inv allowed idle locals p := by
  refine hrun.invariant (fun pool ↦ ∃ locals p, pool.Turn perform inv allowed idle locals p) hstart
    ?_
  rintro pool label next result ⟨locals, p, hturn⟩ hidle hok
  obtain ⟨locals', hturn'⟩ := hturn.pass hidle
  obtain ⟨locals'', hnext⟩ := hturn'.step hcode hok
  exact ⟨locals'', _, hnext⟩

end

theorem Turn.error {label : PoolLabel Pid Request} {error : Error}
    (h : pool.Turn perform inv allowed idle locals label.pid)
    (herror : pool.step perform code blocked label = .error error) :
    error = blocked ∨ allowed error := by
  have hkeeps := h.keeps
  cases label with
  | start p request =>
    rw [Pool.step] at herror
    split at herror
    · cases herror
    · cases herror
      exact Or.inl rfl
  | advance p =>
    rw [Pool.step] at herror
    split at herror
    · cases herror
      exact Or.inl rfl
    · rename_i op rest hcall
      rw [PoolLabel.pid, hcall] at hkeeps
      rcases bind_eq_error.mp herror with hperform | ⟨value, -, hpure⟩
      · exact Or.inr (Ends.of_error hkeeps hperform)
      · cases hpure

end Pool

end Xv6Shm
