import Xv6Shm.Fs.Log

/-!
# Group commit

Any number of processes run file-system operations, each between its own `begin_op` and `end_op`.
The sections under `log.lock` are single steps; the tests at the start of `log_write` and all of
`commit` run without the lock. The process whose `end_op` leaves no operation outstanding commits
for all.

Nobody is admitted while a commit is under way, so the blocks of an operation are all in the header
of the same transaction.
-/

namespace Xv6Shm

open Fallible Function

/-- How far a process has come in `commit`. -/
inductive CommitPos where
  | start
  | writeLog (tail : ℕ)
  | writeHead
  | install (tail : ℕ)
  | clear
  | erase
  | finished
deriving DecidableEq, Repr

/-- What a process is doing with the log. An operation carries the blocks it has logged, the last
one first; in `log_write`, after the tests and before the lock, also the block to be logged. -/
inductive OpPhase where
  | outside
  | running (logged : List ℕ)
  | checked (logged : List ℕ) (blockno : ℕ)
  | inCommit (pos : CommitPos)
deriving DecidableEq, Repr

namespace OpPhase

/-- The process is between `begin_op` and `end_op`. -/
def inOp : OpPhase → Bool
  | .running _ | .checked _ _ => true
  | .outside | .inCommit _ => false

/-- The blocks its operation has logged. -/
def logged : OpPhase → List ℕ
  | .running logged | .checked logged _ => logged
  | .outside | .inCommit _ => []

end OpPhase

structure GroupState (Pid : Type) where
  log : Log
  phase : Pid → OpPhase

inductive GroupCall where
  | beginOp
  | logWrite (blockno : ℕ)
  | finishWrite
  | endOp
  | commit
deriving DecidableEq, Repr

/-- A step of a process. -/
structure GroupLabel (Pid : Type) where
  proc : Pid
  call : GroupCall
deriving DecidableEq

/-- One step of `commit`, and of the section of `end_op` behind it. -/
def Log.commitStep (log : Log) : CommitPos → Log × OpPhase
  | .start => (log, .inCommit (if 0 < log.lh.n then .writeLog 0 else .finished))
  | .writeLog tail =>
    (log, .inCommit (if tail < log.lh.n then .writeLog (tail + 1) else .writeHead))
  | .writeHead => (log, .inCommit (.install 0))
  | .install tail => (log, .inCommit (if tail < log.lh.n then .install (tail + 1) else .clear))
  | .clear => ({ log with lh := { log.lh with n := 0 } }, .inCommit .erase)
  | .erase => (log, .inCommit .finished)
  | .finished => ({ log with committing := false }, .outside)

namespace GroupState

variable {Pid : Type} [DecidableEq Pid]

/-- The log after `initlog`, with no process in it. -/
def start (logstart size : ℕ) : GroupState Pid where
  log := ⟨logstart, size, 0, false, ⟨0, fun _ ↦ 0⟩⟩
  phase := fun _ ↦ .outside

/-- A process goes on. -/
def move (state : GroupState Pid) (p : Pid) (log : Log) (phase : OpPhase) : GroupState Pid :=
  ⟨log, update state.phase p phase⟩

def step (state : GroupState Pid) (label : GroupLabel Pid) : Except Fault (GroupState Pid × Unit) :=
  match state.phase label.proc, label.call with
  | .outside, .beginOp => do
    let log ← state.log.beginOp
    pure (state.move label.proc log (.running []), ())
  | .running logged, .logWrite blockno => do
    state.log.logWriteCheck
    pure (state.move label.proc state.log (.checked logged blockno), ())
  | .checked logged blockno, .finishWrite => do
    let log ← state.log.logWriteLocked blockno
    pure (state.move label.proc log (.running (blockno :: logged)), ())
  | .running _, .endOp => do
    let (log, doCommit) ← state.log.endOp
    pure (state.move label.proc log (if doCommit then .inCommit .start else .outside), ())
  | .inCommit pos, .commit =>
    .ok (state.move label.proc (state.log.commitStep pos).1 (state.log.commitStep pos).2, ())
  | _, _ => .error .blocked

/-- All that a step can do. -/
inductive Steps (state : GroupState Pid) (p : Pid) : GroupCall → GroupState Pid → Prop
  | beginOp (hphase : state.phase p = .outside) (hfree : state.log.committing = false)
      (hroom : state.log.lh.n + (state.log.outstanding + 1) * maxOpBlocks ≤ (logSize : ℤ)) :
      Steps state p .beginOp
        (state.move p { state.log with outstanding := state.log.outstanding + 1 } (.running []))
  | logWrite {logged : List ℕ} {blockno : ℕ} (hphase : state.phase p = .running logged) :
      Steps state p (.logWrite blockno) (state.move p state.log (.checked logged blockno))
  | finishWrite {logged : List ℕ} {blockno : ℕ} {lh : LogHeader}
      (hphase : state.phase p = .checked logged blockno)
      (habsorb : state.log.lh.absorb blockno = .ok lh) :
      Steps state p .finishWrite
        (state.move p { state.log with lh := lh } (.running (blockno :: logged)))
  | lastOp {logged : List ℕ} (hphase : state.phase p = .running logged)
      (hfree : state.log.committing = false) (hlast : state.log.outstanding = 1) :
      Steps state p .endOp
        (state.move p { state.log with outstanding := 0, committing := true } (.inCommit .start))
  | endOp {logged : List ℕ} (hphase : state.phase p = .running logged)
      (hfree : state.log.committing = false) (hmore : state.log.outstanding ≠ 1) :
      Steps state p .endOp
        (state.move p { state.log with outstanding := state.log.outstanding - 1 } .outside)
  | commit {pos : CommitPos} (hphase : state.phase p = .inCommit pos) :
      Steps state p .commit (state.move p (state.log.commitStep pos).1 (state.log.commitStep pos).2)

theorem step_cases {state next : GroupState Pid} {label : GroupLabel Pid} {result : Unit}
    (h : state.step label = .ok (next, result)) : state.Steps label.proc label.call next := by
  obtain ⟨p, call⟩ := label
  unfold step at h
  dsimp only at h ⊢
  split at h
  · rename_i hphase
    obtain ⟨log, hbegin, hpure⟩ := bind_eq_ok.mp h
    cases hpure
    unfold Log.beginOp at hbegin
    split_ifs at hbegin with hcommitting hroom
    cases hbegin
    exact .beginOp hphase (by simpa using hcommitting) (not_lt.mp hroom)
  · rename_i logged blockno hphase
    obtain ⟨_, -, hpure⟩ := bind_eq_ok.mp h
    cases hpure
    exact .logWrite hphase
  · rename_i logged blockno hphase
    obtain ⟨log, hlocked, hpure⟩ := bind_eq_ok.mp h
    cases hpure
    obtain ⟨lh, habsorb, hlog⟩ := bind_eq_ok.mp hlocked
    cases hlog
    exact .finishWrite hphase habsorb
  · rename_i logged hphase
    obtain ⟨⟨log, doCommit⟩, hend, hpure⟩ := bind_eq_ok.mp h
    cases hpure
    unfold Log.endOp at hend
    split_ifs at hend with hcommitting hzero
    · cases hend
      have hlast : state.log.outstanding = 1 := by omega
      rw [hzero]
      exact .lastOp hphase (by simpa using hcommitting) hlast
    · cases hend
      exact .endOp hphase (by simpa using hcommitting) (by omega)
  · rename_i pos hphase
    cases h
    exact .commit hphase
  · cases h

/-- All ways in which a step can fail. -/
inductive Faults (state : GroupState Pid) (p : Pid) : GroupCall → Fault → Prop
  | blocked {call : GroupCall} : Faults state p call .blocked
  | outOfBounds {call : GroupCall} : Faults state p call (.outOfBounds .lhBlock)
  | logWrite {blockno : ℕ} {fault : Fault} (hcheck : state.log.logWriteCheck = .error fault) :
      Faults state p (.logWrite blockno) fault
  | endOp {logged : List ℕ} (hphase : state.phase p = .running logged)
      (hcommitting : state.log.committing = true) :
      Faults state p .endOp (.panic "log.committing")

theorem step_error {state : GroupState Pid} {label : GroupLabel Pid} {fault : Fault}
    (h : state.step label = .error fault) : state.Faults label.proc label.call fault := by
  obtain ⟨p, call⟩ := label
  unfold step at h
  dsimp only at h ⊢
  split at h
  · rcases bind_eq_error.mp h with hbegin | ⟨_, _, hpure⟩
    · rw [Log.beginOp_error hbegin]
      exact .blocked
    · cases hpure
  · rcases bind_eq_error.mp h with hcheck | ⟨_, _, hpure⟩
    · exact .logWrite hcheck
    · cases hpure
  · rcases bind_eq_error.mp h with hlocked | ⟨_, _, hpure⟩
    · rw [Log.logWriteLocked_error hlocked]
      exact .outOfBounds
    · cases hpure
  · rename_i hphase
    rcases bind_eq_error.mp h with hend | ⟨_, _, hpure⟩
    · obtain ⟨rfl, hcommitting⟩ := Log.endOp_error hend
      exact .endOp hphase hcommitting
    · cases hpure
  · cases h
  · cases h
    exact .blocked

theorem phase_move_self (state : GroupState Pid) (p : Pid) (log : Log) (phase : OpPhase) :
    (state.move p log phase).phase p = phase := update_self ..

theorem phase_move_of_ne {q : Pid} (state : GroupState Pid) (p : Pid) (log : Log)
    (phase : OpPhase) (h : q ≠ p) : (state.move p log phase).phase q = state.phase q :=
  update_of_ne h ..

end GroupState

/-- A transaction whose header has reached the disk: the blocks the header lists, the blocks that
were copied to the log, and the blocks of each operation that had ended. -/
structure Transaction where
  header : List ℕ
  copied : List ℕ
  ops : List (List ℕ)
deriving DecidableEq, Repr

/-- All operations that have ended, those among them that have ended since the last commit, what
the current commit has copied, and the transactions so far. -/
structure GroupHistory where
  finished : List (List ℕ)
  ended : List (List ℕ)
  copied : List ℕ
  transactions : List Transaction
deriving DecidableEq, Repr

namespace GroupHistory

def empty : GroupHistory := ⟨[], [], [], []⟩

/-- What a step of `commit` adds to the history. -/
def commitNote (history : GroupHistory) (log : Log) : CommitPos → GroupHistory
  | .start => { history with copied := [] }
  | .writeLog tail =>
    if tail < log.lh.n then { history with copied := history.copied ++ [log.lh.block tail] }
    else history
  | .writeHead =>
    { history with
      ended := []
      transactions := ⟨log.lh.blocks, history.copied, history.ended⟩ :: history.transactions }
  | .install _ | .clear | .erase | .finished => history

def note {Pid : Type} (history : GroupHistory) (state : GroupState Pid) (label : GroupLabel Pid)
    (_ : GroupState Pid) (_ : Unit) : GroupHistory :=
  match state.phase label.proc, label.call with
  | .running logged, .endOp =>
    { history with finished := logged :: history.finished, ended := logged :: history.ended }
  | .inCommit pos, .commit => history.commitNote state.log pos
  | _, _ => history

/-- Every operation that has ended is in exactly one place: in a transaction, or still waiting. -/
def Sorted (history : GroupHistory) : Prop :=
  history.finished = history.ended ++ history.transactions.flatMap Transaction.ops

theorem Sorted.note {Pid : Type} {history : GroupHistory} (h : history.Sorted)
    (state : GroupState Pid) (label : GroupLabel Pid) (next : GroupState Pid) :
    (history.note state label next ()).Sorted := by
  unfold GroupHistory.note
  split
  · exact congrArg (_ :: ·) h
  · rename_i pos _ _
    cases pos with
    | writeLog tail =>
      dsimp only [commitNote]
      split <;> exact h
    | start | writeHead | install | clear | erase | finished => exact h
  · exact h

end GroupHistory

/-- What is known of the log at each point of a commit. -/
def CommitPos.Reached (log : Log) (history : GroupHistory) : CommitPos → Prop
  | .start => True
  | .writeLog tail => tail ≤ log.lh.n ∧ history.copied = log.lh.blocks.take tail
  | .writeHead => history.copied = log.lh.blocks
  | .install _ | .clear => history.ended = []
  | .erase | .finished => log.lh.n = 0

/-- The transaction holds all blocks of all its operations. -/
def Transaction.Whole (transaction : Transaction) : Prop :=
  transaction.copied = transaction.header ∧
    ∀ op ∈ transaction.ops, ∀ blockno ∈ op, blockno ∈ transaction.header

/-- What is known of the log from what one process is doing. -/
def OpPhase.Fits (log : Log) (history : GroupHistory) : OpPhase → Prop
  | .outside => True
  | .running logged | .checked logged _ =>
    log.committing = false ∧ ∀ blockno ∈ logged, blockno ∈ log.lh.blocks
  | .inCommit pos => log.committing = true ∧ pos.Reached log history

/-- While nobody commits, what one process knows of the log is kept if no block is dropped. -/
theorem OpPhase.Fits.grow {log log' : Log} {history history' : GroupHistory} {phase : OpPhase}
    (hfits : phase.Fits log history) (hfree : log.committing = false)
    (hfree' : log'.committing = false) (hgrow : log.lh.blocks ⊆ log'.lh.blocks) :
    phase.Fits log' history' := by
  cases phase with
  | outside => trivial
  | running logged => exact ⟨hfree', fun blockno hmem ↦ hgrow (hfits.2 blockno hmem)⟩
  | checked logged blockno => exact ⟨hfree', fun blockno hmem ↦ hgrow (hfits.2 blockno hmem)⟩
  | inCommit pos => simp [OpPhase.Fits, hfree] at hfits

theorem OpPhase.Fits.committing_of_inOp {log : Log} {history : GroupHistory} {phase : OpPhase}
    (hfits : phase.Fits log history) (hop : phase.inOp = true) : log.committing = false := by
  cases phase with
  | outside | inCommit pos => cases hop
  | running logged | checked logged blockno => exact hfits.1

/-- The number of operations in progress. -/
def GroupState.Counts {Pid : Type} (state : GroupState Pid) (count : ℤ) : Prop :=
  ∃ procs : Finset Pid, (∀ p, p ∈ procs ↔ (state.phase p).inOp = true) ∧ count = procs.card

/-- The invariant of group commit. -/
structure Grouped {Pid : Type} (state : GroupState Pid) (history : GroupHistory) : Prop where
  counts : state.Counts state.log.outstanding
  idle : state.log.committing = false → state.log.outstanding = 0 → state.log.lh.n = 0
  alone : ∀ p q pos, state.phase p = .inCommit pos → q ≠ p → state.phase q = .outside
  fits : ∀ p, (state.phase p).Fits state.log history
  committer : state.log.committing = true → ∃ p pos, state.phase p = .inCommit pos
  ended : ∀ op ∈ history.ended, ∀ blockno ∈ op, blockno ∈ state.log.lh.blocks
  whole : ∀ transaction ∈ history.transactions, transaction.Whole

section Counting

variable {Pid : Type} {state : GroupState Pid} {count : ℤ} {p : Pid}

theorem GroupState.Counts.inOp_of_ne {q : Pid} (h : state.Counts 1)
    (hp : (state.phase p).inOp = true) (hq : q ≠ p) : (state.phase q).inOp = false := by
  obtain ⟨procs, hprocs, hcount⟩ := h
  obtain ⟨r, rfl⟩ := Finset.card_eq_one.mp (show procs.card = 1 by omega)
  have hpr : p = r := by simpa using (hprocs p).mpr hp
  by_contra hop
  have hqr : q = r := by simpa using (hprocs q).mpr (by simpa using hop)
  exact hq (hqr.trans hpr.symm)

variable [DecidableEq Pid] {log : Log} {phase : OpPhase}

theorem GroupState.mem_procs_move {procs procs' : Finset Pid}
    (hprocs : ∀ q, q ∈ procs ↔ (state.phase q).inOp = true)
    (hself : p ∈ procs' ↔ phase.inOp = true) (hother : ∀ q ≠ p, q ∈ procs' ↔ q ∈ procs) (q : Pid) :
    q ∈ procs' ↔ ((state.move p log phase).phase q).inOp = true := by
  rcases eq_or_ne q p with rfl | hq
  · rw [phase_move_self, hself]
  · rw [phase_move_of_ne _ _ _ _ hq, hother q hq, hprocs q]

theorem GroupState.Counts.stay (h : state.Counts count)
    (hsame : phase.inOp = (state.phase p).inOp) : (state.move p log phase).Counts count := by
  obtain ⟨procs, hprocs, hcount⟩ := h
  refine ⟨procs, mem_procs_move hprocs ?_ fun q _ ↦ Iff.rfl, hcount⟩
  rw [hprocs, hsame]

theorem GroupState.Counts.enter (h : state.Counts count) (hbefore : (state.phase p).inOp = false)
    (hafter : phase.inOp = true) : (state.move p log phase).Counts (count + 1) := by
  obtain ⟨procs, hprocs, hcount⟩ := h
  have hnot : p ∉ procs := by simp [hprocs, hbefore]
  refine ⟨insert p procs, mem_procs_move hprocs (by simp [hafter]) ?_, ?_⟩
  · intro q hq
    simp [hq]
  · rw [Finset.card_insert_of_notMem hnot, hcount, Nat.cast_succ]

theorem GroupState.Counts.leave (h : state.Counts count) (hbefore : (state.phase p).inOp = true)
    (hafter : phase.inOp = false) : (state.move p log phase).Counts (count - 1) := by
  obtain ⟨procs, hprocs, hcount⟩ := h
  have hmem : p ∈ procs := (hprocs p).mpr hbefore
  refine ⟨procs.erase p, mem_procs_move hprocs (by simp [hafter]) ?_, ?_⟩
  · intro q hq
    simp [hq]
  · have hcard := Finset.card_erase_add_one hmem
    omega

end Counting

section Invariant

variable {Pid : Type}

theorem Grouped.start (logstart size : ℕ) :
    Grouped (GroupState.start logstart size : GroupState Pid) .empty where
  counts := ⟨∅, by simp [GroupState.start, OpPhase.inOp], rfl⟩
  idle := fun _ _ ↦ rfl
  alone := fun _ _ _ _ _ ↦ rfl
  fits := fun _ ↦ trivial
  committer := fun h ↦ nomatch h
  ended := fun _ h ↦ nomatch h
  whole := fun _ h ↦ nomatch h

variable [DecidableEq Pid] {state : GroupState Pid} {history history' : GroupHistory}
  {p : Pid} {log : Log} {phase : OpPhase}

theorem Grouped.move_free (h : Grouped state history) (hfree : state.log.committing = false)
    (hfree' : log.committing = false) (hcounts : (state.move p log phase).Counts log.outstanding)
    (hidle : log.outstanding = 0 → log.lh.n = 0) (hgrow : state.log.lh.blocks ⊆ log.lh.blocks)
    (hself : phase.Fits log history')
    (hended : ∀ op ∈ history'.ended, ∀ blockno ∈ op, blockno ∈ log.lh.blocks)
    (hsame : history'.transactions = history.transactions) :
    Grouped (state.move p log phase) history' := by
  have hfits (q : Pid) : ((state.move p log phase).phase q).Fits log history' := by
    rcases eq_or_ne q p with rfl | hq
    · rw [GroupState.phase_move_self]
      exact hself
    · rw [GroupState.phase_move_of_ne _ _ _ _ hq]
      exact (h.fits q).grow hfree hfree' hgrow
  refine ⟨hcounts, fun _ ↦ hidle, fun q _ pos hpos ↦ ?_, hfits, fun hcommitting ↦ ?_, hended, ?_⟩
  · have hcommitting := hfits q
    rw [hpos] at hcommitting
    simp [OpPhase.Fits, hfree'] at hcommitting
  · rw [show (state.move p log phase).log = log from rfl, hfree'] at hcommitting
    cases hcommitting
  · rw [hsame]
    exact h.whole

theorem Grouped.move_alone (hothers : ∀ q ≠ p, state.phase q = .outside)
    (hcounts : (state.move p log phase).Counts log.outstanding)
    (hidle : log.committing = false → log.lh.n = 0) (hself : phase.Fits log history')
    (hcommitter : log.committing = true → ∃ pos, phase = .inCommit pos)
    (hended : ∀ op ∈ history'.ended, ∀ blockno ∈ op, blockno ∈ log.lh.blocks)
    (hwhole : ∀ transaction ∈ history'.transactions, transaction.Whole) :
    Grouped (state.move p log phase) history' := by
  have houtside (q : Pid) (hq : q ≠ p) : (state.move p log phase).phase q = .outside := by
    rw [GroupState.phase_move_of_ne _ _ _ _ hq, hothers q hq]
  refine ⟨hcounts, fun hfree _ ↦ hidle hfree, fun q r pos hpos hr ↦ ?_, fun q ↦ ?_,
    fun hcommitting ↦ ?_, hended, hwhole⟩
  · rcases eq_or_ne q p with rfl | hq
    · exact houtside r hr
    · rw [houtside q hq] at hpos
      cases hpos
  · rcases eq_or_ne q p with rfl | hq
    · rw [GroupState.phase_move_self]
      exact hself
    · rw [houtside q hq]
      trivial
  · obtain ⟨pos, hphase⟩ := hcommitter hcommitting
    exact ⟨p, pos, by rw [GroupState.phase_move_self, hphase]⟩

/-- What `commit` does keeps the invariant: the header reaches the disk when all its blocks have
been copied, and it is emptied only after that. -/
theorem Grouped.commit {pos : CommitPos} (h : Grouped state history)
    (hphase : state.phase p = .inCommit pos) :
    Grouped (state.move p (state.log.commitStep pos).1 (state.log.commitStep pos).2)
      (history.commitNote state.log pos) := by
  have hothers (q : Pid) (hq : q ≠ p) := h.alone p q pos hphase hq
  obtain ⟨hcommitting, hreached⟩ : state.log.committing = true ∧ pos.Reached state.log history := by
    simpa [hphase, OpPhase.Fits] using h.fits p
  have hcounts (log : Log) (phase : OpPhase) (hout : phase.inOp = false) :
      (state.move p log phase).Counts state.log.outstanding :=
    h.counts.stay (by rw [hphase, hout]; rfl)
  have hbusy (hfree : state.log.committing = false) : state.log.lh.n = 0 := by simp_all
  cases pos with
  | start =>
    refine .move_alone hothers (hcounts _ _ rfl) hbusy ⟨hcommitting, ?_⟩ (fun _ ↦ ⟨_, rfl⟩) h.ended
      h.whole
    split
    · exact ⟨Nat.zero_le _, rfl⟩
    · rename_i hn
      exact Nat.eq_zero_of_not_pos hn
  | writeLog tail =>
    obtain ⟨htail, hcopied⟩ := hreached
    dsimp only [Log.commitStep, GroupHistory.commitNote]
    split
    · rename_i hlt
      refine .move_alone hothers (hcounts _ _ rfl) hbusy ⟨hcommitting, hlt, ?_⟩
        (fun _ ↦ ⟨_, rfl⟩) h.ended h.whole
      rw [hcopied, LogHeader.blocks, ← List.map_take, ← List.map_take, List.take_range,
        List.take_range, Nat.min_eq_left htail, Nat.min_eq_left hlt, List.range_succ,
        List.map_append, List.map_singleton]
    · rename_i hend
      have hall : tail = state.log.lh.n := by omega
      refine .move_alone hothers (hcounts _ _ rfl) hbusy ⟨hcommitting, ?_⟩ (fun _ ↦ ⟨_, rfl⟩)
        h.ended h.whole
      rw [CommitPos.Reached, hcopied, hall, List.take_of_length_le (by simp)]
  | writeHead =>
    refine .move_alone hothers (hcounts _ _ rfl) hbusy ⟨hcommitting, rfl⟩ (fun _ ↦ ⟨_, rfl⟩)
      (fun _ hmem ↦ by cases hmem) fun transaction hmem ↦ ?_
    rcases List.mem_cons.mp hmem with rfl | hold
    · exact ⟨hreached, h.ended⟩
    · exact h.whole transaction hold
  | install tail =>
    dsimp only [Log.commitStep]
    split
    all_goals
      exact .move_alone hothers (hcounts _ _ rfl) hbusy ⟨hcommitting, hreached⟩
        (fun _ ↦ ⟨_, rfl⟩) h.ended h.whole
  | clear =>
    refine .move_alone hothers (hcounts _ _ rfl) (fun _ ↦ rfl) ⟨hcommitting, rfl⟩
      (fun _ ↦ ⟨_, rfl⟩) ?_ h.whole
    rw [show (history.commitNote state.log .clear).ended = [] from hreached]
    intro _ hmem
    cases hmem
  | erase =>
    exact .move_alone hothers (hcounts _ _ rfl) hbusy ⟨hcommitting, hreached⟩
      (fun _ ↦ ⟨_, rfl⟩) h.ended h.whole
  | finished =>
    exact .move_alone hothers (hcounts _ _ rfl) (fun _ ↦ hreached) trivial
      (fun hstill ↦ by cases hstill) h.ended h.whole

theorem LogHeader.blocks_subset_of_absorb {lh lh' : LogHeader} {blockno : ℕ}
    (h : lh.absorb blockno = .ok lh') : blockno ∈ lh'.blocks ∧ lh.blocks ⊆ lh'.blocks := by
  rcases LogHeader.absorb_cases h with ⟨hmem, rfl⟩ | ⟨-, -, hblocks⟩
  · exact ⟨hmem, List.Subset.refl _⟩
  · rw [hblocks]
    exact ⟨List.mem_append_right _ (List.mem_singleton_self _), List.subset_append_left _ _⟩

theorem GroupState.Steps.grouped {call : GroupCall} {next : GroupState Pid}
    (hstep : state.Steps p call next) (h : Grouped state history) :
    Grouped next (history.note state ⟨p, call⟩ next ()) := by
  have hcount : 0 ≤ state.log.outstanding := by
    obtain ⟨procs, -, hprocs⟩ := h.counts
    omega
  have hself := h.fits p
  cases hstep with
  | beginOp hphase hfree hroom =>
    rw [GroupHistory.note, hphase]
    exact h.move_free hfree hfree (h.counts.enter (by rw [hphase]; rfl) rfl)
      (fun hzero ↦ absurd hzero (by dsimp only; omega)) (List.Subset.refl _)
      ⟨hfree, fun _ hmem ↦ nomatch hmem⟩ h.ended rfl
  | @logWrite logged blockno hphase =>
    rw [hphase] at hself
    rw [GroupHistory.note, hphase]
    exact h.move_free hself.1 hself.1 (h.counts.stay (by rw [hphase]; rfl)) (h.idle hself.1)
      (List.Subset.refl _) hself h.ended rfl
  | @finishWrite logged blockno lh hphase habsorb =>
    obtain ⟨hblock, hgrow⟩ := LogHeader.blocks_subset_of_absorb habsorb
    rw [hphase] at hself
    have hpositive : state.log.outstanding ≠ 0 := by
      obtain ⟨procs, hprocs, houtstanding⟩ := h.counts
      have hmem : p ∈ procs := (hprocs p).mpr (by rw [hphase]; rfl)
      have := Finset.card_pos.mpr ⟨p, hmem⟩
      omega
    rw [GroupHistory.note, hphase]
    refine h.move_free hself.1 hself.1 (h.counts.stay (by rw [hphase]; rfl))
      (fun hzero ↦ absurd hzero hpositive) hgrow ⟨hself.1, ?_⟩
      (fun op hop blockno hmem ↦ hgrow (h.ended op hop blockno hmem)) rfl
    exact List.forall_mem_cons.mpr ⟨hblock, fun blockno hmem ↦ hgrow (hself.2 blockno hmem)⟩
  | @lastOp logged hphase hfree hlast =>
    have hcounts := h.counts
    rw [hlast] at hcounts
    rw [hphase] at hself
    rw [GroupHistory.note, hphase]
    refine .move_alone (fun q hq ↦ ?_)
      (show GroupState.Counts _ (1 - 1) from hcounts.leave (by rw [hphase]; rfl) rfl)
      (fun hstill ↦ nomatch hstill) ⟨rfl, trivial⟩ (fun _ ↦ ⟨_, rfl⟩)
      (List.forall_mem_cons.mpr ⟨hself.2, h.ended⟩) h.whole
    -- The only operation is the one that ends, and nobody has been committing.
    have hop := hcounts.inOp_of_ne (by rw [hphase]; rfl) hq
    have hother := h.fits q
    cases hq : state.phase q with
    | outside => rfl
    | running logged | checked logged blockno => simp [hq, OpPhase.inOp] at hop
    | inCommit pos => simp [hq, OpPhase.Fits, hfree] at hother
  | @endOp logged hphase hfree hmore =>
    rw [hphase] at hself
    rw [GroupHistory.note, hphase]
    exact h.move_free hfree hfree (h.counts.leave (by rw [hphase]; rfl) rfl)
      (fun hzero ↦ absurd hzero (by dsimp only; omega)) (List.Subset.refl _) trivial
      (List.forall_mem_cons.mpr ⟨hself.2, h.ended⟩) rfl
  | @commit pos hphase =>
    rw [GroupHistory.note, hphase]
    exact h.commit hphase

/-- Runs of any number of processes, with their history. -/
abbrev GroupRuns (logstart size : ℕ) (state : GroupState Pid) (history : GroupHistory) : Prop :=
  Runs (observe GroupState.step GroupHistory.note) (fun _ _ ↦ True)
    (GroupState.start logstart size, .empty) (state, history)

theorem GroupRuns.grouped {logstart size : ℕ} (hrun : GroupRuns logstart size state history) :
    Grouped state history ∧ history.Sorted :=
  hrun.invariant (fun observed ↦ Grouped observed.1 observed.2 ∧ observed.2.Sorted)
    ⟨.start logstart size, rfl⟩ fun observed label next _ hinv _ hok ↦ by
      obtain ⟨hstep, hnote⟩ := observe_eq_ok.mp hok
      rw [hnote]
      exact ⟨(GroupState.step_cases hstep).grouped hinv.1, hinv.2.note ..⟩

theorem Grouped.step_ne_committing (h : Grouped state history) (label : GroupLabel Pid) :
    state.step label ≠ .error (.panic "log.committing") := by
  obtain ⟨p, call⟩ := label
  intro herror
  generalize hfault : Fault.panic "log.committing" = fault at herror
  cases GroupState.step_error herror with
  | blocked | outOfBounds => cases hfault
  | logWrite hcheck =>
    unfold Log.logWriteCheck at hcheck
    split_ifs at hcheck
    all_goals simp [← hfault] at hcheck
  | endOp hphase hcommitting =>
    have hself := h.fits p
    rw [hphase] at hself
    rw [hself.1] at hcommitting
    cases hcommitting

/-- In every reachable state nobody is in an operation while the log is being committed, one process
commits, `end_op` does not panic, and no operation is split: the blocks it has logged stay in the
header, and one transaction copies them all. -/
theorem group_commit_whole {logstart size : ℕ} (hrun : GroupRuns logstart size state history) :
    (state.log.committing = true → state.log.outstanding = 0) ∧
    (∀ p q pos pos', state.phase p = .inCommit pos → state.phase q = .inCommit pos' → p = q) ∧
    (∀ label, state.step label ≠ .error (.panic "log.committing")) ∧
    (∀ p, ∀ blockno ∈ (state.phase p).logged, blockno ∈ state.log.lh.blocks) ∧
    history.finished = history.ended ++ history.transactions.flatMap Transaction.ops ∧
    (∀ op ∈ history.ended, ∀ blockno ∈ op, blockno ∈ state.log.lh.blocks) ∧
    ∀ transaction ∈ history.transactions, transaction.copied = transaction.header ∧
      ∀ op ∈ transaction.ops, ∀ blockno ∈ op, blockno ∈ transaction.header := by
  obtain ⟨hgrouped, hsorted⟩ := hrun.grouped
  refine ⟨fun hcommitting ↦ ?_, fun p q pos pos' hp hq ↦ ?_, hgrouped.step_ne_committing,
    fun p blockno hmem ↦ ?_, hsorted, hgrouped.ended, hgrouped.whole⟩
  · obtain ⟨procs, hprocs, hcount⟩ := hgrouped.counts
    have hnone : procs = ∅ := by
      refine Finset.eq_empty_of_forall_notMem fun p hmem ↦ ?_
      have hfree := (hgrouped.fits p).committing_of_inOp ((hprocs p).mp hmem)
      rw [hcommitting] at hfree
      cases hfree
    rw [hcount, hnone, Finset.card_empty, Nat.cast_zero]
  · by_contra hne
    have houtside := hgrouped.alone p q pos hp (Ne.symm hne)
    rw [hq] at houtside
    cases houtside
  · have hfits := hgrouped.fits p
    cases hphase : state.phase p with
    | outside | inCommit pos =>
      rw [hphase] at hmem
      cases hmem
    | running logged | checked logged other =>
      rw [hphase] at hfits hmem
      exact hfits.2 blockno hmem

/-- Two processes share a transaction; the block that both have logged is copied once. -/
theorem group_commit_whole_shared : ∃ (state : GroupState Bool) (history : GroupHistory),
    GroupRuns 2 30 state history ∧
    history.transactions = [⟨[5, 6], [5, 6], [[5], [6, 5]]⟩] ∧
    ∀ transaction ∈ history.transactions, transaction.copied = transaction.header ∧
      ∀ op ∈ transaction.ops, ∀ blockno ∈ op, blockno ∈ transaction.header := by
  obtain ⟨state, history, hrun, htransactions⟩ :
      ∃ (state : GroupState Bool) (history : GroupHistory), GroupRuns 2 30 state history ∧
        history.transactions = [⟨[5, 6], [5, 6], [[5], [6, 5]]⟩] := by
    apply Runs.of_labels_observed ([⟨false, .beginOp⟩, ⟨true, .beginOp⟩, ⟨false, .logWrite 5⟩,
      ⟨true, .logWrite 5⟩, ⟨true, .finishWrite⟩, ⟨false, .finishWrite⟩, ⟨false, .logWrite 6⟩,
      ⟨false, .finishWrite⟩, ⟨false, .endOp⟩, ⟨true, .endOp⟩] ++ List.replicate 10 ⟨true, .commit⟩)
    decide +kernel
  obtain ⟨-, -, -, -, -, -, hwhole⟩ := group_commit_whole hrun
  exact ⟨state, history, hrun, htransactions, hwhole⟩

end Invariant

end Xv6Shm
