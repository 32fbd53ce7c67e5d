import Xv6Shm.Fs.GroupCommit

/-!
# Log reservation

`begin_op` reserves `MAXOPBLOCKS` blocks for each operation and admits operations as long as the
reservations fit into the `LOGSIZE` entries of the header. But `log_write` panics as soon as
`LOGSIZE - 1` blocks are in the transaction. Three operations that use all they have reserved reach
the panic, and not if each stays one block below.
-/

namespace Xv6Shm

open Fallible GroupState

section Budget

variable {Pid : Type} [DecidableEq Pid]

/-- After the call, the operation has logged at most `budget` distinct blocks. -/
def Budgeted (budget : ℕ) (state : GroupState Pid) (label : GroupLabel Pid) : Prop :=
  match label.call with
  | .logWrite blockno =>
    (insert blockno (state.phase label.proc).logged.toFinset).card ≤ budget
  | .beginOp | .finishWrite | .endOp | .commit => True

instance (budget : ℕ) (state : GroupState Pid) (label : GroupLabel Pid) :
    Decidable (Budgeted budget state label) := by
  unfold Budgeted
  split <;> infer_instance

end Budget

/-- The labels with which one process logs blocks. -/
def logWrites {Pid : Type} (p : Pid) (blocks : List ℕ) : List (GroupLabel Pid) :=
  blocks.flatMap fun blockno ↦ [⟨p, .logWrite blockno⟩, ⟨p, .finishWrite⟩]

/-- Three operations log ten blocks each; the thirtieth block does not fit. -/
theorem log_write_panics_within_reservation : ∃ state : GroupState (Fin 3),
    Runs step (Budgeted maxOpBlocks) (start 2 logSize) state ∧
    ∃ label, Budgeted maxOpBlocks state label ∧
      state.step label = .error (.panic "too big a transaction") := by
  obtain ⟨state, hrun, hbudget, hfails⟩ : ∃ state : GroupState (Fin 3),
      Runs step (Budgeted maxOpBlocks) (start 2 logSize) state ∧
      Budgeted maxOpBlocks state ⟨2, .logWrite 309⟩ ∧
      state.step ⟨2, .logWrite 309⟩ = .error (.panic "too big a transaction") := by
    apply Runs.of_labels ([⟨0, .beginOp⟩, ⟨1, .beginOp⟩, ⟨2, .beginOp⟩] ++
      logWrites 0 (List.range' 100 10) ++ logWrites 1 (List.range' 200 10) ++
      logWrites 2 (List.range' 300 9))
    decide +kernel
  exact ⟨state, hrun, _, hbudget, hfails⟩

/-- How many more blocks an operation may log. -/
def OpPhase.spare (phase : OpPhase) : ℕ := maxOpBlocks - 1 - phase.logged.toFinset.card

/-- The log has room for what the operations in progress may still log. -/
structure Reserved {Pid : Type} (state : GroupState Pid) : Prop where
  size : state.log.size = logSize
  checked : ∀ p logged blockno, state.phase p = .checked logged blockno →
    (insert blockno logged.toFinset).card ≤ maxOpBlocks - 1
  room : ∃ procs : Finset Pid, (∀ p, p ∈ procs ↔ (state.phase p).inOp = true) ∧
    state.log.lh.n + ∑ p ∈ procs, (state.phase p).spare ≤ logSize - 2

section Reservation

variable {Pid : Type} [DecidableEq Pid] {state : GroupState Pid} {p : Pid} {log : Log}
  {phase : OpPhase}

variable {procs : Finset Pid} {history : GroupHistory}

theorem sum_spare_move_of_notMem (hp : p ∉ procs) :
    ∑ q ∈ procs, ((state.move p log phase).phase q).spare = ∑ q ∈ procs, (state.phase q).spare := by
  refine Finset.sum_congr rfl fun q hq ↦ ?_
  rw [phase_move_of_ne _ _ _ _ (ne_of_mem_of_not_mem hq hp)]

theorem sum_spare_move (hp : p ∈ procs) : ∑ q ∈ procs, ((state.move p log phase).phase q).spare =
      phase.spare + ∑ q ∈ procs.erase p, (state.phase q).spare := by
  rw [← Finset.add_sum_erase procs _ hp, phase_move_self,
    sum_spare_move_of_notMem (Finset.notMem_erase p procs)]

section

variable (h : Reserved state)

include h

theorem Reserved.checked_move
    (hself : ∀ logged blockno, phase = .checked logged blockno →
      (insert blockno logged.toFinset).card ≤ maxOpBlocks - 1)
    (q : Pid) (logged : List ℕ) (blockno : ℕ)
    (hq : (state.move p log phase).phase q = .checked logged blockno) :
    (insert blockno logged.toFinset).card ≤ maxOpBlocks - 1 := by
  rcases eq_or_ne q p with rfl | hne
  · rw [phase_move_self] at hq
    exact hself logged blockno hq
  · rw [phase_move_of_ne _ _ _ _ hne] at hq
    exact h.checked q logged blockno hq

theorem Reserved.move_stay (hsize : log.size = state.log.size)
    (hself : ∀ logged blockno, phase = .checked logged blockno →
      (insert blockno logged.toFinset).card ≤ maxOpBlocks - 1)
    (hop : (state.phase p).inOp = true) (hop' : phase.inOp = true)
    (hroom : log.lh.n + phase.spare ≤ state.log.lh.n + (state.phase p).spare) :
    Reserved (state.move p log phase) := by
  obtain ⟨procs, hprocs, hsum⟩ := h.room
  have hmem : p ∈ procs := (hprocs p).mpr hop
  refine ⟨hsize.trans h.size, h.checked_move hself, procs,
    mem_procs_move hprocs (by simp [hmem, hop']) fun _ _ ↦ Iff.rfl, ?_⟩
  rw [← Finset.add_sum_erase procs _ hmem] at hsum
  rw [sum_spare_move hmem]
  dsimp only [move]
  omega

theorem Reserved.move_out (hsize : log.size = state.log.size) (hop : phase.inOp = false)
    (hn : log.lh.n ≤ state.log.lh.n) : Reserved (state.move p log phase) := by
  obtain ⟨procs, hprocs, hsum⟩ := h.room
  refine ⟨hsize.trans h.size, h.checked_move (fun logged blockno hphase ↦ ?_), procs.erase p,
    mem_procs_move hprocs (by simp [hop]) fun q hq ↦ by simp [hq], ?_⟩
  · rw [hphase] at hop
    cases hop
  · rw [sum_spare_move_of_notMem (Finset.notMem_erase p procs)]
    have hless := Finset.sum_le_sum_of_subset (f := fun q ↦ (state.phase q).spare)
      (Finset.erase_subset p procs)
    dsimp only [move]
    omega

/-- An operation that `begin_op` admits has room for one block less than it reserves. -/
theorem Reserved.beginOp (hgrouped : Grouped state history)
    (hphase : state.phase p = .outside) (hfree : state.log.committing = false)
    (hroom : state.log.lh.n + (state.log.outstanding + 1) * maxOpBlocks ≤ (logSize : ℤ)) :
    Reserved
      (state.move p { state.log with outstanding := state.log.outstanding + 1 } (.running [])) := by
  obtain ⟨procs, hprocs, hcount⟩ := hgrouped.counts
  have hnot : p ∉ procs := by simp [hprocs, hphase, OpPhase.inOp]
  refine ⟨h.size, h.checked_move (fun _ _ hrunning ↦ by cases hrunning), insert p procs,
    mem_procs_move hprocs (by simp [OpPhase.inOp]) fun q hq ↦ by simp [hq], ?_⟩
  rw [sum_spare_move (Finset.mem_insert_self p procs), Finset.erase_insert hnot]
  have hspare : ∑ q ∈ procs, (state.phase q).spare ≤ procs.card * (maxOpBlocks - 1) :=
    Finset.sum_le_card_nsmul _ _ _ fun q _ ↦ Nat.sub_le _ _
  have hself : (OpPhase.running []).spare ≤ maxOpBlocks - 1 := Nat.sub_le _ _
  -- The first operation finds the log empty; with a second one there are two blocks to spare.
  have hempty : procs.card = 0 → state.log.lh.n = 0 := fun hzero ↦
    hgrouped.idle hfree (by rw [hcount, hzero, Nat.cast_zero])
  dsimp only [move, maxOpBlocks, logSize] at *
  omega

/-- A block that is new to the operation uses one of those it had to spare; one that is not is in
the header already. -/
theorem Reserved.finishWrite {logged : List ℕ} {blockno : ℕ}
    {lh : LogHeader} (hgrouped : Grouped state history)
    (hphase : state.phase p = .checked logged blockno)
    (habsorb : state.log.lh.absorb blockno = .ok lh) :
    Reserved (state.move p { state.log with lh := lh } (.running (blockno :: logged))) := by
  refine h.move_stay rfl (fun _ _ hrunning ↦ nomatch hrunning) (by rw [hphase]; rfl) rfl ?_
  have hbudget := h.checked p logged blockno hphase
  have hfits := hgrouped.fits p
  rw [hphase] at hfits
  simp only [hphase, OpPhase.spare, OpPhase.logged, List.toFinset_cons]
  by_cases hnew : blockno ∈ logged
  · have hin := hfits.2 blockno hnew
    rcases LogHeader.absorb_cases habsorb with ⟨-, rfl⟩ | ⟨hnot, -⟩
    · rw [Finset.insert_eq_of_mem (List.mem_toFinset.mpr hnew)]
    · exact absurd hin hnot
  · rw [Finset.card_insert_of_notMem (by simpa using hnew)] at hbudget ⊢
    have hn : lh.n ≤ state.log.lh.n + 1 := by
      rcases LogHeader.absorb_cases habsorb with ⟨-, rfl⟩ | ⟨-, hn, -⟩
      · exact Nat.le_succ _
      · exact hn.le
    omega

end

theorem Log.commitStep_le (log : Log) (pos : CommitPos) :
    (log.commitStep pos).1.size = log.size ∧ (log.commitStep pos).1.lh.n ≤ log.lh.n ∧
      (log.commitStep pos).2.inOp = false := by
  cases pos <;> simp [Log.commitStep, OpPhase.inOp]

theorem GroupState.Steps.reserved {call : GroupCall}
    {next : GroupState Pid} (hstep : state.Steps p call next) (hgrouped : Grouped state history)
    (hbudget : Budgeted (maxOpBlocks - 1) state ⟨p, call⟩) (h : Reserved state) :
    Reserved next := by
  cases hstep with
  | beginOp hphase hfree hroom => exact h.beginOp hgrouped hphase hfree hroom
  | @logWrite logged blockno hphase =>
    refine h.move_stay rfl (fun _ _ hchecked ↦ ?_) (by rw [hphase]; rfl) rfl (by rw [hphase]; rfl)
    cases hchecked
    simpa [Budgeted, hphase, OpPhase.logged] using hbudget
  | finishWrite hphase habsorb => exact h.finishWrite hgrouped hphase habsorb
  | lastOp | endOp => exact h.move_out rfl rfl le_rfl
  | commit =>
    obtain ⟨hsize, hn, hop⟩ := Log.commitStep_le state.log _
    exact h.move_out hsize hop hn

theorem grouped_and_reserved {logstart : ℕ}
    (hrun : Runs step (Budgeted (maxOpBlocks - 1)) (start logstart logSize)
      state) : (∃ history, Grouped state history) ∧ Reserved state := by
  refine hrun.invariant (fun state ↦ (∃ history, Grouped state history) ∧ Reserved state)
    ⟨⟨_, .start logstart logSize⟩, rfl, fun _ _ _ hphase ↦ (nomatch hphase), ∅, ?_, ?_⟩ ?_
  · simp [start, OpPhase.inOp]
  · exact Nat.zero_le _
  · rintro state label next result ⟨⟨history, hgrouped⟩, hreserved⟩ hbudget hok
    have hstep := step_cases hok
    exact ⟨⟨_, hstep.grouped hgrouped⟩, hstep.reserved hgrouped hbudget hreserved⟩

/-- If every operation logs fewer than `MAXOPBLOCKS` distinct blocks, no `log_write` finds the
transaction too big. -/
theorem log_write_fits {logstart : ℕ} (label : GroupLabel Pid)
    (hrun : Runs step (Budgeted (maxOpBlocks - 1)) (start logstart logSize)
      state) : state.step label ≠ .error (.panic "too big a transaction") := by
  obtain ⟨-, hreserved⟩ := grouped_and_reserved hrun
  obtain ⟨procs, -, hroom⟩ := hreserved.room
  have hn : state.log.lh.n ≤ 28 := le_trans (Nat.le_add_right _ _) hroom
  obtain ⟨p, call⟩ := label
  intro herror
  generalize hfault : Fault.panic "too big a transaction" = fault at herror
  cases step_error herror with
  | blocked | outOfBounds => cases hfault
  | logWrite hcheck =>
    rw [Log.logWriteCheck, hreserved.size, if_neg (by simp only [logSize, maxOpBlocks]; omega)] at hcheck
    split_ifs at hcheck
    simp [← hfault] at hcheck
  | endOp => simp at hfault

/-- Three operations log nine blocks each. -/
theorem log_write_fits_three : ∃ state : GroupState (Fin 3),
    Runs step (Budgeted (maxOpBlocks - 1)) (start 2 logSize) state ∧
    state.log.lh.n = 27 ∧
    state.step ⟨2, .logWrite 309⟩ ≠ .error (.panic "too big a transaction") := by
  obtain ⟨state, hrun, hn⟩ : ∃ state : GroupState (Fin 3),
      Runs step (Budgeted (maxOpBlocks - 1)) (start 2 logSize) state ∧
      state.log.lh.n = 27 := by
    apply Runs.of_labels ([⟨0, .beginOp⟩, ⟨1, .beginOp⟩, ⟨2, .beginOp⟩] ++
      logWrites 0 (List.range' 100 9) ++ logWrites 1 (List.range' 200 9) ++
      logWrites 2 (List.range' 300 9))
    decide +kernel
  exact ⟨state, hrun, hn, log_write_fits _ hrun⟩

end Reservation

end Xv6Shm
