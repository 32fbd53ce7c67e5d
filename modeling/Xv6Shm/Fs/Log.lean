import Xv6Shm.Fs.Block
import Xv6Shm.Memory.Kalloc

/-!
# The log

The data of `log.c` and the sections of its calls that run under `log.lock`. The header lists the
blocks of the current transaction; `log_write` adds a block unless it is there already. A count
that is read as a negative number from disk acts like zero in every loop, so it is a natural number
here.
-/

namespace Xv6Shm

open Fallible Function

/-- `struct logheader`. -/
structure LogHeader where
  n : ℕ
  block : ℕ → ℕ

/-- `struct log`, for the device `rootDev`. -/
structure Log where
  start : ℕ
  size : ℕ
  outstanding : ℤ
  committing : Bool
  lh : LogHeader

namespace LogHeader

/-- The blocks the header lists. -/
def blocks (lh : LogHeader) : List ℕ := (List.range lh.n).map lh.block

/-- Where the loop of `log_write` ends. -/
def index (lh : LogHeader) (blockno : ℕ) : ℕ :=
  ((List.range lh.n).find? fun i ↦ lh.block i == blockno).getD lh.n

/-- The section of `log_write` under the lock. -/
def absorb (lh : LogHeader) (blockno : ℕ) : Except Fault LogHeader :=
  let i := lh.index blockno
  if logSize ≤ i then .error (.outOfBounds .lhBlock)
  else .ok { n := if i = lh.n then lh.n + 1 else lh.n, block := update lh.block i blockno }

@[simp] theorem length_blocks (lh : LogHeader) : lh.blocks.length = lh.n := by simp [blocks]

variable {lh : LogHeader} {blockno : ℕ}

theorem mem_blocks : blockno ∈ lh.blocks ↔ ∃ i < lh.n, lh.block i = blockno := by
  simp [blocks]

theorem absorb_cases {lh' : LogHeader} (h : lh.absorb blockno = .ok lh') :
    blockno ∈ lh.blocks ∧ lh' = lh ∨
      blockno ∉ lh.blocks ∧ lh'.n = lh.n + 1 ∧ lh'.blocks = lh.blocks ++ [blockno] := by
  unfold absorb at h
  dsimp only at h
  split at h
  · cases h
  · cases h
    cases hfind : (List.range lh.n).find? fun i ↦ lh.block i == blockno with
    | some i =>
      have hindex : lh.index blockno = i := by rw [index, hfind, Option.getD_some]
      have hi : i < lh.n := List.mem_range.mp (List.mem_of_find?_eq_some hfind)
      have hblock : lh.block i = blockno := by simpa using List.find?_some hfind
      refine Or.inl ⟨mem_blocks.mpr ⟨i, hi, hblock⟩, ?_⟩
      rw [hindex, if_neg (Nat.ne_of_lt hi), ← hblock, update_eq_self]
    | none =>
      have hindex : lh.index blockno = lh.n := by rw [index, hfind, Option.getD_none]
      refine Or.inr ⟨fun hmem ↦ ?_, by rw [hindex, if_pos rfl], ?_⟩
      · obtain ⟨i, hi, hblock⟩ := mem_blocks.mp hmem
        simpa [hblock] using List.find?_eq_none.mp hfind i (List.mem_range.mpr hi)
      · rw [blocks, hindex, if_pos rfl, List.range_succ, List.map_append, List.map_singleton]
        dsimp only
        rw [update_self]
        congr 1
        refine List.map_congr_left fun i hi ↦ ?_
        rw [update_of_ne (Nat.ne_of_lt (List.mem_range.mp hi))]

theorem absorb_of_lt (h : lh.n < logSize) (blockno : ℕ) : ∃ lh', lh.absorb blockno = .ok lh' := by
  have hindex : lh.index blockno ≤ lh.n := by
    unfold index
    cases hfind : (List.range lh.n).find? fun i ↦ lh.block i == blockno with
    | none => exact le_rfl
    | some i => exact (List.mem_range.mp (List.mem_of_find?_eq_some hfind)).le
  exact ⟨_, if_neg (by omega)⟩

theorem absorb_error {fault : Fault}
    (h : lh.absorb blockno = .error fault) : fault = .outOfBounds .lhBlock := by
  unfold absorb at h
  dsimp only at h
  split at h
  · exact (Except.error.inj h).symm
  · cases h

end LogHeader

namespace Log

/-- The two tests that `log_write` makes before it takes the lock. -/
def logWriteCheck (log : Log) : Except Fault Unit :=
  if logSize ≤ log.lh.n ∨ (log.size : ℤ) - 1 ≤ log.lh.n then
    .error (.panic "too big a transaction")
  else if log.outstanding < 1 then .error (.panic "log_write outside of trans")
  else .ok ()

/-- The rest of `log_write`, as far as the log is concerned. -/
def logWriteLocked (log : Log) (blockno : ℕ) : Except Fault Log := do
  let lh ← log.lh.absorb blockno
  pure { log with lh := lh }

variable {log : Log} {fault : Fault}

theorem logWriteLocked_error {blockno : ℕ}
    (h : log.logWriteLocked blockno = .error fault) : fault = .outOfBounds .lhBlock := by
  rcases bind_eq_error.mp h with habsorb | ⟨_, _, hpure⟩
  · exact LogHeader.absorb_error habsorb
  · cases hpure

/-- The calls of `log_write` for some blocks, as far as the log is concerned. -/
def logWrites (log : Log) : List ℕ → Except Fault Log
  | [] => pure log
  | blockno :: rest => do
    log.logWriteCheck
    let log ← log.logWriteLocked blockno
    log.logWrites rest

/-- A transaction is under way, and there is room for those of the blocks that are not in it yet. -/
def Fits (log : Log) (blocks : List ℕ) : Prop :=
  1 ≤ log.outstanding ∧ log.lh.n + (blocks.toFinset \ log.lh.blocks.toFinset).card <
    min logSize (log.size - 1)

instance (log : Log) (blocks : List ℕ) : Decidable (log.Fits blocks) :=
  inferInstanceAs (Decidable (_ ∧ _))

theorem Fits.logWrites {blocks : List ℕ} (h : log.Fits blocks) :
    ∃ log', log.logWrites blocks = .ok log' := by
  induction blocks generalizing log with
  | nil => exact ⟨log, rfl⟩
  | cons blockno rest ih =>
    obtain ⟨hrunning, hroom⟩ := h
    have hcheck : log.logWriteCheck = .ok () := by
      rw [logWriteCheck, if_neg (by omega), if_neg (by omega)]
    obtain ⟨lh, habsorb⟩ := LogHeader.absorb_of_lt (show log.lh.n < logSize by omega) blockno
    have hfits : ({ log with lh := lh } : Log).Fits rest := by
      refine ⟨hrunning, lt_of_le_of_lt ?_ hroom⟩
      rcases LogHeader.absorb_cases habsorb with ⟨-, rfl⟩ | ⟨hnew, hn, hblocks⟩
      · gcongr
        simp
      · have hmem : blockno ∈ (blockno :: rest).toFinset \ log.lh.blocks.toFinset := by simp [hnew]
        have hrest : rest.toFinset \ lh.blocks.toFinset =
            ((blockno :: rest).toFinset \ log.lh.blocks.toFinset).erase blockno := by
          ext other
          simp only [hblocks, Finset.mem_sdiff, List.mem_toFinset, List.mem_append,
            Finset.mem_erase, List.mem_cons]
          tauto
        dsimp only
        rw [← Finset.card_erase_add_one hmem, ← hrest, hn]
        omega
    obtain ⟨final, hfinal⟩ := ih hfits
    refine ⟨final, ?_⟩
    rw [Log.logWrites, hcheck, logWriteLocked, habsorb]
    exact hfinal

/-- One round of the loop of `begin_op`; the process sleeps if it is not admitted. -/
def beginOp (log : Log) : Except Fault Log :=
  if log.committing then .error .blocked
  else if (logSize : ℤ) < log.lh.n + (log.outstanding + 1) * maxOpBlocks then .error .blocked
  else .ok { log with outstanding := log.outstanding + 1 }

theorem beginOp_error (h : log.beginOp = .error fault) : fault = .blocked := by
  unfold beginOp at h
  split_ifs at h
  · exact (Except.error.inj h).symm
  · exact (Except.error.inj h).symm

/-- The first section of `end_op`, with `do_commit`. -/
def endOp (log : Log) : Except Fault (Log × Bool) :=
  if log.committing then .error (.panic "log.committing")
  else if log.outstanding - 1 = 0 then
    .ok ({ log with outstanding := log.outstanding - 1, committing := true }, true)
  else .ok ({ log with outstanding := log.outstanding - 1 }, false)

theorem endOp_error (h : log.endOp = .error fault) :
    fault = .panic "log.committing" ∧ log.committing = true := by
  unfold endOp at h
  split_ifs at h with hcommitting
  exact ⟨(Except.error.inj h).symm, hcommitting⟩

end Log

end Xv6Shm
