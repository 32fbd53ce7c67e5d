import Xv6Shm.Fs.Commit
import Xv6Shm.Lib.Redo

/-!
# Crash atomicity of the log

A machine boots, recovers the log and then runs transactions; at any point it can lose its memory
and boot again. Every step makes at most one disk write, so the crashes between steps are the
crashes between disk writes, those during recovery included.

A transaction is committed by the first `write_head` of `commit`. At any time, installing what the
header on disk lists turns the home blocks into what the committed transactions make of the first
disk.
-/

namespace Xv6Shm

open Fallible Function LogHeader

/-- Where the log is on disk, from the superblock. -/
structure LogArea where
  start : ℕ
  size : ℕ

/-- The block is not part of the log. -/
def LogArea.Home (area : LogArea) (blockno : ℕ) : Prop :=
  blockno < area.start ∨ area.start + area.size ≤ blockno

instance (area : LogArea) (blockno : ℕ) : Decidable (area.Home blockno) :=
  inferInstanceAs (Decidable (_ ∨ _))

/-- What the machine is doing. `recover_from_log` and `commit` end in the same way. -/
inductive PowerPhase where
  | off
  | recovering (pos : CommitPos)
  | idle
  | running
  | committing (pos : CommitPos)
deriving DecidableEq, Repr

structure Machine where
  storage : Storage
  log : Log
  phase : PowerPhase

inductive PowerCall where
  | boot
  | beginOp
  | update (blockno : ℕ) (data : Block)
  | endOp
  | goOn
  | crash

structure PowerLabel where
  pid : ℕ
  call : PowerCall

/-- The disk write of a step of `commit` or `recover_from_log`. -/
def CommitPos.transfer (storage : Storage) (pid : ℕ) (log : Log) : CommitPos → Except Fault Storage
  | .writeLog tail => if tail < log.lh.n then storage.writeLog pid log tail else .ok storage
  | .install tail => if tail < log.lh.n then storage.installTrans pid log tail else .ok storage
  | .writeHead | .erase => storage.writeHead pid log
  | .start | .clear | .finished => .ok storage

/-- Where `commit` goes on. -/
def OpPhase.afterCommit : OpPhase → PowerPhase
  | .inCommit pos => .committing pos
  | .outside | .running _ | .checked _ _ => .idle

/-- Where `recover_from_log` goes on. -/
def OpPhase.afterRecover : OpPhase → PowerPhase
  | .inCommit .finished | .outside | .running _ | .checked _ _ => .idle
  | .inCommit pos => .recovering pos

namespace Machine

/-- The machine before it is switched on. -/
def start (disk : Disk) (disksize : ℕ) : Machine :=
  ⟨⟨disk, disksize, .binit⟩, ⟨0, 0, 0, false, ⟨0, fun _ ↦ 0⟩⟩, .off⟩

/-- A machine that boots starts from its disk alone; `initlog` reads the header. -/
def boot (area : LogArea) (state : Machine) (pid : ℕ) : Except Fault Machine := do
  let (storage, lh) ← ({ state.storage with bcache := .binit } : Storage).readHead pid area.start
  pure ⟨storage, ⟨area.start, area.size, 0, false, lh⟩, .recovering (.install 0)⟩

def step (area : LogArea) (state : Machine) (label : PowerLabel) : Except Fault (Machine × Unit) :=
  match state.phase, label.call with
  | _, .crash => .ok ({ state with phase := .off }, ())
  | .off, .boot => do pure (← state.boot area label.pid, ())
  | .idle, .beginOp => do
    let log ← state.log.beginOp
    pure ({ state with log := log, phase := .running }, ())
  | .running, .update blockno data => do
    let (storage, log) ← state.storage.update label.pid state.log blockno data
    pure (⟨storage, log, .running⟩, ())
  | .running, .endOp => do
    let (log, doCommit) ← state.log.endOp
    pure ({ state with log := log, phase := if doCommit then .committing .start else .idle }, ())
  | .recovering pos, .goOn => do
    let storage ← pos.transfer state.storage label.pid state.log
    let (log, phase) := state.log.commitStep pos
    pure (⟨storage, log, phase.afterRecover⟩, ())
  | .committing pos, .goOn => do
    let storage ← pos.transfer state.storage label.pid state.log
    let (log, phase) := state.log.commitStep pos
    pure (⟨storage, log, phase.afterCommit⟩, ())
  | _, _ => .error .blocked

/-- All that a step can do. -/
inductive Steps (area : LogArea) (state : Machine) (pid : ℕ) : PowerCall → Machine → Prop
  | crash : Steps area state pid .crash { state with phase := .off }
  | boot {storage : Storage} {lh : LogHeader} (hphase : state.phase = .off)
      (hread : ({ state.storage with bcache := .binit } : Storage).readHead pid area.start =
        .ok (storage, lh)) :
      Steps area state pid .boot
        ⟨storage, ⟨area.start, area.size, 0, false, lh⟩, .recovering (.install 0)⟩
  | beginOp {log : Log} (hphase : state.phase = .idle) (hbegin : state.log.beginOp = .ok log) :
      Steps area state pid .beginOp { state with log := log, phase := .running }
  | update {blockno : ℕ} {data : Block} {storage : Storage} {log : Log}
      (hphase : state.phase = .running)
      (hupdate : state.storage.update pid state.log blockno data = .ok (storage, log)) :
      Steps area state pid (.update blockno data) ⟨storage, log, .running⟩
  | endOp {log : Log} {doCommit : Bool} (hphase : state.phase = .running)
      (hend : state.log.endOp = .ok (log, doCommit)) :
      Steps area state pid .endOp
        { state with log := log, phase := if doCommit then .committing .start else .idle }
  | recover {pos : CommitPos} {storage : Storage} (hphase : state.phase = .recovering pos)
      (htransfer : pos.transfer state.storage pid state.log = .ok storage) :
      Steps area state pid .goOn
        ⟨storage, (state.log.commitStep pos).1, (state.log.commitStep pos).2.afterRecover⟩
  | commit {pos : CommitPos} {storage : Storage} (hphase : state.phase = .committing pos)
      (htransfer : pos.transfer state.storage pid state.log = .ok storage) :
      Steps area state pid .goOn
        ⟨storage, (state.log.commitStep pos).1, (state.log.commitStep pos).2.afterCommit⟩

theorem step_cases {area : LogArea} {state next : Machine} {label : PowerLabel} {result : Unit}
    (h : state.step area label = .ok (next, result)) :
    state.Steps area label.pid label.call next := by
  obtain ⟨pid, call⟩ := label
  unfold step at h
  dsimp only at h ⊢
  split at h
  · cases h
    exact .crash
  · rename_i hphase
    obtain ⟨_, hboot, hpure⟩ := bind_eq_ok.mp h
    cases hpure
    obtain ⟨⟨storage, lh⟩, hread, hpure⟩ := bind_eq_ok.mp hboot
    cases hpure
    exact .boot hphase hread
  · rename_i hphase
    obtain ⟨log, hbegin, hpure⟩ := bind_eq_ok.mp h
    cases hpure
    exact .beginOp hphase hbegin
  · rename_i blockno data hphase
    obtain ⟨⟨storage, log⟩, hupdate, hpure⟩ := bind_eq_ok.mp h
    cases hpure
    exact .update hphase hupdate
  · rename_i hphase
    obtain ⟨⟨log, doCommit⟩, hend, hpure⟩ := bind_eq_ok.mp h
    cases hpure
    exact .endOp hphase hend
  · rename_i pos hphase
    obtain ⟨storage, htransfer, hpure⟩ := bind_eq_ok.mp h
    cases hpure
    exact .recover hphase htransfer
  · rename_i pos hphase
    obtain ⟨storage, htransfer, hpure⟩ := bind_eq_ok.mp h
    cases hpure
    exact .commit hphase htransfer
  · cases h

end Machine

namespace LogArea

variable (area : LogArea)

/-- The header on disk. -/
def header (disk : Disk) : LogHeader := ofBlock (disk area.start)

/-- The updates that a header stands for. -/
def entries (lh : LogHeader) (disk : Disk) : List (ℕ × Block) :=
  (List.range lh.n).map fun i ↦ (lh.block i, disk (area.start + i + 1))

/-- The disk after all that its header lists is installed. -/
def recovered (disk : Disk) : Disk := redo (area.entries (area.header disk) disk) disk

/-- The header lists home blocks, and the log has a block for each of them. -/
structure WellFormed (disk : Disk) : Prop where
  room : (area.header disk).n < area.size
  home : ∀ k ∈ (area.header disk).blocks, area.Home k

/-- The home blocks are those of the given disk once the log is installed. -/
structure Promises (disk goal : Disk) : Prop extends area.WellFormed disk where
  goal : ∀ k, area.Home k → area.recovered disk k = goal k

variable {area} {disk disk' goal : Disk} {lh : LogHeader}

theorem not_home {i : ℕ} (h : i < area.size) : ¬ area.Home (area.start + i) := by
  unfold Home
  omega

variable {k : ℕ}

theorem home_ne {i : ℕ} (hk : area.Home k) (h : i < area.size) : k ≠ area.start + i := by
  rintro rfl
  exact not_home h hk

theorem home_ne_start (hk : area.Home k) (h : 0 < area.size) : k ≠ area.start :=
  home_ne hk h

theorem keys_entries (lh : LogHeader) (disk : Disk) :
    (area.entries lh disk).map Prod.fst = lh.blocks := by
  simp [entries, blocks]

theorem entries_congr (hroom : lh.n < area.size)
    (h : ∀ k, ¬ area.Home k → disk' k = disk k) : area.entries lh disk' = area.entries lh disk := by
  refine List.map_congr_left fun i hi ↦ ?_
  have hlt : i + 1 < area.size := by
    have := List.mem_range.mp hi
    omega
  rw [Nat.add_assoc, h _ (not_home hlt)]

theorem entries_eq_of_lists {lh' : LogHeader} (h : lh'.Lists lh) :
    area.entries lh' disk = area.entries lh disk := by
  rw [entries, h.1]
  refine List.map_congr_left fun i hi ↦ ?_
  rw [h.2 i (List.mem_range.mp hi)]

theorem header_congr (h : disk' area.start = disk area.start) :
    area.header disk' = area.header disk := by
  rw [header, header, h]

theorem Promises.of_empty (hsize : 0 < area.size) (hempty : (area.header disk).n = 0)
    (hgoal : ∀ k, area.Home k → disk k = goal k) : area.Promises disk goal := by
  refine ⟨⟨by rw [hempty]; exact hsize, fun k hk ↦ ?_⟩, fun k hk ↦ ?_⟩
  · simp [blocks, hempty] at hk
  · rw [recovered, entries, hempty]
    exact hgoal k hk

theorem Promises.size_pos (h : area.Promises disk goal) : 0 < area.size :=
  lt_of_le_of_lt (Nat.zero_le _) h.room

theorem Promises.install (h : area.Promises disk goal) (value : Block)
    (hk : k ∈ (area.header disk).blocks) : area.Promises (update disk k value) goal := by
  have hhome := h.home k hk
  have hheader : area.header (update disk k value) = area.header disk :=
    header_congr (update_of_ne (home_ne_start hhome h.size_pos).symm _ _)
  have hentries : area.entries (area.header disk) (update disk k value) =
      area.entries (area.header disk) disk :=
    entries_congr h.room fun c hc ↦ update_of_ne (fun hsame : c = k ↦ hc (hsame ▸ hhome)) _ _
  refine ⟨⟨by rw [hheader]; exact h.room, by rw [hheader]; exact h.home⟩, fun other hother ↦ ?_⟩
  rw [← h.goal other hother, recovered, recovered, hheader, hentries,
    redo_update disk value (by rw [keys_entries]; exact hk)]

end LogArea

section Phases

variable (area : LogArea) (view disk goal : Disk) (lh : LogHeader)

/-- A transaction that is not yet committed: the cache shows its updates, the disk does not. -/
structure Collected (updates : List (ℕ × Block)) : Prop where
  empty : (area.header disk).n = 0
  count : lh.n ≤ logSize ∧ lh.n < area.size
  home : ∀ k ∈ lh.blocks, area.Home k ∧ k < Word.size
  met : ∀ k, area.Home k → disk k = goal k
  shown : ∀ k, area.Home k → view k = redo updates disk k
  dirty : ∀ k, view k ≠ disk k → k ∈ lh.blocks

/-- The first blocks of the log hold the first blocks of the transaction. -/
def Copied (tail : ℕ) : Prop :=
  ∀ i < tail, i < lh.n → disk (area.start + i + 1) = view (lh.block i)

/-- A committed transaction of which the first blocks are installed. -/
structure Installing (tail : ℕ) : Prop where
  header : (area.header disk).Lists lh
  met : ∀ k, area.Home k → redo ((area.entries lh disk).drop tail) disk k = goal k
  dirty : ∀ k, view k ≠ disk k → k ∈ lh.blocks.drop tail

/-- All transactions are installed. -/
structure Installed : Prop where
  shown : view = disk
  met : ∀ k, area.Home k → disk k = goal k

/-- What holds at each point of `commit` and `recover_from_log`. -/
def CommitPos.Inv (updates : List (ℕ × Block)) : CommitPos → Prop
  | .start => Collected area view disk goal lh updates
  | .writeLog tail => Collected area view disk goal lh updates ∧ Copied area view disk lh tail
  | .writeHead => Collected area view disk goal lh updates ∧ Copied area view disk lh lh.n
  | .install tail => Installing area view disk goal lh tail
  | .clear => Installed area view disk goal
  | .erase => Installed area view disk goal ∧ lh.n = 0
  | .finished => Installed area view disk goal ∧ lh.n = 0 ∧ (area.header disk).n = 0

/-- The points that `recover_from_log` goes through. -/
def CommitPos.inRecovery : CommitPos → Bool
  | .install _ | .clear | .erase => true
  | .start | .writeLog _ | .writeHead | .finished => false

/-- What holds in each phase of the machine. -/
def PowerPhase.Inv (updates : List (ℕ × Block)) : PowerPhase → Prop
  | .off => True
  | .recovering pos => pos.inRecovery = true ∧ pos.Inv area view disk goal lh updates
  | .idle => CommitPos.finished.Inv area view disk goal lh updates
  | .running => CommitPos.start.Inv area view disk goal lh updates
  | .committing pos => pos.Inv area view disk goal lh updates

end Phases

section PhaseSteps

variable {area : LogArea} {view disk goal : Disk} {lh : LogHeader} {updates : List (ℕ × Block)}

namespace Collected

section

variable (h : Collected area view disk goal lh updates)

include h

theorem copy {tail : ℕ} (hcopied : Copied area view disk lh tail) (htail : tail < lh.n) :
    Collected area (update view (area.start + tail + 1) (view (lh.block tail)))
        (update disk (area.start + tail + 1) (view (lh.block tail))) goal lh updates ∧
      Copied area (update view (area.start + tail + 1) (view (lh.block tail)))
        (update disk (area.start + tail + 1) (view (lh.block tail))) lh (tail + 1) := by
  have hne (k : ℕ) (hk : area.Home k) : k ≠ area.start + tail + 1 := by
    rw [Nat.add_assoc]
    exact LogArea.home_ne hk (by have := h.count.2; omega)
  refine ⟨⟨?_, h.count, h.home, fun k hk ↦ ?_, fun k hk ↦ ?_, fun k hk ↦ ?_⟩, fun i hi hin ↦ ?_⟩
  · rw [LogArea.header_congr (update_of_ne (by omega) _ _)]
    exact h.empty
  · rw [update_of_ne (hne k hk)]
    exact h.met k hk
  · rw [update_of_ne (hne k hk), h.shown k hk]
    exact redo_congr updates (update_of_ne (hne k hk) _ _).symm
  · by_cases hsame : k = area.start + tail + 1
    · simp [hsame] at hk
    · rw [update_of_ne hsame, update_of_ne hsame] at hk
      exact h.dirty k hk
  · rw [update_of_ne (hne _ (h.home _ (mem_blocks.mpr ⟨i, hin, rfl⟩)).1)]
    rcases Nat.lt_succ_iff_lt_or_eq.mp hi with hlt | rfl
    · rw [update_of_ne (by omega)]
      exact hcopied i hlt hin
    · rw [update_self]

theorem promises : area.Promises disk goal :=
  .of_empty (lt_of_le_of_lt (Nat.zero_le _) h.count.2) h.empty h.met

theorem commit {block : Block} (hcopied : Copied area view disk lh lh.n)
    (hblock : (ofBlock block).Lists lh) :
    area.Promises (update disk area.start block) (redo updates goal) ∧
      Installing area (update view area.start block)
        (update disk area.start block) (redo updates goal) lh 0 := by
  have hheader : area.header (update disk area.start block) = .ofBlock block := by
    rw [LogArea.header, update_self]
  have hsize : 0 < area.size := h.promises.size_pos
  have hentries : area.entries lh (update disk area.start block) =
      lh.blocks.map fun k ↦ (k, view k) := by
    rw [LogArea.entries, blocks, List.map_map]
    refine List.map_congr_left fun i hi ↦ ?_
    rw [update_of_ne (by omega), hcopied i (List.mem_range.mp hi) (List.mem_range.mp hi)]
    rfl
  have hgoal (k : ℕ) (hk : area.Home k) : redo (area.entries lh (update disk area.start block))
        (update disk area.start block) k = redo updates goal k := by
    rw [hentries, redo_map_pair, ← redo_congr updates (h.met k hk), ← h.shown k hk,
      update_of_ne (LogArea.home_ne_start hk hsize)]
    split
    · rfl
    · rename_i hnot
      exact (not_not.mp fun hne ↦ hnot (h.dirty k hne)).symm
  refine ⟨⟨⟨?_, ?_⟩, fun k hk ↦ ?_⟩, ?_, ?_, fun k hk ↦ ?_⟩
  · rw [hheader, hblock.1]
    exact h.count.2
  · rw [hheader, hblock.blocks_eq]
    exact fun k hk ↦ (h.home k hk).1
  · rw [LogArea.recovered, hheader, LogArea.entries_eq_of_lists hblock]
    exact hgoal k hk
  · rw [hheader]
    exact hblock
  · rw [List.drop_zero]
    exact hgoal
  · by_cases hsame : k = area.start
    · simp [hsame] at hk
    · rw [update_of_ne hsame, update_of_ne hsame] at hk
      exact h.dirty k hk

end

end Collected

namespace Installing

variable {tail : ℕ}

variable (h : Installing area view disk goal lh tail) (hpromises : area.Promises disk goal)

include h hpromises

theorem room : lh.n < area.size := by
  rw [← h.header.1]
  exact hpromises.room

theorem home {k : ℕ} (hk : k ∈ lh.blocks) : area.Home k := by
  rw [← h.header.blocks_eq] at hk
  exact hpromises.home k hk

theorem next (htail : tail < lh.n) :
    area.Promises (update disk (lh.block tail) (view (area.start + tail + 1))) goal ∧
      Installing area (update view (lh.block tail) (view (area.start + tail + 1)))
        (update disk (lh.block tail) (view (area.start + tail + 1))) goal lh (tail + 1) := by
  have hmem := mem_blocks.mpr ⟨tail, htail, rfl⟩
  have hhome := h.home hpromises hmem
  have hroom := h.room hpromises
  -- The cache shows the blocks of the log as they are on disk.
  have hlog : view (area.start + tail + 1) = disk (area.start + tail + 1) := by
    by_contra hne
    have hdrop := List.mem_of_mem_drop (h.dirty _ hne)
    rw [Nat.add_assoc] at hdrop
    exact LogArea.not_home (by omega) (h.home hpromises hdrop)
  have hentries : area.entries lh (update disk (lh.block tail) (view (area.start + tail + 1)))
      = area.entries lh disk :=
    LogArea.entries_congr hroom fun c hc ↦
      update_of_ne (fun hsame : c = lh.block tail ↦ hc (hsame ▸ hhome)) _ _
  refine ⟨hpromises.install _ (h.header.blocks_eq ▸ hmem), ?_, fun k hk ↦ ?_, fun k hk ↦ ?_⟩
  · rw [LogArea.header_congr
      (update_of_ne (LogArea.home_ne_start hhome hpromises.size_pos).symm _ _)]
    exact h.header
  · have hlength : tail < (area.entries lh disk).length := by simpa [LogArea.entries] using htail
    have hmet := h.met k hk
    rw [List.drop_eq_getElem_cons hlength, redo_cons] at hmet
    rw [hentries, ← hmet, hlog]
    simp [LogArea.entries]
  · by_cases hsame : k = lh.block tail
    · simp [hsame] at hk
    · rw [update_of_ne hsame, update_of_ne hsame] at hk
      have hlength : tail < lh.blocks.length := by simpa using htail
      have hdrop := h.dirty k hk
      rw [List.drop_eq_getElem_cons hlength] at hdrop
      refine (List.mem_cons.mp hdrop).resolve_left fun hhead ↦ hsame ?_
      rw [hhead]
      simp [blocks]

omit h hpromises

theorem done (h : Installing area view disk goal lh tail) (htail : lh.n ≤ tail) :
    Installed area view disk goal := by
  refine ⟨funext fun k ↦ ?_, fun k hk ↦ ?_⟩
  · by_contra hne
    have hdrop := h.dirty k hne
    rw [List.drop_of_length_le (by simpa using htail)] at hdrop
    cases hdrop
  · rw [← h.met k hk, List.drop_of_length_le (by simpa [LogArea.entries] using htail), redo_nil]

end Installing

theorem Installed.erase {block : Block} (h : Installed area view disk goal)
    (hsize : 0 < area.size) (hblock : (ofBlock block).n = 0) :
    Installed area (update view area.start block) (update disk area.start block)
        goal ∧ (area.header (update disk area.start block)).n = 0 := by
  refine ⟨⟨by rw [h.shown], fun k hk ↦ ?_⟩, by rw [LogArea.header, update_self, hblock]⟩
  rw [update_of_ne (LogArea.home_ne_start hk hsize)]
  exact h.met k hk

end PhaseSteps

/-- The updates logged by the current transaction, and those of the committed ones. -/
structure PowerHistory where
  current : List (ℕ × Block)
  committed : List (List (ℕ × Block))

namespace PowerHistory

def empty : PowerHistory := ⟨[], []⟩

/-- What a step of `commit` adds: the first `write_head` commits the transaction. -/
def commitNote (history : PowerHistory) : CommitPos → PowerHistory
  | .writeHead => { history with committed := history.committed ++ [history.current] }
  | .start | .writeLog _ | .install _ | .clear | .erase | .finished => history

def note (history : PowerHistory) (state : Machine) (label : PowerLabel) (_ : Machine) (_ : Unit) :
    PowerHistory :=
  match state.phase, label.call with
  | .idle, .beginOp => { history with current := [] }
  | .running, .update blockno data =>
    { history with current := history.current ++ [(blockno, data)] }
  | .committing pos, .goOn => history.commitNote pos
  | _, _ => history

/-- What the committed transactions make of a disk, in the order in which they were committed. -/
def goal (history : PowerHistory) (base : Disk) : Disk := redo history.committed.flatten base

end PowerHistory

/-- What holds where `commit` or `recover_from_log` goes on. -/
def OpPhase.Resumes (area : LogArea) (view disk goal : Disk) (lh : LogHeader)
    (updates : List (ℕ × Block)) : OpPhase → Prop
  | .inCommit pos => pos.Inv area view disk goal lh updates
  | .outside => CommitPos.finished.Inv area view disk goal lh updates
  | .running _ | .checked _ _ => False

/-- A step of `commit` or `recover_from_log` keeps what the disk promises and goes on as it should. -/
theorem CommitPos.Inv.step {area : LogArea} {view base : Disk} {pos : CommitPos}
    {storage storage' : Storage} {log : Log} {pid : ℕ} {history : PowerHistory}
    (hinv : pos.Inv area view storage.disk (history.goal base) log.lh history.current)
    (hstart : log.start = area.start) (hshows : storage.Shows [] view)
    (hpromises : area.Promises storage.disk (history.goal base))
    (htransfer : pos.transfer storage pid log = .ok storage') :
    area.Promises storage'.disk ((history.commitNote pos).goal base) ∧
      ∃ view', storage'.Shows [] view' ∧ (log.commitStep pos).2.Resumes area view' storage'.disk
        ((history.commitNote pos).goal base) (log.commitStep pos).1.lh
        (history.commitNote pos).current := by
  cases pos with
  | start =>
    cases htransfer
    refine ⟨hpromises, view, hshows, ?_⟩
    dsimp only [Log.commitStep]
    split
    · exact ⟨hinv, fun _ hi ↦ absurd hi (Nat.not_lt_zero _)⟩
    · rename_i hn
      have hzero : log.lh.n = 0 := Nat.eq_zero_of_not_pos hn
      refine ⟨⟨funext fun k ↦ ?_, hinv.met⟩, hzero, hinv.empty⟩
      by_contra hne
      have hmem := hinv.dirty k hne
      simp [blocks, hzero] at hmem
  | writeLog tail =>
    obtain ⟨hcollected, hcopied⟩ := hinv
    rw [transfer] at htransfer
    rw [Log.commitStep]
    split at htransfer
    · rename_i htail
      rw [if_pos htail]
      obtain ⟨hshows', hdisk⟩ := hshows.writeLog htransfer
      rw [hdisk, hstart]
      rw [hstart] at hshows'
      obtain ⟨hcollected', hcopied'⟩ := hcollected.copy hcopied htail
      exact ⟨hcollected'.promises, _, hshows', hcollected', hcopied'⟩
    · rename_i htail
      cases htransfer
      rw [if_neg htail]
      exact ⟨hpromises, view, hshows, hcollected,
        fun i hi hin ↦ hcopied i (lt_of_lt_of_le hi (not_lt.mp htail)) hin⟩
  | writeHead =>
    obtain ⟨hcollected, hcopied⟩ := hinv
    obtain ⟨hshows', hdisk⟩ := hshows.writeHead htransfer
    rw [hdisk, hstart]
    rw [hstart] at hshows'
    have hgoal : (history.commitNote .writeHead).goal base =
        redo history.current (history.goal base) := by
      simp [PowerHistory.goal, PowerHistory.commitNote, redo_append]
    rw [hgoal]
    obtain ⟨hpromises', hinstalling⟩ := hcollected.commit hcopied
      (ofBlock_store (view area.start) hcollected.count.1 fun i hi ↦
        (hcollected.home _ (mem_blocks.mpr ⟨i, hi, rfl⟩)).2)
    exact ⟨hpromises', _, hshows', hinstalling⟩
  | install tail =>
    rw [transfer] at htransfer
    rw [Log.commitStep]
    split at htransfer
    · rename_i htail
      rw [if_pos htail]
      obtain ⟨hshows', hdisk⟩ := hshows.installTrans htransfer
      rw [hdisk, hstart]
      rw [hstart] at hshows'
      obtain ⟨hpromises', hinstalling⟩ := Installing.next hinv hpromises htail
      exact ⟨hpromises', _, hshows', hinstalling⟩
    · rename_i htail
      cases htransfer
      rw [if_neg htail]
      exact ⟨hpromises, view, hshows, Installing.done hinv (not_lt.mp htail)⟩
  | clear =>
    cases htransfer
    exact ⟨hpromises, view, hshows, hinv, rfl⟩
  | erase =>
    obtain ⟨hinstalled, hn⟩ := hinv
    obtain ⟨hshows', hdisk⟩ := hshows.writeHead htransfer
    rw [hdisk, hstart]
    rw [hstart] at hshows'
    have hempty : (ofBlock (log.lh.store (view area.start))).n = 0 := by
      rw [(ofBlock_store (view area.start) (by omega) (by omega)).1, hn]
    obtain ⟨hinstalled', hheader⟩ := hinstalled.erase hpromises.size_pos hempty
    exact ⟨.of_empty hpromises.size_pos hheader hinstalled'.met, _, hshows', hinstalled', hn,
      hheader⟩
  | finished =>
    cases htransfer
    exact ⟨hpromises, view, hshows, hinv⟩

/-- The invariant of the machine. -/
structure Machine.Sound (area : LogArea) (base : Disk) (state : Machine) (history : PowerHistory) :
    Prop where
  promises : area.Promises state.storage.disk (history.goal base)
  log : state.phase ≠ .off → state.log.start = area.start ∧ state.log.size = area.size ∧
    state.log.outstanding = if state.phase = .running then 1 else 0
  phase : state.phase ≠ .off → ∃ view, state.storage.Shows [] view ∧
    state.phase.Inv area view state.storage.disk (history.goal base) state.log.lh history.current

variable {area : LogArea}

theorem Machine.Sound.on {base : Disk} {state : Machine} {history : PowerHistory}
    {phase : PowerPhase} (h : state.Sound area base history) (hphase : state.phase = phase)
    (hon : phase ≠ .off) :
    (state.log.start = area.start ∧ state.log.size = area.size ∧
      state.log.outstanding = if phase = .running then 1 else 0) ∧
    ∃ view, state.storage.Shows [] view ∧
      phase.Inv area view state.storage.disk (history.goal base) state.log.lh history.current := by
  subst hphase
  exact ⟨h.log hon, h.phase hon⟩

theorem Log.commitStep_same (log : Log) (pos : CommitPos) :
    (log.commitStep pos).1.start = log.start ∧ (log.commitStep pos).1.size = log.size ∧
      (log.commitStep pos).1.outstanding = log.outstanding := by
  cases pos <;> simp [Log.commitStep]

theorem CommitPos.afterRecover_inv {view disk goal : Disk} {log : Log}
    {updates : List (ℕ × Block)} {pos : CommitPos} (hrecovery : pos.inRecovery = true)
    (h : (log.commitStep pos).2.Resumes area view disk goal (log.commitStep pos).1.lh updates) :
    (log.commitStep pos).2.afterRecover.Inv area view disk goal (log.commitStep pos).1.lh updates ∧
      (log.commitStep pos).2.afterRecover ≠ .running := by
  cases pos with
  | start | writeLog | writeHead | finished => cases hrecovery
  | install tail =>
    rw [Log.commitStep] at h ⊢
    by_cases htail : tail < log.lh.n
    · rw [if_pos htail] at h ⊢
      exact ⟨⟨rfl, h⟩, by simp [OpPhase.afterRecover]⟩
    · rw [if_neg htail] at h ⊢
      exact ⟨⟨rfl, h⟩, by simp [OpPhase.afterRecover]⟩
  | clear => exact ⟨⟨rfl, h⟩, by simp [Log.commitStep, OpPhase.afterRecover]⟩
  | erase => exact ⟨h, by simp [Log.commitStep, OpPhase.afterRecover]⟩

theorem CommitPos.afterCommit_inv {view disk goal : Disk} {lh : LogHeader}
    {updates : List (ℕ × Block)} {phase : OpPhase}
    (h : phase.Resumes area view disk goal lh updates) :
    phase.afterCommit.Inv area view disk goal lh updates ∧ phase.afterCommit ≠ .running := by
  cases phase with
  | outside => exact ⟨h, by simp [OpPhase.afterCommit]⟩
  | running | checked => exact absurd h id
  | inCommit pos => exact ⟨h, by simp [OpPhase.afterCommit]⟩

theorem Collected.update {area : LogArea} {view disk goal : Disk} {log log' : Log} {k : ℕ}
    {updates : List (ℕ × Block)} (h : Collected area view disk goal log.lh updates)
    (hsize : log.size = area.size) (hhome : area.Home k) (hk : k < Word.size) (data : Block)
    (hcheck : log.logWriteCheck = .ok ()) (hlocked : log.logWriteLocked k = .ok log') :
    Collected area (update view k data) disk goal log'.lh (updates ++ [(k, data)]) ∧
      log' = { log with lh := log'.lh } := by
  obtain ⟨lh, habsorb, hpure⟩ := bind_eq_ok.mp hlocked
  cases hpure
  obtain ⟨hmem, hgrow⟩ := blocks_subset_of_absorb habsorb
  have hroom : log.lh.n < logSize ∧ log.lh.n + 1 < area.size := by
    unfold Log.logWriteCheck at hcheck
    split_ifs at hcheck with hbig
    rw [hsize] at hbig
    omega
  refine ⟨⟨h.empty, ?_, fun c hc ↦ ?_, h.met, fun c hc ↦ ?_, fun c hc ↦ ?_⟩, rfl⟩
  · rcases absorb_cases habsorb with ⟨-, rfl⟩ | ⟨-, hn, -⟩
    · exact h.count
    · dsimp only
      omega
  · rcases absorb_cases habsorb with ⟨-, rfl⟩ | ⟨-, -, hblocks⟩
    · exact h.home c hc
    · rw [hblocks, List.mem_append, List.mem_singleton] at hc
      rcases hc with hold | rfl
      · exact h.home c hold
      · exact ⟨hhome, hk⟩
  · rw [redo_append, redo_cons, redo_nil]
    by_cases hck : c = k
    · rw [hck, update_self, update_self]
    · rw [update_of_ne hck, update_of_ne hck, h.shown c hc]
  · by_cases hck : c = k
    · rw [hck]
      exact hmem
    · rw [update_of_ne hck] at hc
      exact hgrow (h.dirty c hc)

/-- The updates are of home blocks, whose numbers are words. -/
def LogArea.Permits (area : LogArea) (label : PowerLabel) : Prop :=
  match label.call with
  | .update blockno _ => area.Home blockno ∧ blockno < Word.size
  | .boot | .beginOp | .endOp | .goOn | .crash => True

instance (area : LogArea) (label : PowerLabel) : Decidable (area.Permits label) := by
  unfold LogArea.Permits
  split <;> infer_instance

theorem Machine.Steps.sound {base : Disk} {state next : Machine} {pid : ℕ}
    {call : PowerCall} {history : PowerHistory} (hstep : state.Steps area pid call next)
    (h : state.Sound area base history) (hpermits : area.Permits ⟨pid, call⟩) :
    next.Sound area base (history.note state ⟨pid, call⟩ next ()) := by
  cases hstep with
  | crash =>
    have hnote : history.note state ⟨pid, .crash⟩ { state with phase := .off } () = history := by
      rw [PowerHistory.note]
      cases state.phase <;> rfl
    rw [hnote]
    exact ⟨h.promises, fun hon ↦ absurd rfl hon, fun hon ↦ absurd rfl hon⟩
  | boot hphase hread =>
    obtain ⟨hshows, hdisk, rfl, -⟩ := (Storage.Shows.binit state.storage.disk
      state.storage.disksize).readHead hread
    rw [PowerHistory.note, hphase]
    refine ⟨hdisk ▸ h.promises, fun _ ↦ ⟨rfl, rfl, by simp⟩, fun _ ↦ ⟨_, hshows, rfl, ?_⟩⟩
    rw [hdisk]
    exact ⟨⟨rfl, fun _ _ ↦ rfl⟩, h.promises.goal, fun k hne ↦ absurd rfl hne⟩
  | @beginOp log hphase hbegin =>
    obtain ⟨⟨hstart, hsize, houtstanding⟩, view, hshows, hinv⟩ := h.on hphase (by simp)
    obtain ⟨hinstalled, hn, hempty⟩ := hinv
    obtain rfl : log = { state.log with outstanding := state.log.outstanding + 1 } := by
      unfold Log.beginOp at hbegin
      split_ifs at hbegin
      exact (Except.ok.inj hbegin).symm
    rw [PowerHistory.note, hphase]
    refine ⟨h.promises, fun _ ↦ ⟨hstart, hsize, ?_⟩, fun _ ↦ ⟨view, hshows, ?_⟩⟩
    · simp [houtstanding]
    · refine ⟨hempty, ⟨by dsimp only; omega, ?_⟩, fun k hk ↦ ?_, hinstalled.met, fun k _ ↦ ?_,
        fun k hne ↦ absurd (by rw [hinstalled.shown]) hne⟩
      · dsimp only
        rw [hn]
        exact h.promises.size_pos
      · simp [blocks, hn] at hk
      · rw [hinstalled.shown, redo_nil]
  | @update blockno data storage log hphase hupdate =>
    obtain ⟨⟨hstart, hsize, houtstanding⟩, view, hshows, hinv⟩ := h.on hphase (by simp)
    obtain ⟨hshows', hdisk, hcheck, hlocked⟩ := hshows.update hupdate
    obtain ⟨hcollected, hlog⟩ :=
      Collected.update hinv hsize hpermits.1 hpermits.2 data hcheck hlocked
    rw [PowerHistory.note, hphase]
    refine ⟨hdisk ▸ h.promises, fun _ ↦ ?_, fun _ ↦ ⟨_, hshows', ?_⟩⟩
    · rw [hlog]
      exact ⟨hstart, hsize, houtstanding⟩
    · rw [hdisk]
      exact hcollected
  | @endOp log doCommit hphase hend =>
    obtain ⟨⟨hstart, hsize, houtstanding⟩, view, hshows, hinv⟩ := h.on hphase (by simp)
    rw [if_pos rfl] at houtstanding
    unfold Log.endOp at hend
    rw [houtstanding] at hend
    split_ifs at hend
    · cases hend
      rw [PowerHistory.note, hphase]
      exact ⟨h.promises, fun _ ↦ ⟨hstart, hsize, by simp⟩, fun _ ↦ ⟨view, hshows, hinv⟩⟩
    · rename_i hmore
      exact absurd (by norm_num) hmore
  | @recover pos storage hphase htransfer =>
    obtain ⟨⟨hstart, hsize, houtstanding⟩, view, hshows, hinv⟩ := h.on hphase (by simp)
    obtain ⟨hpromises, view', hshows', hresumes⟩ :=
      hinv.2.step hstart hshows h.promises htransfer
    have hsame : history.commitNote pos = history := by
      cases pos with
      | writeHead => cases hinv.1
      | start | writeLog | install | clear | erase | finished => rfl
    rw [hsame] at hpromises hresumes
    obtain ⟨hnext, hnot⟩ := CommitPos.afterRecover_inv hinv.1 hresumes
    obtain ⟨hstart', hsize', houtstanding'⟩ := state.log.commitStep_same pos
    rw [PowerHistory.note, hphase]
    refine ⟨hpromises, fun _ ↦ ⟨hstart'.trans hstart, hsize'.trans hsize, ?_⟩,
      fun _ ↦ ⟨view', hshows', hnext⟩⟩
    rw [if_neg hnot, houtstanding', houtstanding, if_neg (by simp)]
  | @commit pos storage hphase htransfer =>
    obtain ⟨⟨hstart, hsize, houtstanding⟩, view, hshows, hinv⟩ := h.on hphase (by simp)
    obtain ⟨hpromises, view', hshows', hresumes⟩ :=
      CommitPos.Inv.step hinv hstart hshows h.promises htransfer
    obtain ⟨hnext, hnot⟩ := CommitPos.afterCommit_inv hresumes
    obtain ⟨hstart', hsize', houtstanding'⟩ := state.log.commitStep_same pos
    rw [PowerHistory.note, hphase]
    refine ⟨hpromises, fun _ ↦ ⟨hstart'.trans hstart, hsize'.trans hsize, ?_⟩,
      fun _ ↦ ⟨view', hshows', hnext⟩⟩
    rw [if_neg hnot, houtstanding', houtstanding, if_neg (by simp)]

/-- Whenever the log is recovered, and whenever no transaction is under way after that, the home
blocks are those of the first disk with the committed transactions applied in order. -/
theorem crash_atomic {area : LogArea} {disk : Disk} {disksize : ℕ} {state : Machine}
    {history : PowerHistory} (hdisk : area.WellFormed disk)
    (hrun : Runs (observe (Machine.step area) PowerHistory.note) (fun _ label ↦ area.Permits label)
      (Machine.start disk disksize, .empty) (state, history))
    (hidle : state.phase = .idle) {blockno : ℕ} (hhome : area.Home blockno) :
    state.storage.disk blockno = redo history.committed.flatten (area.recovered disk) blockno := by
  have hsound :=
    hrun.invariant (fun observed ↦ observed.1.Sound area (area.recovered disk) observed.2)
      ⟨⟨hdisk, fun _ _ ↦ rfl⟩, fun hon ↦ absurd rfl hon, fun hon ↦ absurd rfl hon⟩
      fun observed label next _ hsound hpermits hok ↦ by
        obtain ⟨hstep, hnote⟩ := observe_eq_ok.mp hok
        rw [hnote]
        exact (Machine.step_cases hstep).sound hsound hpermits
  obtain ⟨-, view, -, hinv⟩ := hsound.on hidle (by simp)
  exact hinv.1.met blockno hhome

/-- A transaction is committed, the machine crashes before it is installed and again while it is
recovered; a last recovery installs it. -/
theorem crash_atomic_twice : ∃ state history, Runs (observe (Machine.step ⟨2, 4⟩) PowerHistory.note)
      (fun _ label ↦ (LogArea.mk 2 4).Permits label)
      (Machine.start (fun _ ↦ Block.zero) 20, .empty) (state, history) ∧
    state.phase = .idle ∧ history.committed.map (List.map Prod.fst) = [[10, 11, 10]] ∧
    state.storage.disk 11 =
      redo history.committed.flatten ((LogArea.mk 2 4).recovered fun _ ↦ Block.zero) 11 := by
  obtain ⟨state, history, hrun, hidle, hcommitted⟩ : ∃ state history,
      Runs (observe (Machine.step ⟨2, 4⟩) PowerHistory.note)
        (fun _ label ↦ (LogArea.mk 2 4).Permits label)
        (Machine.start (fun _ ↦ Block.zero) 20, .empty) (state, history) ∧
      state.phase = .idle ∧ history.committed.map (List.map Prod.fst) = [[10, 11, 10]] := by
    apply Runs.of_labels_observed ([⟨1, .boot⟩] ++ List.replicate 3 ⟨1, .goOn⟩ ++
      [⟨2, .beginOp⟩, ⟨2, .update 10 fun _ ↦ 1⟩, ⟨2, .update 11 fun _ ↦ 2⟩,
        ⟨2, .update 10 fun _ ↦ 3⟩, ⟨2, .endOp⟩] ++ List.replicate 5 ⟨2, .goOn⟩ ++
      [⟨2, .crash⟩, ⟨1, .boot⟩, ⟨1, .goOn⟩, ⟨1, .crash⟩, ⟨1, .boot⟩] ++
      List.replicate 5 ⟨1, .goOn⟩)
    decide +kernel
  have hdisk : (LogArea.mk 2 4).WellFormed fun _ ↦ Block.zero := by
    refine ⟨by decide, fun k hk ↦ ?_⟩
    rw [show ((LogArea.mk 2 4).header fun _ ↦ Block.zero).blocks = [] by decide] at hk
    cases hk
  exact ⟨state, history, hrun, hidle, hcommitted, crash_atomic hdisk hrun hidle (by decide)⟩

end Xv6Shm
