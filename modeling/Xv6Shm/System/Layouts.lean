import Xv6Shm.System.Counts
import Xv6Shm.System.Inheritance

/-!
# What fork and exec count

Both calls walk over the attachment array and count the segment of a slot unless the nearest earlier
slot that counts has the same identifier. For `fork` a slot counts if it records an identifier, for
`exec` if it is attached. So a call counts the places where such a run of slots starts.
-/

namespace Xv6Shm

open Fallible ShmPgTable

variable {count np kstack : ℕ} {pgdir : Pgdir}

section Layout

variable (counts : AttachedShmsegs → Bool) (shmsegs : ℕ → AttachedShmsegs)

/-- The identifier in the nearest slot before slot `i` that counts, and -2 if there is none. -/
def lastCounted : ℕ → ℤ
  | 0 => -2
  | i + 1 => if counts (shmsegs i) then (shmsegs i).shmid else lastCounted i

/-- A slot counts, and the nearest earlier one that counts has another identifier. -/
def startsRun (i : ℕ) : Bool :=
  counts (shmsegs i) && (shmsegs i).shmid != lastCounted counts shmsegs i

/-- The slots where a run starts. -/
def runStarts : List ℕ := (List.range shmMaxSeg).filter (startsRun counts shmsegs)

end Layout

/-- A slot that records an identifier, attached or not. -/
def AttachedShmsegs.isRecorded (entry : AttachedShmsegs) : Bool := entry.shmid != -1

/-- The identifier is that of slot `s`, or of an earlier slot whose pages reach slot `s`. -/
def ShmPgTable.covers (table : ShmPgTable) (s : ℕ) (shmid : ℤ) : Bool :=
  decide (shmid ≤ s ∧ s < shmid.toNat + table.pagesAt shmid.toNat)

/-- The runs of a layout that belong to slot `s` of the table. -/
def runsOf (counts : AttachedShmsegs → Bool) (shmsegs : ℕ → AttachedShmsegs) (table : ShmPgTable)
    (s : ℕ) : ℕ :=
  (runStarts counts shmsegs).countP fun i ↦ table.covers s (shmsegs i).shmid

/-- The runs a child is counted for; the first two processes leave nothing to their children. -/
def Kernel.inheritedRuns (kernel : Kernel) (p s : ℕ) : ℕ :=
  if (kernel.proc p).pid > 2 then
    runsOf AttachedShmsegs.isRecorded (kernel.proc p).shmsegs kernel.shmpgtable s
  else 0

/-- The runs of attached slots. -/
def Kernel.attachedRuns (kernel : Kernel) (p s : ℕ) : ℕ :=
  runsOf AttachedShmsegs.isAttached (kernel.proc p).shmsegs kernel.shmpgtable s

section Runs

variable {counts : AttachedShmsegs → Bool} {shmsegs : ℕ → AttachedShmsegs} {table : ShmPgTable}
  {s : ℕ}

/-- The traversal from slot `i` on meets the places where a run starts. -/
theorem runHeads_eq_map {remaining i : ℕ} :
    runHeads counts shmsegs remaining i (lastCounted counts shmsegs i) = ((List.range' i
      remaining).filter (startsRun counts shmsegs)).map fun j ↦ (shmsegs j).shmid := by
  induction remaining generalizing i with
  | zero => rfl
  | succ remaining ih =>
    rw [runHeads, List.range'_succ, List.filter_cons]
    have hnext : lastCounted counts shmsegs (i + 1) =
        if counts (shmsegs i) then (shmsegs i).shmid else lastCounted counts shmsegs i := rfl
    by_cases hstart : counts (shmsegs i) = true ∧ (shmsegs i).shmid ≠ lastCounted counts shmsegs i
    · have hbool : startsRun counts shmsegs i = true := by
        simpa [startsRun] using hstart
      rw [if_pos hstart, if_pos hbool, List.map_cons, ← ih, hnext, if_pos hstart.1]
    · have hbool : ¬ startsRun counts shmsegs i = true := by
        simpa [startsRun] using hstart
      -- a slot that counts and starts no run has the identifier of the open one
      have hsame : lastCounted counts shmsegs (i + 1) = lastCounted counts shmsegs i := by
        rw [hnext]
        split
        · rename_i hcounts
          by_contra hother
          exact hstart ⟨hcounts, hother⟩
        · rfl
      rw [if_neg hstart, if_neg hbool, ← ih, hsame]

theorem countP_runHeads : (runHeads counts shmsegs shmMaxSeg 0 (-2)).countP (table.covers s) =
      runsOf counts shmsegs table s := by
  have hall := @runHeads_eq_map counts shmsegs shmMaxSeg 0
  rw [lastCounted] at hall
  rw [hall, List.countP_map, runsOf, runStarts, List.range_eq_range']
  rfl

theorem runsOf_le : runsOf counts shmsegs table s ≤ shmMaxSeg := by
  calc runsOf counts shmsegs table s ≤ (runStarts counts shmsegs).length := List.countP_le_length
    _ ≤ (List.range shmMaxSeg).length := List.length_filter_le _ _
    _ = shmMaxSeg := List.length_range

theorem runHeads_congr {shmsegs' : ℕ → AttachedShmsegs} : ∀ {remaining i : ℕ} {lastShmid : ℤ},
    (∀ j, i ≤ j → j < i + remaining → shmsegs' j = shmsegs j) →
    runHeads counts shmsegs' remaining i lastShmid = runHeads counts shmsegs remaining i lastShmid := by
  intro remaining
  induction remaining with
  | zero => exact fun _ ↦ rfl
  | succ remaining ih =>
    intro i lastShmid hsame
    have hrest (j : ℕ) (hij : i + 1 ≤ j) (hj : j < i + 1 + remaining) : shmsegs' j = shmsegs j :=
      hsame j (by omega) (by omega)
    rw [runHeads, runHeads, hsame i le_rfl (by omega), ih hrest, ih hrest]

/-- What a traversal does to the count of any slot, in any table. -/
theorem updateAll_covered {clock : Clock} {pid flag : ℤ} {shmids : List ℤ} {table next : ShmPgTable}
    (h : updateAll clock pid flag shmids table = .ok next) :
    (next.shmSegs s).shmNattch = (countStep flag)^[shmids.countP (table.covers s)] (table.shmSegs
      s).shmNattch ∧ ∀ i, next.pagesAt i = table.pagesAt i := by
  induction shmids generalizing table next with
  | nil =>
    cases h
    exact ⟨rfl, fun _ ↦ rfl⟩
  | cons shmid rest ih =>
    rw [updateAll] at h
    obtain ⟨middle, hfirst, hrest⟩ := bind_eq_ok.mp h
    obtain ⟨hcounted, hpages⟩ := ih hrest
    obtain ⟨t, rfl, -, -, -, rfl⟩ := updateShmSeg_eq_ok.mp hfirst
    have hkept (i : ℕ) : (table.onPages t (table.shmSegs t).pages
        (ShmidDs.updated clock pid flag)).pagesAt i = table.pagesAt i := by
      apply onPages_field _ ShmidDs.pages
      intro slot
      unfold ShmidDs.updated
      split <;> rfl
    have hcovers : (table.onPages t (table.shmSegs t).pages
        (ShmidDs.updated clock pid flag)).covers s = table.covers s := by
      funext shmid
      unfold covers
      rw [hkept]
    refine ⟨?_, fun i ↦ (hpages i).trans (hkept i)⟩
    rw [hcounted, hcovers, List.countP_cons]
    by_cases hin : t ≤ s ∧ s < t + table.pagesAt t
    · have hbool : table.covers s t = true := by
        unfold covers
        rw [decide_eq_true_eq, Int.toNat_natCast]
        exact ⟨Int.ofNat_le.mpr hin.1, hin.2⟩
      have hvalue (slot : ShmidDs) :
          (slot.updated clock pid flag).shmNattch = countStep flag slot.shmNattch := by
        unfold ShmidDs.updated countStep
        split <;> rfl
      have hend : s < t + (table.shmSegs t).pages := hin.2
      rw [if_pos hbool, Function.iterate_succ_apply, onPages_of_mem hin.1 hend, hvalue]
    · have hbool : ¬ table.covers s t = true := by
        unfold covers
        rw [decide_eq_true_eq, Int.toNat_natCast]
        omega
      have hout : s < t ∨ t + (table.shmSegs t).pages ≤ s := by
        unfold pagesAt at hin
        omega
      rw [if_neg hbool, Nat.add_zero, onPages_of_not_mem hout]

end Runs

theorem iterate_add_wraps (hword : count < Word.size) (times : ℕ) :
    (countStep 0)^[times] count = (count + times) % Word.size := by
  induction times with
  | zero => exact (Nat.mod_eq_of_lt hword).symm
  | succ times ih =>
    rw [Function.iterate_succ_apply', ih, countStep, if_pos rfl, Word.add, Nat.mod_add_mod,
      Nat.add_assoc]

theorem iterate_sub_wraps (hword : count < Word.size) {times : ℕ} (htimes : times ≤ shmMaxSeg) :
    (countStep 1)^[times] count = (count + (Word.size - times)) % Word.size := by
  induction times with
  | zero =>
    rw [Function.iterate_zero_apply, Nat.sub_zero, Nat.add_mod_right, Nat.mod_eq_of_lt hword]
  | succ times ih =>
    rw [Function.iterate_succ_apply', ih (by omega), countStep, if_neg (by decide)]
    unfold Word.sub Word.size shmMaxSeg at *
    omega

section Calls

variable {kernel kernel' kernel'' : Kernel} {p : ℕ} {clock : Clock}

/-- `fork` counts the runs of recorded slots. -/
theorem Forked.nattch (h : Forked kernel p clock np kstack pgdir kernel') (s : ℕ) :
    (kernel'.shmpgtable.shmSegs s).shmNattch =
        (countStep 0)^[kernel.inheritedRuns p s] (kernel.shmpgtable.shmSegs s).shmNattch ∧
      ∀ i, kernel'.shmpgtable.pagesAt i = kernel.shmpgtable.pagesAt i := by
  have hcounted := @updateAll_covered s _ _ _ _ _ _ h.table
  unfold Kernel.inheritedRuns
  split at hcounted
  · rename_i hpid
    rw [if_pos hpid, ← countP_runHeads]
    exact hcounted
  · rename_i hpid
    rw [if_neg hpid]
    exact hcounted

/-- `exec` counts the runs of attached slots. -/
theorem Execed.nattch {image : ExecImage} (h : Execed kernel p clock image kernel') (s : ℕ) :
    (kernel'.shmpgtable.shmSegs s).shmNattch =
      (countStep 1)^[kernel.attachedRuns p s] (kernel.shmpgtable.shmSegs s).shmNattch := by
  unfold Kernel.attachedRuns
  rw [← countP_runHeads]
  exact (updateAll_covered h.table).1

theorem Kernel.inheritedRuns_le (s : ℕ) : kernel.inheritedRuns p s ≤ shmMaxSeg := by
  unfold inheritedRuns
  split
  · exact runsOf_le
  · exact Nat.zero_le _

/-- The child has the runs of attached slots of its parent, or none. -/
theorem Forked.attachedRuns (h : Forked kernel p clock np kstack pgdir kernel') (s : ℕ) :
    kernel'.attachedRuns np s = if (kernel.proc p).pid > 2 then kernel.attachedRuns p s else 0 := by
  have hcovers : kernel'.shmpgtable.covers s = kernel.shmpgtable.covers s := by
    funext shmid
    unfold covers
    rw [(h.nattch s).2]
  have hchild : (kernel'.proc np).shmsegs = copyShmsegs
      (if (kernel.proc p).pid > 2 then (kernel.proc p).shmsegs else fun _ ↦ .none)
      (kernel.proc np).shmsegs := by
    rw [h.procs, Function.update_self]
    rfl
  unfold Kernel.attachedRuns
  rw [← countP_runHeads, hcovers, hchild]
  have hcopied (j : ℕ) (_ : 0 ≤ j) (hj : j < 0 + shmMaxSeg) : copyShmsegs
      (if (kernel.proc p).pid > 2 then (kernel.proc p).shmsegs else fun _ ↦ .none)
      (kernel.proc np).shmsegs j =
        (if (kernel.proc p).pid > 2 then (kernel.proc p).shmsegs else fun _ ↦ .none) j :=
    if_pos (by omega)
  rw [runHeads_congr hcopied]
  split
  · exact countP_runHeads
  · rw [List.countP_eq_zero]
    intro shmid hmem
    obtain ⟨j, -, -, hattached, -⟩ := mem_runHeads hmem
    exact absurd hattached Bool.false_ne_true

end Calls

/-- The count of every segment has grown by the attachments in the list. -/
def RaisedByAttachments (table : ShmPgTable) (own : List Attachment) (table' : ShmPgTable) : Prop :=
  ∀ s ∈ table.bases, (table'.shmSegs s).shmNattch = (table.shmSegs s).shmNattch + attachmentsOf s own

/-- The count of every segment has dropped by the attachments in the list. -/
def LoweredByAttachments (table : ShmPgTable) (own : List Attachment) (table' : ShmPgTable) : Prop :=
  ∀ s ∈ table.bases, (table'.shmSegs s).shmNattch + attachmentsOf s own = (table.shmSegs s).shmNattch

/-- In every reachable state a successful `fork` counts the attachments of the parent exactly if
each segment has as many runs of recorded slots and no count overflows; a successful `exec` takes
them off exactly if each segment has as many runs of attached slots and no count underflows; and an
`exec` of the child takes off what the `fork` has added exactly if both kinds of runs are as many.
-/
theorem fork_exec_count_attachments_iff {start kernel : Kernel} {held : ℕ → List Attachment}
    (hboot : Boot start)
    (hrun : Runs (observe step noteAttachments) (fun _ _ ↦ True) (start, fun _ ↦ []) (kernel, held))
    (hwords : ∀ s ∈ kernel.shmpgtable.bases, (kernel.shmpgtable.shmSegs s).shmNattch < Word.size)
    (p : ℕ) (clock : Clock) :
    (∀ kernel' pid, fork kernel p clock = .ok (kernel', pid) → pid ≠ -1 →
      (RaisedByAttachments kernel.shmpgtable (held p) kernel'.shmpgtable ↔
        ∀ s ∈ kernel.shmpgtable.bases, kernel.inheritedRuns p s = attachmentsOf s (held p) ∧
          (kernel.shmpgtable.shmSegs s).shmNattch + kernel.inheritedRuns p s < Word.size)) ∧
    (∀ file argv kernel', exec kernel p clock file argv = .ok (kernel', 0) →
      (LoweredByAttachments kernel.shmpgtable (held p) kernel'.shmpgtable ↔
        ∀ s ∈ kernel.shmpgtable.bases, kernel.attachedRuns p s = attachmentsOf s (held p) ∧
          kernel.attachedRuns p s ≤ (kernel.shmpgtable.shmSegs s).shmNattch)) ∧
    (∀ kernel' pid child clock' file argv kernel'', fork kernel p clock = .ok (kernel', pid) →
      (kernel.proc child).state = .unused → (kernel'.proc child).state ≠ .unused →
      exec kernel' child clock' file argv = .ok (kernel'', 0) →
      ((∀ s ∈ kernel.shmpgtable.bases, (kernel''.shmpgtable.shmSegs s).shmNattch =
          (kernel.shmpgtable.shmSegs s).shmNattch) ↔
        ∀ s ∈ kernel.shmpgtable.bases, (kernel.proc p).pid > 2 →
          kernel.inheritedRuns p s = kernel.attachedRuns p s)) := by
  have hsane := (attachments_nonempty hboot hrun).1
  have hbound (s : ℕ) : kernel.attachedRuns p s ≤ shmMaxSeg := runsOf_le
  refine ⟨?_, ?_, ?_⟩
  · intro kernel' pid hfork hpid
    rcases fork_cases (hsane.sizes p) hfork with ⟨hfailed, -⟩ | ⟨-, np, kstack, pgdir, hforked⟩
    · exact absurd hfailed hpid
    apply forall₂_congr
    intro s hs
    have hword := hwords s hs
    have hle := @Kernel.inheritedRuns_le kernel p s
    rw [(hforked.nattch s).1, iterate_add_wraps hword]
    unfold Word.size shmMaxSeg at *
    omega
  · intro file argv kernel' hexec
    rcases exec_cases hexec with ⟨hfailed, -⟩ | ⟨-, image, hexeced⟩
    · cases hfailed
    apply forall₂_congr
    intro s hs
    have hword := hwords s hs
    have hle := hbound s
    rw [hexeced.nattch s, iterate_sub_wraps hword hle]
    unfold Word.size shmMaxSeg at *
    omega
  · intro kernel' pid child clock' file argv kernel'' hfork hunused hstarted hexec
    obtain ⟨kstack, pgdir, hforked⟩ :=
      Forked.of_started (hsane.sizes p) hfork hunused hstarted
    rcases exec_cases hexec with ⟨hfailed, -⟩ | ⟨-, image, hexeced⟩
    · cases hfailed
    apply forall₂_congr
    intro s hs
    have hword := hwords s hs
    have hle := @Kernel.inheritedRuns_le kernel p s
    have hle' := hbound s
    rw [hexeced.nattch s, hforked.attachedRuns s, (hforked.nattch s).1, iterate_add_wraps hword,
      iterate_sub_wraps (Nat.mod_lt _ (by decide)) (by split <;> omega)]
    by_cases hpid : (kernel.proc p).pid > 2
    · rw [if_pos hpid]
      unfold Word.size shmMaxSeg at *
      omega
    · have hnone : kernel.inheritedRuns p s = 0 := if_neg hpid
      rw [if_neg hpid, hnone]
      unfold Word.size shmMaxSeg at *
      omega

/-- A segment of one page is attached twice, in adjacent slots, and the process forks: the child is
counted for one attachment. -/
theorem fork_counts_adjacent_once : ∃ kernel held kernel',
    Runs (observe step noteAttachments) (fun _ _ ↦ True)
      (startKernel 1000, fun _ ↦ []) (kernel, held) ∧
    fork kernel 2 startClock = .ok (kernel', 4) ∧ 0 ∈ kernel.shmpgtable.bases ∧
    attachmentsOf 0 (held 2) = 2 ∧ (kernel.shmpgtable.shmSegs 0).shmNattch = 2 ∧
    (kernel'.shmpgtable.shmSegs 0).shmNattch = 3 := by
  obtain ⟨kernel, held, hrun, hbase, hheld, hnattch, hpid, hsz, hnext, hids, hcan⟩ : ∃ kernel held,
      Runs (observe step noteAttachments) (fun _ _ ↦ True)
        (startKernel 1000, fun _ ↦ []) (kernel, held) ∧
      0 ∈ kernel.shmpgtable.bases ∧ attachmentsOf 0 (held 2) = 2 ∧
      (kernel.shmpgtable.shmSegs 0).shmNattch = 2 ∧ (kernel.proc 2).pid > 2 ∧
      (kernel.proc 2).sz = 0 ∧ kernel.nextpid = 4 ∧
      (inheritedIds (kernel.proc 2).shmsegs).countP (kernel.shmpgtable.covers 0) = 1 ∧
      canFork kernel = true := by
    apply Runs.of_labels_observed [startLabel (.shmget 5 4096 ipcCreat),
      startLabel (.shmat 0 0 2), startLabel (.shmat 0 0 2)]
    decide +kernel
  obtain ⟨forked, child, hfork, hunused, hstarted⟩ :=
    step_fork_of_canFork hcan (by rw [hnext]; decide)
  obtain ⟨-, -, hperform⟩ := step_eq_ok hfork
  obtain ⟨kstack, pgdir, hforked⟩ := Forked.of_started
    (show (kernel.proc 2).sz < heapLimit by rw [hsz]; decide) hperform hunused hstarted
  have hruns : kernel.inheritedRuns 2 0 = 1 := by
    rw [Kernel.inheritedRuns, if_pos hpid, ← countP_runHeads]
    exact hids
  have hraised := (hforked.nattch 0).1
  rw [hruns, hnattch] at hraised
  exact ⟨kernel, held, forked, hrun, hnext ▸ hperform, hbase, hheld, hnattch, hraised⟩

/-- The counts in a reachable state with one attachment. -/
theorem fork_exec_count_attachments_attached : ∃ kernel held,
    Runs (observe step noteAttachments) (fun _ _ ↦ True)
      (startKernel 1000, fun _ ↦ []) (kernel, held) ∧
    0 ∈ kernel.shmpgtable.bases ∧ attachmentsOf 0 (held 2) = 1 ∧
    ∃ kernel', fork kernel 2 startClock = .ok (kernel', 4) ∧
      (RaisedByAttachments kernel.shmpgtable (held 2) kernel'.shmpgtable ↔
        ∀ s ∈ kernel.shmpgtable.bases, kernel.inheritedRuns 2 s = attachmentsOf s (held 2) ∧
          (kernel.shmpgtable.shmSegs s).shmNattch + kernel.inheritedRuns 2 s < Word.size) := by
  obtain ⟨kernel, held, hrun, hbase, hheld, hnext, hwords, hcan⟩ : ∃ kernel held,
      Runs (observe step noteAttachments) (fun _ _ ↦ True)
        (startKernel 1000, fun _ ↦ []) (kernel, held) ∧
      0 ∈ kernel.shmpgtable.bases ∧ attachmentsOf 0 (held 2) = 1 ∧ kernel.nextpid = 4 ∧
      (∀ s ∈ kernel.shmpgtable.bases, (kernel.shmpgtable.shmSegs s).shmNattch < Word.size) ∧
      canFork kernel = true := by
    apply Runs.of_labels_observed [startLabel (.shmget 5 4096 ipcCreat), startLabel (.shmat 0 0 2)]
    decide +kernel
  obtain ⟨forked, child, hfork, -, -⟩ := step_fork_of_canFork hcan (by rw [hnext]; decide)
  obtain ⟨-, -, hperform⟩ := step_eq_ok hfork
  rw [hnext] at hperform
  exact ⟨kernel, held, hrun, hbase, hheld, forked, hperform,
    (fork_exec_count_attachments_iff (startKernel_boot _) hrun hwords 2 startClock).1 forked 4
      hperform (by decide)⟩

end Xv6Shm
