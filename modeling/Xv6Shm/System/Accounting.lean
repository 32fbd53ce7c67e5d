import Xv6Shm.System.Coherence

/-!
# The system-wide counters

`shm_info` is brought up to date by creations only. It is exact until a segment is released; from
then on it counts segments that are gone.
-/

namespace Xv6Shm

open Fallible

/-- The slots that belong to segments. -/
def ShmPgTable.segmentSlots (table : ShmPgTable) : Finset ℕ :=
  table.bases.biUnion fun s ↦ Finset.Ico s (s + table.pagesAt s)

/-- A call that releases a segment: a removal that finds one without attachments. -/
def Releasing (kernel : Kernel) (label : Label) : Prop :=
  match label.call with
  | .removeshm shmIdentifier flag => ∃ s, kernel.shmpgtable.Resolves shmIdentifier flag s ∧
      0 < kernel.shmpgtable.pagesAt s ∧ (kernel.shmpgtable.shmSegs s).shmNattch = 0
  | _ => False

/-- The counters are exact and no slot up to the last one is free. -/
structure Accounted (kernel : Kernel) : Prop where
  usedIds : kernel.shmInfo.usedIds = kernel.shmpgtable.bases.card
  shmTot : kernel.shmInfo.shmTot = kernel.shmpgtable.bound
  full : ∀ i < kernel.shmpgtable.bound, kernel.shmpgtable.isLive i = true

theorem Boot.accounted {kernel : Kernel} (hboot : Boot kernel) : Accounted kernel := by
  refine ⟨?_, ?_, ?_⟩
  · rw [hboot.table, hboot.info]
    rfl
  · rw [hboot.table, hboot.info]
    rfl
  · intro i hi
    rw [hboot.table] at hi
    exact absurd hi (Nat.not_lt_zero i)

theorem Coherent.segmentSlots_of_full {table : ShmPgTable} (h : Coherent table)
    (hfull : ∀ i < table.bound, table.isLive i = true) :
    table.segmentSlots = Finset.range table.bound := by
  ext i
  unfold ShmPgTable.segmentSlots
  simp only [Finset.mem_biUnion, Finset.mem_Ico, Finset.mem_range]
  constructor
  · rintro ⟨s, hs, -, hlt⟩
    exact lt_of_lt_of_le hlt (h.tiling.inside s hs)
  · intro hi
    exact h.tiling.covered i hi (hfull i hi)

theorem accounted_step {kernel kernel' : Kernel} {label : Label} {result : ℤ}
    (hintact : kernel.Intact) (haccounted : Accounted kernel)
    (hstructured : Structured kernel label) (hkeeps : ¬ Releasing kernel label)
    (h : step kernel label = .ok (kernel', result)) : Accounted kernel' := by
  have hcoherent := hintact.coherent
  cases tableChange_of_step hintact hstructured h with
  | recounted htable hinfo =>
    have hbound : kernel'.shmpgtable.bound = kernel.shmpgtable.bound := by
      unfold ShmPgTable.bound
      rw [htable.last]
    refine ⟨?_, ?_, fun i hi ↦ ?_⟩
    · rw [hinfo, htable.bases, haccounted.usedIds]
    · rw [hinfo, hbound, haccounted.shmTot]
    · rw [htable.isLive]
      exact haccounted.full i (hbound ▸ hi)
  | @created key size shmflag index append frames kmem _ _ _ _ _ hkernel hnew =>
    obtain ⟨-, hbases⟩ := hcoherent.insert hnew
    have hfresh : index ∉ kernel.shmpgtable.bases := by
      intro hmem
      have hfree := hnew.apart hcoherent hmem le_rfl
        (Nat.lt_add_of_pos_right (hcoherent.tiling.positive index hmem))
      have hpos := hnew.nonempty
      omega
    refine ⟨?_, ?_, fun i hi ↦ ?_⟩
    · rw [hbases, Finset.card_insert_of_notMem hfresh, hkernel]
      unfold Kernel.created
      rw [haccounted.usedIds]
      rfl
    · have hlimit := hnew.bound_le
      have hmax : shmMaxSeg < Word.size := by decide
      have hinfo : kernel'.shmInfo.shmTot =
          Word.ofInt (kernel'.shmpgtable.lastShmSegIndex + 1) := by
        rw [hkernel]
        rfl
      have hlast : kernel'.shmpgtable.lastShmSegIndex + 1 = kernel'.shmpgtable.bound := by
        have hge := ((hintact.step hstructured h).1.sane.table).last_ge
        unfold ShmPgTable.bound
        omega
      rw [hinfo, hlast, Word.ofInt_natCast (by omega)]
    · by_cases hin : index ≤ i ∧ i < index + sizePages size
      · exact hnew.live i hin.1 hin.2
      · have hold : i < kernel.shmpgtable.bound := by
          by_contra hbeyond
          exact hin (hnew.fills i (not_lt.mp hbeyond) hi)
        rw [ShmPgTable.isLive, hnew.others i (by omega)]
        exact haccounted.full i hold
  | @set shmid buf s _ _ hs hpages hkey _ hkernel =>
    have hkeep := KeepsSegment.set hpages hkey
    obtain ⟨-, hbases⟩ := hcoherent.onPages hs hkeep
    subst hkernel
    refine ⟨?_, haccounted.shmTot, fun i hi ↦ ?_⟩
    · dsimp only
      rw [hbases]
      exact haccounted.usedIds
    · dsimp only
      rw [hcoherent.onPages_isLive hs hkeep]
      exact haccounted.full i hi
  | @freed shmIdentifier flag s kmem hcall hresolves hs hnattch _ =>
    refine absurd ?_ hkeeps
    unfold Releasing
    rw [hcall]
    exact ⟨s, hresolves, hcoherent.tiling.positive s hs, hnattch⟩

/-- In every state of a structured run that has released no segment, the counters are exact. -/
theorem accounting_exact_of_no_release {start kernel : Kernel} (hboot : Boot start)
    (hrun : Runs step (fun kernel label ↦ Structured kernel label ∧ ¬ Releasing kernel label)
      start kernel) :
    Splits kernel.shmpgtable kernel.shmpgtable.bases ∧
      kernel.shmInfo.usedIds = kernel.shmpgtable.bases.card ∧
      kernel.shmInfo.shmTot = kernel.shmpgtable.segmentSlots.card := by
  obtain ⟨hintact, haccounted⟩ := hrun.invariant
    (fun kernel ↦ kernel.Intact ∧ Accounted kernel) ⟨hboot.intact, hboot.accounted⟩
    fun state label next result hstate hlabel hstep ↦ ⟨(hstate.1.step hlabel.1 hstep).1,
        accounted_step hstate.1 hstate.2 hlabel.1 hlabel.2 hstep⟩
  refine ⟨hintact.splits, haccounted.usedIds, ?_⟩
  rw [hintact.coherent.segmentSlots_of_full haccounted.full, Finset.card_range]
  exact haccounted.shmTot

/-- A segment is created and removed: there is none left, and both counters are one. -/
theorem removeshm_leaves_counters : ∃ created removed : Kernel, Boot (startKernel 1) ∧
      step (startKernel 1) (startLabel (.shmget 5 4096 ipcCreat)) = .ok (created, 0) ∧
      step created (startLabel (.removeshm 0 0)) = .ok (removed, 0) ∧
      Splits removed.shmpgtable ∅ ∧
      removed.shmInfo.usedIds = 1 ∧ removed.shmInfo.shmTot = 1 := by
  obtain ⟨created, hget, hstructured, removed, hremove, hempty, hcounters⟩ : ∃ created,
      step (startKernel 1) (startLabel (.shmget 5 4096 ipcCreat)) = .ok (created, 0) ∧
      Structured created (startLabel (.removeshm 0 0)) ∧
      ∃ removed, step created (startLabel (.removeshm 0 0)) = .ok (removed, 0) ∧
        removed.shmpgtable.bases = ∅ ∧ removed.shmInfo.usedIds = 1 ∧
        removed.shmInfo.shmTot = 1 := by
    decide +kernel
  have hintact := (startKernel_boot (by decide)).intact_of_runs
    (((Runs.refl _).snoc (by decide +kernel) hget).snoc hstructured hremove)
  refine ⟨created, removed, startKernel_boot _, hget, hremove, ?_, hcounters⟩
  rw [← hempty]
  exact hintact.splits

/-- A segment of two pages is created. -/
theorem accounting_exact_of_no_release_created : ∃ kernel : Kernel,
    Runs step (fun kernel label ↦ Structured kernel label ∧ ¬ Releasing kernel label)
      (startKernel 2) kernel ∧ kernel.shmInfo.shmTot = 2 ∧
      Splits kernel.shmpgtable kernel.shmpgtable.bases ∧
      kernel.shmInfo.usedIds = kernel.shmpgtable.bases.card ∧
      kernel.shmInfo.shmTot = kernel.shmpgtable.segmentSlots.card := by
  obtain ⟨created, hget, htot⟩ : ∃ created,
      step (startKernel 2) (startLabel (.shmget 5 8192 ipcCreat)) = .ok (created, 0) ∧
        created.shmInfo.shmTot = 2 := by
    decide +kernel
  have hsteps : Runs step (fun kernel label ↦ Structured kernel label ∧ ¬ Releasing kernel label)
      (startKernel 2) created :=
    (Runs.refl _).snoc ⟨by decide +kernel, by exact not_false⟩ hget
  exact ⟨created, hsteps, htot, accounting_exact_of_no_release (startKernel_boot _) hsteps⟩

end Xv6Shm
