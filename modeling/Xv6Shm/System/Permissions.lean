import Xv6Shm.System.Boot

/-!
# Write permission in the window

A page of a segment should be writable only if the attach asked for it and the mode of the segment
allows it. The bit that asks for writing is the one that asks for reading only, so no flag word asks
for writing; the window has no writable page as long as no attach has the bit.
-/

namespace Xv6Shm

open Fallible Function

/-- The `PTE_W` bit of an entry. -/
def isWritable (pte : ℕ) : Bool := pte &&& pteW != 0

/-- What an attach came with: its flag word and the mode of the segment. -/
structure Grant where
  shmflag : ℕ
  mode : ℕ

/-- The attach asked for writing, and the mode of the segment allows it. -/
def Grant.MayWrite (grant : Grant) : Prop :=
  grant.shmflag &&& shmW ≠ 0 ∧ grant.shmflag &&& shmRdonly = 0 ∧ grant.mode &&& shmW ≠ 0

instance (grant : Grant) : Decidable grant.MayWrite := inferInstanceAs (Decidable (_ ∧ _))

/-- Keep for each window slot of each process the attach that has made its entry. -/
def noteGrants (grants : ℕ → ℕ → Option Grant) (kernel : Kernel) (label : Label) (_ : Kernel)
    (result : ℤ) : ℕ → ℕ → Option Grant :=
  match label.call with
  | .shmat shmid _ shmflag =>
    if 0 ≤ result then
      update grants label.proc (Cells.onRange (addrSlot result)
        (kernel.shmpgtable.shmSegs shmid.toNat).pages
        (fun _ _ ↦ some ⟨shmflag, (kernel.shmpgtable.shmSegs shmid.toNat).shmPerm.mode⟩)
        (grants label.proc))
    else grants
  | _ => grants

/-- Every writable page of the window was made by an attach that may write. -/
def WriteGranted (kernel : Kernel) (grants : ℕ → ℕ → Option Grant) : Prop :=
  ∀ q, (kernel.proc q).state ≠ .unused → ∀ w < shmMaxSeg,
    isPresent ((kernel.proc q).pgdir.pte (windowAddr w)) = true →
    isWritable ((kernel.proc q).pgdir.pte (windowAddr w)) = true →
    ∃ grant, grants q w = some grant ∧ grant.MayWrite

/-- A call of `shmget` or `shmat`. -/
def Label.isShared (label : Label) : Bool :=
  match label.call with
  | .shmget _ _ _ => true
  | .shmat _ _ _ => true
  | _ => false

/-- The call is no attach with the bit of `SHM_W`. -/
def Label.readsOnly (label : Label) : Bool :=
  match label.call with
  | .shmat _ _ shmflag => shmflag &&& shmW == 0
  | _ => true

/-- No page of the window is writable. -/
def Kernel.NoWriting (kernel : Kernel) : Prop :=
  ∀ q, (kernel.proc q).state ≠ .unused → ∀ w < shmMaxSeg,
    isWritable ((kernel.proc q).pgdir.pte (windowAddr w)) = false

theorem isWritable_iff {pte : ℕ} : isWritable pte = true ↔ pte / 2 % 2 = 1 := by
  have hbit := Nat.and_two_pow pte 1
  rw [Nat.testBit_eq_decide_div_mod_eq, pow_one] at hbit
  unfold isWritable pteW
  rw [hbit, bne_iff_ne]
  by_cases h : pte / 2 % 2 = 1 <;> simp [h]

theorem attachEntry_not_writable {pa shmflag : ℕ} (haligned : pa % pgSize = 0)
    (hbelow : pa < physTop) (hflag : shmflag &&& shmW = 0) :
    isWritable (attachEntry pa shmflag) = false := by
  have hperm : attachPerm shmflag ||| pteP = 5 := by
    have huser : attachPerm shmflag = pteU := if_neg (not_not.mpr hflag)
    rw [huser]
    rfl
  rw [attachEntry_eq shmflag haligned hbelow, hperm, Bool.eq_false_iff, ne_eq, isWritable_iff]
  unfold pgSize kernBase at *
  omega

section Step

variable {kernel kernel' : Kernel} {p : ℕ} {clock : Clock} {result : ℤ}

theorem Kernel.NoWriting.congr (h : kernel.NoWriting) (hproc : kernel'.proc = kernel.proc) :
    kernel'.NoWriting := by
  unfold NoWriting
  rw [hproc]
  exact h

theorem Kernel.NoWriting.shmat {shmid shmaddr : ℤ} {shmflag : ℕ} (hsane : kernel.shmpgtable.Sane)
    (hnone : kernel.NoWriting) (hused : (kernel.proc p).state ≠ .unused)
    (hflag : shmflag &&& shmW = 0)
    (h : shmatHelper kernel p clock shmid shmaddr shmflag = .ok (kernel', result)) :
    kernel'.NoWriting := by
  rcases shmatHelper_cases hsane h with ⟨rfl, -⟩ | ⟨s, w, -, -, -, -, -, houtcome⟩
  · exact hnone
  · rcases houtcome with ⟨st, hpages, rfl, -⟩ | ⟨-, -, -, rfl⟩
    · intro q hq i hi
      by_cases hqp : q = p
      · subst hqp
        rw [Kernel.putAttaching_proc, update_self]
        by_cases hin : w ≤ i ∧ i < w + (kernel.shmpgtable.shmSegs s).pages
        · have hslot := hsane.slots (s + (i - w))
          have hentry := hpages.entry (i - w) (by omega)
          rw [Nat.add_sub_cancel' hin.1] at hentry
          rw [hentry]
          exact attachEntry_not_writable hslot.aligned hslot.below hflag
        · rw [hpages.others _ (windowAddr_word hi) (by rw [windowAddr_page]; omega)]
          exact hnone q hused i hi
      · rw [Kernel.putAttaching_proc, update_of_ne hqp] at hq ⊢
        exact hnone q hq i hi
    · intro q hq i hi
      by_cases hqp : q = p
      · subst hqp
        rw [Kernel.putAttaching_proc, update_self]
        exact hnone q hused i hi
      · rw [Kernel.putAttaching_proc, update_of_ne hqp] at hq ⊢
        exact hnone q hq i hi

end Step

theorem Kernel.NoWriting.step {kernel kernel' : Kernel} {label : Label} {result : ℤ}
    (hnone : kernel.NoWriting) (hsane : kernel.shmpgtable.Sane) (hshared : label.isShared = true)
    (hreads : label.readsOnly = true) (h : step kernel label = .ok (kernel', result)) :
    kernel'.NoWriting := by
  obtain ⟨-, hcanRun, hperform⟩ := step_eq_ok h
  unfold Label.isShared at hshared
  unfold Label.readsOnly at hreads
  cases hcall : label.call with
  | shmget key size shmflag =>
    rw [hcall] at hperform
    exact hnone.congr (shmgetHelper_proc hsane hperform)
  | shmat shmid shmaddr shmflag =>
    rw [hcall] at hperform hreads
    exact hnone.shmat hsane (Proc.canRun_ne_unused hcanRun) (beq_iff_eq.mp hreads) hperform
  | shmdt | shmctl | removeshm | sbrk | fork | exec | exit | wait =>
    rw [hcall] at hshared
    cases hshared

/-- In every run of `shmget` and `shmat` that stays in bounds and whose attaches do not have the bit
of `SHM_W`, no page of the window is writable without a grant: there is none. -/
theorem write_granted_of_reads_only {start kernel : Kernel} {grants : ℕ → ℕ → Option Grant}
    (hboot : Boot start) (hrun : Runs (observe step noteGrants)
      (fun observed label ↦ label.isShared = true ∧ label.readsOnly = true ∧
        InBounds observed.1 label)
      (start, fun _ _ ↦ none) (kernel, grants)) : WriteGranted kernel grants := by
  have hnone : kernel.Sane ∧ kernel.NoWriting := by
    refine hrun.invariant (fun observed ↦ observed.1.Sane ∧ observed.1.NoWriting)
      ⟨hboot.sane, ?_⟩ ?_
    · intro q hq w hw
      rw [hboot.window q hq _ (heapLimit_le_windowAddr w) (windowAddr_lt hw)]
      rfl
    · rintro ⟨kernel, grants⟩ label ⟨kernel', grants'⟩ result ⟨hsane, hnone⟩ hlabel hobserved
      obtain ⟨hstep, -⟩ := observe_eq_ok.mp hobserved
      exact ⟨hsane.step hstep, hnone.step hsane.table hlabel.1 hlabel.2.1 hstep⟩
  intro q hq w hw _ hwritable
  rw [hnone.2 q hq w hw] at hwritable
  cases hwritable

/-- An attach for reading only gets a writable page, and the mode of the segment allows no writing. -/
theorem read_only_attach_writes : ∃ kernel grants,
    Runs (observe step noteGrants) (fun _ label ↦ label.isShared = true)
      (startKernel 2, fun _ _ ↦ none) (kernel, grants) ∧
    (kernel.proc 2).state ≠ .unused ∧
    isPresent ((kernel.proc 2).pgdir.pte (windowAddr 0)) = true ∧
    isWritable ((kernel.proc 2).pgdir.pte (windowAddr 0)) = true ∧
    (grants 2 0).map Grant.shmflag = some shmRdonly ∧
    (grants 2 0).map (fun grant ↦ grant.mode &&& shmW) = some 0 ∧ ¬ WriteGranted kernel grants := by
  obtain ⟨kernel, grants, hrun, hused, hpresent, hwritable, hflag, hmode⟩ : ∃ kernel grants,
      Runs (observe step noteGrants) (fun _ label ↦ label.isShared = true)
        (startKernel 2, fun _ _ ↦ none) (kernel, grants) ∧
      (kernel.proc 2).state ≠ .unused ∧
      isPresent ((kernel.proc 2).pgdir.pte (windowAddr 0)) = true ∧
      isWritable ((kernel.proc 2).pgdir.pte (windowAddr 0)) = true ∧
      (grants 2 0).map Grant.shmflag = some shmRdonly ∧
      (grants 2 0).map (fun grant ↦ grant.mode &&& shmW) = some 0 := by
    apply Runs.of_labels_observed
      [startLabel (.shmget 5 4096 ipcCreat), startLabel (.shmat 0 0 shmRdonly)]
    decide +kernel
  refine ⟨kernel, grants, hrun, hused, hpresent, hwritable, hflag, hmode, fun hgranted ↦ ?_⟩
  obtain ⟨grant, hgrant, -, -, hallowed⟩ := hgranted 2 hused 0 (by decide) hpresent hwritable
  rw [hgrant] at hmode
  exact hallowed (Option.some.inj hmode)

/-- A page attached without the bit is present and not writable. -/
theorem write_granted_of_reads_only_first : ∃ kernel grants, Runs (observe step noteGrants)
      (fun observed label ↦ label.isShared = true ∧ label.readsOnly = true ∧
        InBounds observed.1 label)
      (startKernel 2, fun _ _ ↦ none) (kernel, grants) ∧
    isPresent ((kernel.proc 2).pgdir.pte (windowAddr 0)) = true ∧ WriteGranted kernel grants := by
  obtain ⟨kernel, grants, hrun, hpresent⟩ : ∃ kernel grants, Runs (observe step noteGrants)
        (fun observed label ↦ label.isShared = true ∧ label.readsOnly = true ∧
        InBounds observed.1 label)
        (startKernel 2, fun _ _ ↦ none) (kernel, grants) ∧
      isPresent ((kernel.proc 2).pgdir.pte (windowAddr 0)) = true := by
    apply Runs.of_labels_observed [startLabel (.shmget 5 4096 ipcCreat), startLabel (.shmat 0 0 0)]
    decide +kernel
  exact ⟨kernel, grants, hrun, hpresent, write_granted_of_reads_only (startKernel_boot _) hrun⟩

end Xv6Shm
