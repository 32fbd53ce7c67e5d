import Xv6Shm.System.Custody

/-!
# What the processes have mapped

Below `HEAPLIMIT` a process has its private pages mapped, which nobody else holds. In the window it
has pages of segments mapped, but the address of the frame is converted twice on the way into the
page table, and the result lies beyond the physical memory. So no frame on the free list and no
frame of a segment is ever mapped.
-/

namespace Xv6Shm

open Fallible Function

variable {pgdir : Pgdir} {pid shmid shmaddr : ℤ} {shmflag s w count q v : ℕ}
  {before after : Attaching}

/-- The pages between `HEAPLIMIT` and `KERNBASE` are mapped to addresses at or above `KERNBASE`. -/
def Pgdir.ForeignWindow (pgdir : Pgdir) : Prop :=
  ∀ b, heapLimit ≤ b → b < kernBase → isPresent (pgdir.pte b) = true →
    kernBase ≤ pteAddr (pgdir.pte b)

def Kernel.ForeignWindows (kernel : Kernel) : Prop :=
  ∀ q, (kernel.proc q).state ≠ .unused → (kernel.proc q).pgdir.ForeignWindow

theorem Pgdir.SameWindow.foreign {other : Pgdir} (hsame : pgdir.SameWindow other)
    (h : pgdir.ForeignWindow) : other.ForeignWindow := by
  intro b hlow hhigh hpresent
  rw [hsame b hlow hhigh] at hpresent ⊢
  exact h b hlow hhigh hpresent

theorem Pgdir.EmptyWindow.foreign (hempty : pgdir.EmptyWindow) :
    pgdir.ForeignWindow := by
  intro b hlow hhigh hpresent
  rw [hempty b hlow hhigh, isPresent_zero] at hpresent
  cases hpresent

theorem AttachedPages.foreign {clock : Clock}
    (hpages : AttachedPages clock pid shmid shmflag s w count before after)
    (hslots : ∀ i, (before.table.shmSegs i).Sane) (h : before.vm.pgdir.ForeignWindow) :
    after.vm.pgdir.ForeignWindow := by
  intro b hlow hhigh hpresent
  rcases window_page_or w count b with ⟨offset, hlt, hpage⟩ | hout
  · have hslot := hslots (s + offset)
    rw [Pgdir.pte_congr hpage, hpages.entry offset hlt,
      (attachEntry_spec shmflag hslot.aligned hslot.below).2,
      v2p_of_lt (lt_trans hslot.below (by decide))]
    exact Nat.le_add_left _ _
  · rw [hpages.others b (lt_trans hhigh (by decide)) hout] at hpresent ⊢
    exact h b hlow hhigh hpresent

theorem DetachedPages.foreign {clock : Clock}
    (hpages : DetachedPages clock pid s w count before after) (h : before.vm.pgdir.ForeignWindow) :
    after.vm.pgdir.ForeignWindow := by
  intro b hlow hhigh hpresent
  rcases window_page_or w count b with ⟨offset, hlt, hpage⟩ | hout
  · rw [Pgdir.pte_congr hpage, hpages.absent offset hlt] at hpresent
    cases hpresent
  · rw [hpages.others b (lt_trans hhigh (by decide)) hout] at hpresent ⊢
    exact h b hlow hhigh hpresent

section Calls

variable {kernel kernel' : Kernel} {p : ℕ} {clock : Clock} {result : ℤ}

section

variable (h : kernel.ForeignWindows)

include h

theorem Kernel.ForeignWindows.congr (hproc : kernel'.proc = kernel.proc) :
    kernel'.ForeignWindows := by
  unfold ForeignWindows
  rw [hproc]
  exact h

theorem Kernel.ForeignWindows.update {process : Proc}
    (hproc : kernel'.proc = update kernel.proc q process)
    (hwindow : process.state ≠ .unused → process.pgdir.ForeignWindow) : kernel'.ForeignWindows := by
  intro r hr
  rw [hproc] at hr ⊢
  by_cases hrq : r = q
  · subst hrq
    rw [update_self] at hr ⊢
    exact hwindow hr
  · rw [update_of_ne hrq] at hr ⊢
    exact h r hr

theorem foreignWindows_shmat (hsane : kernel.shmpgtable.Sane)
    (hcall : shmatHelper kernel p clock shmid shmaddr shmflag = .ok (kernel', result)) :
    kernel'.ForeignWindows := by
  rcases shmatHelper_cases hsane hcall with ⟨rfl, -⟩ | ⟨s, w, -, -, -, -, -, houtcome⟩
  · exact h
  · rcases houtcome with ⟨st, hpages, rfl, -⟩ | ⟨-, -, -, rfl⟩
    · exact h.update (Kernel.putAttaching_proc _ _ _ _) fun hused ↦
        hpages.foreign hsane.slots (h p hused)
    · exact h.update (Kernel.putAttaching_proc _ _ _ _) fun hused ↦ h p hused

theorem foreignWindows_shmdt (hsane : kernel.shmpgtable.Sane)
    (hcall : shmdtHelper kernel p clock shmaddr = .ok (kernel', result)) :
    kernel'.ForeignWindows := by
  rcases shmdtHelper_cases hsane hcall with ⟨rfl, -⟩ | ⟨-, -, -, -, s, st, hdetaches⟩
  · exact h
  · rw [hdetaches.result]
    exact h.update (Kernel.putAttaching_proc _ _ _ _) fun hused ↦
      hdetaches.pages.foreign (h p hused)

theorem foreignWindows_fork (hsz : (kernel.proc p).sz < heapLimit)
    (hcall : fork kernel p clock = .ok (kernel', result)) : kernel'.ForeignWindows := by
  rcases fork_cases hsz hcall with ⟨-, hfailed⟩ | ⟨-, np, kstack, pgdir, hforked⟩
  · intro q hq
    rcases hfailed.procs q with hsame | ⟨hunused, pid, kstack, hproc⟩
    · rw [hsame] at hq ⊢
      exact h q hq
    · rw [hproc] at hq
      exact absurd hunused hq
  · exact h.update hforked.procs fun _ ↦ hforked.window.foreign

theorem foreignWindows_exit (hused : (kernel.proc p).state ≠ .unused)
    (hcall : exit kernel p = .ok (kernel', result)) : kernel'.ForeignWindows := by
  obtain ⟨-, -, -, hprocs⟩ := exit_cases hcall
  intro q hq
  obtain ⟨parent, hproc⟩ := hprocs q
  rw [hproc] at hq ⊢
  by_cases hqp : q = p
  · exact h q (hqp ▸ hused)
  · rw [if_neg hqp] at hq
    exact h q hq

end

end Calls

/-- No call maps a page of the window to physical memory. -/
theorem Kernel.ForeignWindows.step {kernel kernel' : Kernel} {label : Label} {result : ℤ}
    (h : kernel.ForeignWindows) (hsane : kernel.Sane)
    (hstep : step kernel label = .ok (kernel', result)) : kernel'.ForeignWindows := by
  obtain ⟨-, hcanRun, hcall⟩ := step_eq_ok hstep
  obtain ⟨p, clock, call⟩ := label
  cases call with
  | shmget key size shmflag =>
    exact h.congr (shmgetHelper_proc hsane.table hcall)
  | shmat shmid shmaddr shmflag => exact foreignWindows_shmat h hsane.table hcall
  | shmdt shmaddr => exact foreignWindows_shmdt h hsane.table hcall
  | shmctl shmid cmd buf =>
    obtain ⟨buf', hctl⟩ := perform_shmctl hcall
    rcases shmctlHelper_cases hctl with rfl | ⟨s, -, -, -, -, ⟨-, -, -, -, rfl⟩ | ⟨-, -, rfl⟩⟩
    · exact h
    · exact h.congr rfl
    · exact h.congr rfl
  | removeshm shmIdentifier flag =>
    rcases removeshmHelper_cases hsane.table hcall with ⟨rfl, -⟩ | ⟨s, -, hremove⟩
    · exact h
    · obtain ⟨t, -, -, -, ⟨rfl, -, -⟩ | ⟨kmem, -, rfl, -, -, -⟩⟩ := removeSegment_cases hremove
      · exact h.congr rfl
      · exact h.congr rfl
  | sbrk n =>
    rcases sysSbrk_cases (hsane.sizes _) hcall with rfl | ⟨vm, sz, hresized⟩
    · exact h
    · rw [hresized.result]
      exact h.update rfl fun hused ↦ hresized.window.foreign (h _ hused)
  | fork => exact foreignWindows_fork h (hsane.sizes _) hcall
  | exec file argv =>
    rcases exec_cases hcall with ⟨-, kmem, rfl, -⟩ | ⟨-, image, hexeced⟩
    · exact h.congr rfl
    · exact h.update hexeced.procs fun _ ↦ hexeced.window.foreign
  | exit => exact foreignWindows_exit h (Proc.canRun_ne_unused hcanRun) hcall
  | wait =>
    rcases wait_cases hcall with rfl | ⟨q, kmem, -, -, -, rfl⟩
    · exact h
    · exact h.update rfl fun hused ↦ absurd rfl hused

theorem Boot.foreignWindows {kernel : Kernel} (hboot : Boot kernel) : kernel.ForeignWindows :=
  fun q hq ↦ (hboot.window q hq).foreign

section Owners

variable (kernel : Kernel)

/-- The kernel stacks of the processes. -/
def Kernel.stackFrames : Multiset ℕ :=
  ∑ q ∈ Finset.range nProc, if (kernel.proc q).state = .unused then 0 else {(kernel.proc q).kstack}

/-- The directories and page tables of the processes. -/
def Kernel.tablePages : Multiset ℕ :=
  ∑ q ∈ Finset.range nProc,
    if (kernel.proc q).state = .unused then 0 else (kernel.proc q).pgdir.tablePages

/-- The pages that the processes have mapped below `HEAPLIMIT`. -/
def Kernel.privateFrames : Multiset ℕ :=
  ∑ q ∈ Finset.range nProc,
    if (kernel.proc q).state = .unused then 0 else (kernel.proc q).pgdir.userFrames

/-- Each frame has one owner: the free list, a live slot of the table, or the processes as a private
page, a page table or a kernel stack. No process has a free frame or one of a segment mapped. -/
structure Kernel.FramesOwned : Prop where
  free : kernel.kmem.freelist.Nodup
  apart : [kernel.shmpgtable.segmentFrames, (kernel.kmem.freelist : Multiset ℕ),
    kernel.privateFrames, kernel.tablePages, kernel.stackFrames].Pairwise Disjoint
  unmapped : ∀ q < nProc, (kernel.proc q).state ≠ .unused → ∀ b < kernBase,
    isPresent ((kernel.proc q).pgdir.pte b) = true →
    p2v (pteAddr ((kernel.proc q).pgdir.pte b)) ∉ kernel.kmem.freelist ∧
      p2v (pteAddr ((kernel.proc q).pgdir.pte b)) ∉ kernel.shmpgtable.segmentFrames

theorem Kernel.procFrames_eq :
    kernel.procFrames = kernel.privateFrames + (kernel.tablePages + kernel.stackFrames) := by
  unfold procFrames privateFrames tablePages stackFrames
  rw [← Finset.sum_add_distrib, ← Finset.sum_add_distrib]
  apply Finset.sum_congr rfl
  intro q _
  unfold Proc.frames Pgdir.frames
  split
  · rfl
  · abel

end Owners

theorem Kernel.mem_privateFrames {kernel : Kernel} (hq : q < nProc)
    (hused : (kernel.proc q).state ≠ .unused) (hv : v ∈ (kernel.proc q).pgdir.userFrames) :
    v ∈ kernel.privateFrames := by
  refine Multiset.mem_sum.mpr ⟨q, Finset.mem_range.mpr hq, ?_⟩
  rwa [if_neg hused]

/-- What a live slot records is in the kernel half, and is held by the slot if it is a frame. -/
theorem ShmPgTable.Sane.segmentFrames {table : ShmPgTable} (hsane : table.Sane)
    (hv : v ∈ table.segmentFrames) :
    kernBase ≤ v ∧ (IsFrame v → v ∈ table.slotFrames shmMaxSeg) := by
  rw [ShmPgTable.segmentFrames_eq] at hv
  obtain ⟨i, hi, hmem⟩ := Multiset.mem_sum.mp hv
  have hlive : v = p2v (table.shmSegs i).pa := by
    unfold ShmidDs.frames at hmem
    split at hmem
    · cases hmem
    · exact Multiset.mem_singleton.mp hmem
  have hbelow := (hsane.slots i).below
  have hconverted : v = (table.shmSegs i).pa + kernBase := by
    rw [hlive, p2v_eq_v2p, v2p_of_lt (lt_trans hbelow (by decide))]
  refine ⟨by omega, fun hframe ↦ ?_⟩
  rw [hlive]
  apply ShmPgTable.mem_slotFrames
  · have hlast := hsane.last_lt
    have hbound := Finset.mem_range.mp hi
    unfold ShmPgTable.bound at hbound
    omega
  · intro hzero
    rw [hconverted, hzero] at hframe
    exact absurd hframe (by decide)

/-- An address at or above `KERNBASE` is that of no frame and of no slot. -/
theorem p2v_lt_of_foreign {pte : ℕ} (h : kernBase ≤ pteAddr pte) :
    p2v (pteAddr pte) < kernBase := by
  have hword : pteAddr pte < Word.size := lt_of_le_of_lt Nat.and_le_right (by decide)
  unfold p2v Word.add Word.size kernBase at *
  omega

/-- Whatever the calls and their arguments, the frames are owned as they should be in every state of
every run that stays in bounds. -/
theorem frames_owned_of_runs {start kernel : Kernel} (hboot : Boot start)
    (hframes : ∀ v ∈ start.frames, IsFrame v) (hrun : Runs step InBounds start kernel) :
    kernel.FramesOwned := by
  have hcustody := hboot.custody_of_runs hframes hrun
  have hforeign := hrun.invariant (fun kernel ↦ kernel.Sane ∧ kernel.ForeignWindows)
      ⟨hboot.sane, hboot.foreignWindows⟩ fun _ _ _ _ h _ hstep ↦
        ⟨h.1.step hstep, h.2.step h.1 hstep⟩
  obtain ⟨hunshared, -, hslots⟩ := Multiset.nodup_add.mp hcustody.nodup
  have hisFrame (v : ℕ) (hv : v ∈ kernel.unsharedFrames) : IsFrame v :=
    hcustody.isFrame v (Multiset.mem_add.mpr (Or.inl hv))
  have hsegment (v : ℕ) (hv : v ∈ kernel.unsharedFrames) : v ∉ kernel.shmpgtable.segmentFrames := by
    intro hmem
    exact Multiset.disjoint_left.mp hslots hv
      ((hcustody.sane.table.segmentFrames hmem).2 (hisFrame v hv))
  have hsum : kernel.unsharedFrames = [(kernel.kmem.freelist : Multiset ℕ), kernel.privateFrames,
      kernel.tablePages, kernel.stackFrames].sum := by
    simp only [List.sum_cons, List.sum_nil, add_zero]
    rw [Kernel.unsharedFrames, Kernel.procFrames_eq]
  rw [hsum] at hunshared
  have hpairs := Cells.pairwise_disjoint_of_nodup_sum hunshared
  refine ⟨?_, List.pairwise_cons.mpr ⟨fun frames hmem ↦ ?_, hpairs⟩,
    fun q hq hused b hb hpresent ↦ ?_⟩
  · have hfree := Multiset.nodup_of_le (List.le_sum_of_mem List.mem_cons_self) hunshared
    exact Multiset.coe_nodup.mp hfree
  · refine Multiset.disjoint_right.mpr fun {v} hv ↦ hsegment v ?_
    rw [hsum]
    exact Multiset.mem_of_le (List.le_sum_of_mem hmem) hv
  · by_cases hlow : b < heapLimit
    · have hprivate := Kernel.mem_privateFrames hq hused
        (Pgdir.mem_userFrames_of_present hlow hpresent)
      have hdisjoint := List.rel_of_pairwise_cons hpairs List.mem_cons_self
      refine ⟨fun hfree ↦ Multiset.disjoint_left.mp hdisjoint hfree hprivate, hsegment _ ?_⟩
      rw [hsum]
      exact Multiset.mem_of_le (List.le_sum_of_mem (by simp)) hprivate
    · have hbeyond := p2v_lt_of_foreign (hforeign.2 q hused b (not_lt.mp hlow) hb hpresent)
      refine ⟨fun hfree ↦ ?_, fun hmem ↦ ?_⟩
      · exact absurd (kernel.kmem.isFrame _ hfree).kernBase_le (not_le.mpr hbeyond)
      · exact absurd (hcustody.sane.table.segmentFrames hmem).1 (not_le.mpr hbeyond)

/-- A process with a private page has a page of a segment attached. -/
theorem frames_owned_of_runs_attached : ∃ kernel : Kernel,
    Runs step InBounds (startKernel 8) kernel ∧
      isPresent ((kernel.proc 2).pgdir.pte heapLimit) = true ∧
      isPresent ((kernel.proc 2).pgdir.pte 0) = true ∧ (kernel.shmpgtable.shmSegs 0).pa ≠ 0 ∧
      kernel.FramesOwned := by
  obtain ⟨kernel, hrun, hshared, hprivate, hpa⟩ :
      ∃ kernel, Runs step InBounds (startKernel 8) kernel ∧
        isPresent ((kernel.proc 2).pgdir.pte heapLimit) = true ∧
        isPresent ((kernel.proc 2).pgdir.pte 0) = true ∧ (kernel.shmpgtable.shmSegs 0).pa ≠ 0 := by
    apply Runs.of_labels [startLabel (.shmget 5 4096 ipcCreat), startLabel (.shmat 0 0 2),
      startLabel (.sbrk 4096)]
    decide +kernel
  exact ⟨kernel, hrun, hshared, hprivate, hpa,
    frames_owned_of_runs (startKernel_boot _) (startKernel_isFrame _) hrun⟩

/-- An identifier far below zero has its slot in the first page of the process. If a slot with the
frame of the second page stands there, `removeshm` puts that frame on the free list. -/
theorem removeshm_frees_private : ∃ kernel kernel' : Kernel,
    Runs step InBounds (startKernel 4) kernel ∧
    step kernel (startLabel (.removeshm (-53714362) 0)) = .error (.outOfBounds .shmSegs) ∧
    slotAddr (-53714362) = 4004 ∧ (kernel.proc 2).sz = 2 * pgSize ∧
    (kernel.pageSlot 2 pgSize).pages = 1 ∧
    removeOutside kernel (kernel.pageSlot 2 pgSize) = .ok (kernel', 0) ∧
    ¬ kernel'.FramesOwned := by
  obtain ⟨kernel, hrun, hstep, hsz, kernel', hremove, hused, hpresent, hfree⟩ : ∃ kernel,
      Runs step InBounds (startKernel 4) kernel ∧
      step kernel (startLabel (.removeshm (-53714362) 0)) = .error (.outOfBounds .shmSegs) ∧
      (kernel.proc 2).sz = 2 * pgSize ∧ ∃ kernel' : Kernel,
        removeOutside kernel (kernel.pageSlot 2 pgSize) = .ok (kernel', 0) ∧
        (kernel'.proc 2).state ≠ .unused ∧
        isPresent ((kernel'.proc 2).pgdir.pte pgSize) = true ∧
        p2v (pteAddr ((kernel'.proc 2).pgdir.pte pgSize)) ∈ kernel'.kmem.freelist := by
    apply Runs.of_labels [startLabel (.shmget 5 4096 ipcCreat), startLabel (.sbrk 8192)]
    decide +kernel
  refine ⟨kernel, kernel', hrun, hstep, by decide, hsz, kernel.pages_pageSlot _ _,
    hremove, fun howned ↦ ?_⟩
  exact (howned.unmapped 2 (by decide) hused pgSize (by decide) hpresent).1 hfree

/-- A process has a frame mapped at an address. -/
def Kernel.Maps (kernel : Kernel) (q va v : ℕ) : Prop :=
  q < nProc ∧ (kernel.proc q).state ≠ .unused ∧ isPresent ((kernel.proc q).pgdir.pte va) = true ∧
    v = p2v (pteAddr ((kernel.proc q).pgdir.pte va))

theorem Kernel.Maps.mem_frames {kernel : Kernel} {va : ℕ} (h : kernel.Maps q va v)
    (hva : va < heapLimit) : v ∈ (kernel.proc q).frames := by
  obtain ⟨-, hused, hpresent, hv⟩ := h
  rw [Proc.frames_of_ne hused, hv]
  exact Multiset.mem_add.mpr (Or.inr (Pgdir.mem_frames_of_present hva hpresent))

/-- Whatever the calls, as long as they stay in bounds, no other process has the frame of a private
page mapped, neither below `HEAPLIMIT` nor in the window. -/
theorem private_frame_of_one_process {start kernel : Kernel} (hboot : Boot start)
    (hframes : ∀ v ∈ start.frames, IsFrame v) (hrun : Runs step InBounds start kernel)
    {q r a b v : ℕ} (hprivate : kernel.Maps q a v) (ha : a < heapLimit)
    (hother : kernel.Maps r b v) (hb : b < kernBase) : r = q := by
  have hcustody := hboot.custody_of_runs hframes hrun
  have hle : kernel.procFrames ≤ kernel.heldFrames :=
    (Multiset.le_add_left _ _).trans (Multiset.le_add_right _ _)
  have hq := Finset.mem_range.mpr hprivate.1
  have hframe := hcustody.isFrame v
    (Multiset.mem_of_le hle (Multiset.mem_sum.mpr ⟨q, hq, hprivate.mem_frames ha⟩))
  have hlow : b < heapLimit := by
    by_contra hwindow
    have hforeign := hrun.invariant (fun kernel ↦ kernel.Sane ∧ kernel.ForeignWindows)
      ⟨hboot.sane, hboot.foreignWindows⟩ fun _ _ _ _ h _ hstep ↦
        ⟨h.1.step hstep, h.2.step h.1 hstep⟩
    obtain ⟨-, hused, hpresent, hv⟩ := hother
    have hbeyond := p2v_lt_of_foreign (hforeign.2 r hused b (not_lt.mp hwindow) hb hpresent)
    exact absurd hframe.kernBase_le (not_le.mpr (hv ▸ hbeyond))
  by_contra hne
  have hdisjoint := Cells.nodup_sum_disjoint (fun s ↦ (kernel.proc s).frames)
    (Multiset.nodup_of_le hle hcustody.nodup) (Finset.mem_range.mpr hother.1) hq hne
  exact Multiset.disjoint_left.mp hdisjoint (hother.mem_frames hlow) (hprivate.mem_frames ha)

/-- A process gets a page. -/
theorem private_frame_of_one_process_grown : ∃ (kernel : Kernel) (v : ℕ), kernel.Maps 2 0 v ∧
    ∀ r b, kernel.Maps r b v → b < kernBase → r = 2 := by
  obtain ⟨kernel, hrun, hpresent⟩ : ∃ kernel, Runs step InBounds (startKernel 2) kernel ∧
        (kernel.proc 2).state ≠ .unused ∧ isPresent ((kernel.proc 2).pgdir.pte 0) = true := by
    apply Runs.of_labels [startLabel (.sbrk 4096)]
    decide +kernel
  have hmaps : kernel.Maps 2 0 _ := ⟨by decide, hpresent.1, hpresent.2, rfl⟩
  exact ⟨kernel, _, hmaps, fun r b hother hb ↦ private_frame_of_one_process (startKernel_boot _)
    (startKernel_isFrame _) hrun hmaps (by decide) hother hb⟩

end Xv6Shm
