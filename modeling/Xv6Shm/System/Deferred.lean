import Xv6Shm.System.Coherence

/-!
# Deferred destruction

A segment for which a removal has been requested is to be marked, and to be gone once nothing is
attached to it. A history variable records the requests. `shmdt` marks every segment it detaches and
`IPC_RMID` marks segments that nothing is attached to, so the law holds only along runs that avoid
both.
-/

namespace Xv6Shm

open Fallible ShmPgTable ShmidDs

variable {t s shmflag : ℕ} {shmid shmaddr : ℤ}

/-- The call asks for the removal of the segment at slot `s`. -/
def RequestsRemoval (kernel : Kernel) (label : Label) (s : ℕ) : Prop :=
  match label.call with
  | .shmctl shmid cmd _ => cmd = ipcRmid ∧ shmid = s
  | .removeshm shmIdentifier flag => kernel.shmpgtable.Resolves shmIdentifier flag s
  | _ => False

/-- The segments for which a removal was requested since their creation, brought up to date by a
step. -/
def noteRequests (requested : Set ℕ) (kernel : Kernel) (label : Label) (kernel' : Kernel)
    (_ : ℤ) : Set ℕ :=
  {s | (s ∈ requested ∨ RequestsRemoval kernel label s) ∧
    (s ∈ kernel'.shmpgtable.bases → s ∈ kernel.shmpgtable.bases)}

/-- A slot of the segment carries the mark. -/
def ShmPgTable.Marked (table : ShmPgTable) (s : ℕ) : Prop :=
  ∃ i, s ≤ i ∧ i < s + table.pagesAt s ∧ (table.shmSegs i).shmPerm.mode &&& shmDest ≠ 0

/-- The condition on a call that names whole segments: a detach is not the last one of its segment
and comes after a request, and `IPC_RMID` is for segments that are attached. -/
def Deferring (kernel : Kernel) (requested : Set ℕ) (label : Label) : Prop :=
  match label.call with
  | .shmget _ _ _ | .removeshm _ _ => True
  | .shmat shmid _ _ => (kernel.shmpgtable.shmSegs shmid.toNat).shmNattch + 1 < Word.size
  | .shmdt shmaddr =>
    ∀ s : ℕ, (kernel.proc label.proc).shmsegs (addrSlot shmaddr) = ⟨true, s⟩ →
      s ∈ requested ∧ 1 < (kernel.shmpgtable.shmSegs s).shmNattch ∧
        (kernel.shmpgtable.shmSegs s).shmNattch < Word.size
  | .shmctl shmid cmd _ => cmd = ipcRmid ∧ kernel.shmpgtable.isMiddle shmid = false ∧
      (kernel.shmpgtable.isLive shmid.toNat = true →
        (kernel.shmpgtable.shmSegs shmid.toNat).shmNattch ≠ 0)
  | _ => False

/-- Every marked segment is one to be removed, and one that is attached. -/
def MarksDeferred (table : ShmPgTable) (requested : Set ℕ) : Prop :=
  ∀ s ∈ table.bases, table.Marked s → s ∈ requested ∧ (table.shmSegs s).shmNattch ≠ 0

section Marks

variable {table table' : ShmPgTable}

theorem ShmPgTable.Marked.of_others (hpos : 0 < table.pagesAt t)
    (hsame : ∀ i, t ≤ i → i < t + table.pagesAt t → table'.shmSegs i = table.shmSegs i)
    (hmarked : table'.Marked t) :
    table.Marked t ∧ (table'.shmSegs t).shmNattch = (table.shmSegs t).shmNattch := by
  have hfirst := hsame t le_rfl (by omega)
  have hpages : table'.pagesAt t = table.pagesAt t := by
    rw [pagesAt, hfirst, pagesAt]
  obtain ⟨i, hti, hlt, hmode⟩ := hmarked
  rw [hpages] at hlt
  rw [hsame i hti hlt] at hmode
  exact ⟨⟨i, hti, hlt, hmode⟩, by rw [hfirst]⟩

theorem MarksDeferred.other {requested : Set ℕ} (h : MarksDeferred table requested)
    (hcoherent : Coherent table) (ht : t ∈ table.bases)
    (hsame : ∀ i, t ≤ i → i < t + table.pagesAt t → table'.shmSegs i = table.shmSegs i)
    (hmarked : table'.Marked t) : t ∈ requested ∧ (table'.shmSegs t).shmNattch ≠ 0 := by
  obtain ⟨hbefore, hnattch⟩ := hmarked.of_others (hcoherent.tiling.positive t ht) hsame
  rw [hnattch]
  exact h t ht hbefore

/-- A call that works on the slots of one segment is right about the others. -/
theorem MarksDeferred.segment {requested requested' : Set ℕ}
    (h : MarksDeferred table requested) (hcoherent : Coherent table) (hs : s ∈ table.bases)
    (hbases : table'.bases ⊆ table.bases) (hkept : ∀ t ∈ requested, t ∈ requested')
    (hsame : ∀ i, i < s ∨ s + table.pagesAt s ≤ i → table'.shmSegs i = table.shmSegs i)
    (hsegment : s ∈ table'.bases → table'.Marked s →
      s ∈ requested' ∧ (table'.shmSegs s).shmNattch ≠ 0) : MarksDeferred table' requested' := by
  intro t ht hmarked
  by_cases hts : t = s
  · subst hts
    exact hsegment ht hmarked
  · have hbefore := hbases ht
    obtain ⟨hrequested, hnattch⟩ := h.other hcoherent hbefore
      (fun i hti hlt ↦ hsame i (hcoherent.outside hs hbefore hts hti hlt)) hmarked
    exact ⟨hkept t hrequested, hnattch⟩

theorem perm_and_shmDest (shmflag : ℕ) : shmflag &&& 3 &&& shmDest = 0 := by
  rw [Nat.land_assoc]
  exact Nat.and_zero shmflag

end Marks

section Calls

variable {kernel kernel' : Kernel} {label : Label} {result : ℤ} {requested : Set ℕ}

/-- A call that creates no segment only adds requests. -/
theorem noteRequests_of_subset (h : kernel'.shmpgtable.bases ⊆ kernel.shmpgtable.bases) :
    noteRequests requested kernel label kernel' result =
      {s | s ∈ requested ∨ RequestsRemoval kernel label s} :=
  Set.ext fun _ ↦ and_iff_left fun hs ↦ h hs

theorem MarksDeferred.unchanged (h : MarksDeferred kernel.shmpgtable requested)
    (hlast : kernel'.shmpgtable.lastShmSegIndex = kernel.shmpgtable.lastShmSegIndex)
    (hslots : kernel'.shmpgtable.shmSegs = kernel.shmpgtable.shmSegs) :
    MarksDeferred kernel'.shmpgtable (noteRequests requested kernel label kernel' result) := by
  have hbases : kernel'.shmpgtable.bases = kernel.shmpgtable.bases := by
    unfold bases bound isLive pagesAt
    rw [hlast, hslots]
  rw [noteRequests_of_subset hbases.subset]
  intro t ht hmarked
  unfold ShmPgTable.Marked pagesAt at hmarked
  rw [hbases] at ht
  rw [hslots] at hmarked ⊢
  exact ⟨Or.inl (h t ht hmarked).1, (h t ht hmarked).2⟩

theorem Coherent.ne_of_empty {table : ShmPgTable} (h : Coherent table) {i : ℕ}
    (hempty : table.pagesAt s = 0) (ht : t ∈ table.bases) (hti : t ≤ i)
    (hlt : i < t + table.pagesAt t) : i ≠ s := by
  rintro rfl
  have hsame := (h.agree t ht i hti hlt).pages
  have hpos := h.tiling.positive t ht
  unfold pagesAt at hempty hpos
  omega

variable (hintact : kernel.Intact) (hdeferred : MarksDeferred kernel.shmpgtable requested)

include hintact hdeferred

theorem deferred_shmget {key : ℤ} {size : ℕ}
    (hstructured : MayCreate kernel (shmgetKey label.clock key) size shmflag)
    (h : shmgetHelper kernel label.proc label.clock key size shmflag = .ok (kernel', result)) :
    MarksDeferred kernel'.shmpgtable (noteRequests requested kernel label kernel' result) := by
  have hcoherent := hintact.coherent
  rcases structured_shmget hintact hstructured h with
    ⟨rfl, -⟩ | ⟨-, -, index, append, frames, kmem, -, hlength, -, hkernel, hnew⟩
  · exact hdeferred.unchanged rfl rfl
  · obtain ⟨-, hbases⟩ := hcoherent.insert hnew
    intro t ht hmarked
    rw [hbases, Finset.mem_insert] at ht
    rcases ht with rfl | ht
    · obtain ⟨i, hti, hlt, hmode⟩ := hmarked
      rw [hnew.pages] at hlt
      have hslot : (kernel'.shmpgtable.shmSegs i).shmPerm.mode = shmflag &&& 3 := by
        subst hkernel
        unfold Kernel.created
        rw [created_of_mem hti (by omega)]
        rfl
      rw [hslot, perm_and_shmDest] at hmode
      exact absurd rfl hmode
    · obtain ⟨hrequested, hnattch⟩ := hdeferred.other hcoherent ht
        (fun i hti hlt ↦ hnew.others i (hnew.apart hcoherent ht hti hlt)) hmarked
      exact ⟨⟨Or.inl hrequested, fun _ ↦ ht⟩, hnattch⟩

theorem deferred_shmat (hmiddle : kernel.shmpgtable.isMiddle shmid = false)
    (hwrap : (kernel.shmpgtable.shmSegs shmid.toNat).shmNattch + 1 < Word.size)
    (h : shmatHelper kernel label.proc label.clock shmid shmaddr shmflag = .ok (kernel', result)) :
    MarksDeferred kernel'.shmpgtable (noteRequests requested kernel label kernel' result) := by
  have hcoherent := hintact.coherent
  rcases structured_shmat hintact hmiddle h with
    ⟨rfl, -⟩ | ⟨s, w, rfl, hs, -, -, ⟨st, -, hkernel, -⟩ | ⟨-, -, -, rfl⟩⟩
  · exact hdeferred.unchanged rfl rfl
  · have hcounted := Recounted.attached hcoherent hs label.clock (kernel.proc label.proc).pid
    have htable : kernel'.shmpgtable = kernel.shmpgtable.onPages s (kernel.shmpgtable.pagesAt s)
        (attached label.clock (kernel.proc label.proc).pid) := by
      rw [hkernel, Kernel.putAttaching_shmpgtable, pagesAt]
    have hpos := hcoherent.tiling.positive s hs
    rw [noteRequests_of_subset (by rw [htable, hcounted.bases]), htable]
    refine hdeferred.segment hcoherent hs hcounted.bases.subset (fun t ht ↦ Or.inl ht)
      (fun i hi ↦ onPages_of_not_mem hi) fun _ hmarked ↦ ?_
    obtain ⟨i, hsi, hlt, hmode⟩ := hmarked
    rw [hcounted.pagesAt] at hlt
    rw [onPages_of_mem hsi hlt] at hmode
    refine ⟨Or.inl (hdeferred s hs ⟨i, hsi, hlt, hmode⟩).1, ?_⟩
    rw [Int.toNat_natCast] at hwrap
    rw [onPages_of_mem le_rfl (Nat.lt_add_of_pos_right hpos)]
    unfold attached
    dsimp only
    rw [Word.add_eq hwrap]
    omega
  · exact hdeferred.unchanged rfl rfl

theorem deferred_shmdt (hmiddle : kernel.shmpgtable.isMiddle
      ((kernel.proc label.proc).shmsegs (addrSlot shmaddr)).shmid = false)
    (hlast : ∀ s : ℕ, (kernel.proc label.proc).shmsegs (addrSlot shmaddr) = ⟨true, s⟩ →
      s ∈ requested ∧ 1 < (kernel.shmpgtable.shmSegs s).shmNattch ∧
        (kernel.shmpgtable.shmSegs s).shmNattch < Word.size)
    (h : shmdtHelper kernel label.proc label.clock shmaddr = .ok (kernel', result)) :
    MarksDeferred kernel'.shmpgtable (noteRequests requested kernel label kernel' result) := by
  have hcoherent := hintact.coherent
  rcases shmdtHelper_cases hintact.sane.table h with
    ⟨rfl, -⟩ | ⟨-, -, -, hattached, s, st, hdetaches⟩
  · exact hdeferred.unchanged rfl rfl
  · obtain ⟨hrequested, hmany, hword⟩ := hlast s (by rw [← hattached, ← hdetaches.recorded])
    rw [hdetaches.recorded] at hmiddle
    have hbase := hcoherent.base_or_empty hmiddle
    have hcounted := Recounted.detached hcoherent hbase label.clock (kernel.proc label.proc).pid
    have htable : kernel'.shmpgtable = (kernel.shmpgtable.onPages s (kernel.shmpgtable.pagesAt s)
          (detached label.clock (kernel.proc label.proc).pid)).onPages s 1
            markDest := by
      rw [hdetaches.result, Kernel.putAttaching_shmpgtable, pagesAt]
    rw [noteRequests_of_subset (by rw [htable, hcounted.bases]), htable]
    rcases hbase with hs | hempty
    · have hpos := hcoherent.tiling.positive s hs
      refine hdeferred.segment hcoherent hs hcounted.bases.subset (fun t ht ↦ Or.inl ht)
        (fun i hi ↦ ?_) fun _ _ ↦ ⟨Or.inl hrequested, ?_⟩
      · rw [onPages_of_not_mem (by omega), onPages_of_not_mem hi]
      · rw [onPages_of_mem le_rfl (by omega), onPages_of_mem le_rfl (Nat.lt_add_of_pos_right hpos)]
        unfold markDest detached
        dsimp only
        rw [Word.sub_eq hmany.le hword]
        omega
    · -- Only the mode of a slot without pages is written.
      intro t ht hmarked
      rw [hcounted.bases] at ht
      obtain ⟨hwanted, hnattch⟩ := hdeferred.other hcoherent ht (fun i hti hlt ↦ by
        have hne := hcoherent.ne_of_empty hempty ht hti hlt
        rw [onPages_of_not_mem (by omega), onPages_of_not_mem (by omega)]) hmarked
      exact ⟨Or.inl hwanted, hnattch⟩

/-- A call that was to remove a segment marks it, which is attached. -/
theorem deferred_mark {mark : ShmidDs → ShmidDs} (hs : s ∈ kernel.shmpgtable.bases)
    (htable : kernel'.shmpgtable =
      kernel.shmpgtable.onPages s (kernel.shmpgtable.pagesAt s) mark)
    (hbases : (kernel.shmpgtable.onPages s (kernel.shmpgtable.pagesAt s) mark).bases =
      kernel.shmpgtable.bases)
    (hremoval : RequestsRemoval kernel label s)
    (hattached : (mark (kernel.shmpgtable.shmSegs s)).shmNattch ≠ 0) :
    MarksDeferred kernel'.shmpgtable (noteRequests requested kernel label kernel' result) := by
  have hpos := hintact.coherent.tiling.positive s hs
  rw [noteRequests_of_subset (by rw [htable, hbases]), htable]
  refine hdeferred.segment hintact.coherent hs hbases.subset (fun t ht ↦ Or.inl ht)
    (fun i hi ↦ onPages_of_not_mem hi) fun _ _ ↦ ⟨Or.inr hremoval, ?_⟩
  rw [onPages_of_mem le_rfl (Nat.lt_add_of_pos_right hpos)]
  exact hattached

theorem deferred_rmid {buf buf' : ShmidDs} (hcall : label.call = .shmctl shmid ipcRmid buf)
    (hmiddle : kernel.shmpgtable.isMiddle shmid = false)
    (hattached : kernel.shmpgtable.isLive shmid.toNat = true →
      (kernel.shmpgtable.shmSegs shmid.toNat).shmNattch ≠ 0)
    (h : shmctlHelper kernel shmid ipcRmid buf = .ok (kernel', result, buf')) :
    MarksDeferred kernel'.shmpgtable (noteRequests requested kernel label kernel' result) := by
  have hcoherent := hintact.coherent
  rcases shmctlHelper_cases h with
    rfl | ⟨s, rfl, -, hlast, hkey, ⟨hset, -⟩ | ⟨-, -, hkernel⟩⟩
  · exact hdeferred.unchanged rfl rfl
  · exact absurd hset (by decide)
  · have hlive := isLive_iff.mpr hkey
    have hs := hcoherent.base_of_isLive (lt_bound hlast) hlive hmiddle
    refine deferred_mark hintact hdeferred hs (by rw [hkernel, pagesAt])
      (Recounted.markDest hcoherent s _).bases ?_ (hattached hlive)
    unfold RequestsRemoval
    rw [hcall]
    exact ⟨rfl, rfl⟩

theorem deferred_removeshm {shmIdentifier flag : ℤ}
    (hcall : label.call = .removeshm shmIdentifier flag)
    (hmay : MayRemove kernel.shmpgtable shmIdentifier flag)
    (h : removeshmHelper kernel shmIdentifier flag = .ok (kernel', result)) :
    MarksDeferred kernel'.shmpgtable (noteRequests requested kernel label kernel' result) := by
  have hcoherent := hintact.coherent
  rcases structured_removeshm hintact hmay h with
    ⟨htable, -⟩ | ⟨s, hresolves, hs, ⟨-, hattached, hkernel⟩ | ⟨-, -, kmem, -, hkernel⟩⟩
  · exact hdeferred.unchanged (by rw [htable]) (by rw [htable])
  · refine deferred_mark hintact hdeferred hs (by rw [hkernel])
      (Recounted.setDest hcoherent hs).bases ?_ hattached
    unfold RequestsRemoval
    rw [hcall]
    exact hresolves
  · obtain ⟨-, hbases⟩ := hcoherent.freed hs
    have htable : kernel'.shmpgtable = kernel.shmpgtable.onPages s (kernel.shmpgtable.pagesAt s)
        fun _ ↦ freed := by rw [hkernel]
    have hsubset : kernel'.shmpgtable.bases ⊆ kernel.shmpgtable.bases := by
      rw [htable, hbases]
      exact Finset.erase_subset s _
    rw [noteRequests_of_subset hsubset]
    refine hdeferred.segment hcoherent hs hsubset (fun t ht ↦ Or.inl ht)
      (fun i hi ↦ by rw [htable, onPages_of_not_mem hi]) fun hkept _ ↦ ?_
    rw [htable, hbases] at hkept
    exact absurd rfl (Finset.mem_erase.mp hkept).1

theorem deferred_step (hstructured : Structured kernel label)
    (hdeferring : Deferring kernel requested label)
    (h : step kernel label = .ok (kernel', result)) :
    MarksDeferred kernel'.shmpgtable (noteRequests requested kernel label kernel' result) := by
  obtain ⟨-, -, hcall⟩ := step_eq_ok h
  obtain ⟨p, clock, call⟩ := label
  cases call with
  | shmget key size shmflag =>
    exact deferred_shmget hintact hdeferred hstructured hcall
  | shmat shmid shmaddr shmflag =>
    exact deferred_shmat hintact hdeferred hstructured hdeferring hcall
  | shmdt shmaddr =>
    exact deferred_shmdt hintact hdeferred hstructured hdeferring hcall
  | shmctl shmid cmd buf =>
    obtain ⟨rfl, hmiddle, hattached⟩ := hdeferring
    obtain ⟨buf', hctl⟩ := perform_shmctl hcall
    exact deferred_rmid hintact hdeferred rfl hmiddle hattached hctl
  | removeshm shmIdentifier flag =>
    exact deferred_removeshm hintact hdeferred rfl hstructured hcall
  | sbrk n => exact hdeferring.elim
  | fork => exact hdeferring.elim
  | exec file argv => exact hdeferring.elim
  | exit => exact hdeferring.elim
  | wait => exact hdeferring.elim

end Calls

/-- Along a run of deferring calls on whole segments, a segment carries the mark only if its removal
was requested, and none that carries it is unattached. -/
theorem marks_deferred_of_deferring {start kernel : Kernel} {requested : Set ℕ} (hboot : Boot start)
    (hrun : Runs (observe step noteRequests)
      (fun observed label ↦ Structured observed.1 label ∧ Deferring observed.1 observed.2 label)
      (start, ∅) (kernel, requested)) :
    ∀ s ∈ kernel.shmpgtable.bases, kernel.shmpgtable.Marked s →
      s ∈ requested ∧ (kernel.shmpgtable.shmSegs s).shmNattch ≠ 0 := by
  refine (hrun.invariant
    (fun observed ↦ observed.1.Intact ∧ MarksDeferred observed.1.shmpgtable observed.2) ?_ ?_).2
  · refine ⟨hboot.intact, fun s hs ↦ ?_⟩
    rw [hboot.table] at hs
    exact absurd hs (Finset.notMem_empty s)
  · rintro ⟨state, history⟩ label ⟨next, history'⟩ result ⟨hintact, hdeferred⟩
      ⟨hstructured, hdeferring⟩ hstep
    obtain ⟨hok, hnote⟩ := observe_eq_ok.mp hstep
    dsimp only at hnote
    subst hnote
    exact ⟨(hintact.step hstructured hok).1,
      deferred_step hintact hdeferred hstructured hdeferring hok⟩

/-- Creating, attaching and detaching a segment leaves it marked and unattached, although nobody
asked for its removal. -/
theorem shmdt_marks_unrequested : ∃ created attached detached : Kernel, Boot (startKernel 2) ∧
      step (startKernel 2) (startLabel (.shmget 5 4096 ipcCreat)) = .ok (created, 0) ∧
      step created (startLabel (.shmat 0 0 0)) = .ok (attached, windowAddr 0) ∧
      step attached (startLabel (.shmdt (windowAddr 0))) = .ok (detached, 0) ∧
      0 ∈ detached.shmpgtable.bases ∧ detached.shmpgtable.Marked 0 ∧
      (detached.shmpgtable.shmSegs 0).shmNattch = 0 := by
  obtain ⟨created, hget, attached, hat, detached, hdt, hbase, hpages, hmode, hnattch⟩ : ∃ created,
      step (startKernel 2) (startLabel (.shmget 5 4096 ipcCreat)) = .ok (created, 0) ∧
      ∃ attached, step created (startLabel (.shmat 0 0 0)) = .ok (attached, windowAddr 0) ∧
      ∃ detached, step attached (startLabel (.shmdt (windowAddr 0))) = .ok (detached, 0) ∧
        0 ∈ detached.shmpgtable.bases ∧ detached.shmpgtable.pagesAt 0 = 1 ∧
        (detached.shmpgtable.shmSegs 0).shmPerm.mode &&& shmDest ≠ 0 ∧
        (detached.shmpgtable.shmSegs 0).shmNattch = 0 := by
    decide +kernel
  exact ⟨created, attached, detached, startKernel_boot _, hget, hat, hdt, hbase,
    ⟨0, le_rfl, by omega, hmode⟩, hnattch⟩

/-- A segment that is attached is marked by `IPC_RMID`. -/
theorem marks_deferred_of_deferring_rmid : ∃ (kernel : Kernel) (requested : Set ℕ),
    Runs (observe step noteRequests)
      (fun observed label ↦ Structured observed.1 label ∧ Deferring observed.1 observed.2 label)
      (startKernel 2, ∅) (kernel, requested) ∧
      0 ∈ kernel.shmpgtable.bases ∧ kernel.shmpgtable.Marked 0 ∧
      ∀ s ∈ kernel.shmpgtable.bases, kernel.shmpgtable.Marked s →
        s ∈ requested ∧ (kernel.shmpgtable.shmSegs s).shmNattch ≠ 0 := by
  obtain ⟨created, id, hget, hattach, hwrap, attached, va, hat, ⟨hmark, hmiddle, hnattch⟩,
      marked, outcome, hctl, hbase, hpages, hmode⟩ : ∃ created id,
      step (startKernel 2) (startLabel (.shmget 5 4096 ipcCreat)) = .ok (created, id) ∧
      Structured created (startLabel (.shmat 0 0 0)) ∧
      (created.shmpgtable.shmSegs 0).shmNattch + 1 < Word.size ∧
      ∃ attached va, step created (startLabel (.shmat 0 0 0)) = .ok (attached, va) ∧
      (Structured attached (startLabel (.shmctl 0 ipcRmid freed)) ∧
        attached.shmpgtable.isMiddle 0 = false ∧ (attached.shmpgtable.shmSegs 0).shmNattch ≠ 0) ∧
      ∃ marked outcome, step attached (startLabel (.shmctl 0 ipcRmid freed)) =
          .ok (marked, outcome) ∧ 0 ∈ marked.shmpgtable.bases ∧ marked.shmpgtable.pagesAt 0 = 1 ∧
        (marked.shmpgtable.shmSegs 0).shmPerm.mode &&& shmDest ≠ 0 := by
    decide +kernel
  have hfirst : Runs (observe step noteRequests)
      (fun observed label ↦ Structured observed.1 label ∧ Deferring observed.1 observed.2 label)
      (startKernel 2, ∅) (created, _) :=
    (Runs.refl _).observed ⟨by decide +kernel, by trivial⟩ hget
  have hsteps := (hfirst.observed ⟨hattach, hwrap⟩ hat).observed
    ⟨hmark, rfl, hmiddle, fun _ ↦ hnattch⟩ hctl
  exact ⟨marked, _, hsteps, hbase, ⟨0, le_rfl, by omega, hmode⟩,
    marks_deferred_of_deferring (startKernel_boot _) hsteps⟩

end Xv6Shm
