import Xv6Shm.Proc.Cases
import Xv6Shm.Shm.Cases

/-!
# The system of calls

The kernel as one transition system: a step is one completed call of one process. A call that faults
has no next state. A process that may run and one that runs are not told apart, and any of them can
make the next step. `Kernel.Sane` collects what holds in every reachable state whatever the callers
do.
-/

namespace Xv6Shm

open Fallible Function

inductive Call where
  | shmget (key : ℤ) (size shmflag : ℕ)
  | shmat (shmid shmaddr : ℤ) (shmflag : ℕ)
  | shmdt (shmaddr : ℤ)
  | shmctl (shmid cmd : ℤ) (buf : ShmidDs)
  | removeshm (shmIdentifier flag : ℤ)
  | sbrk (n : ℤ)
  | fork
  | exec (file : Option ExecFile) (argv : List (List UInt8))
  | exit
  | wait

/-- A call, the process that makes it and the clock it reads. -/
structure Label where
  proc : ℕ
  clock : Clock
  call : Call

/-- A process that can make a call. -/
def Proc.canRun (process : Proc) : Bool :=
  process.state == .runnable || process.state == .running

/-- The call of a process that can run. -/
def Kernel.perform (kernel : Kernel) (p : ℕ) (clock : Clock) : Call → Except Fault (Kernel × ℤ)
  | .shmget key size shmflag => shmgetHelper kernel p clock key size shmflag
  | .shmat shmid shmaddr shmflag => shmatHelper kernel p clock shmid shmaddr shmflag
  | .shmdt shmaddr => shmdtHelper kernel p clock shmaddr
  | .shmctl shmid cmd buf => do
    let (kernel, result, _) ← shmctlHelper kernel shmid cmd buf
    pure (kernel, result)
  | .removeshm shmIdentifier flag => removeshmHelper kernel shmIdentifier flag
  | .sbrk n => sysSbrk kernel p n
  | .fork => fork kernel p clock
  | .exec file argv => exec kernel p clock file argv
  | .exit => exit kernel p
  | .wait => wait kernel p

def step (kernel : Kernel) (label : Label) : Except Fault (Kernel × ℤ) :=
  if label.proc < nProc ∧ (kernel.proc label.proc).canRun then
    kernel.perform label.proc label.clock label.call
  else .error .blocked

/-- The call uses nothing outside the arrays of the kernel and no null pointer. Otherwise a run ends
here, while the C program goes on with other memory. -/
def InBounds (kernel : Kernel) (label : Label) : Prop :=
  match step kernel label with
  | .error (.outOfBounds _) | .error .nullPointer => False
  | _ => True

instance (kernel : Kernel) (label : Label) : Decidable (InBounds kernel label) := by
  unfold InBounds
  split <;> infer_instance

/-- Where the C program takes the slot of an identifier to be, with `shm_segs` at `0x8010b4b4`. -/
def slotAddr (shmid : ℤ) : ℕ := Word.ofInt (0x8010b4b4 + 40 * shmid)

/-- A slot that records the frame of a page of a process. -/
def Kernel.pageSlot (kernel : Kernel) (q va : ℕ) : ShmidDs :=
  .fresh (pteAddr ((kernel.proc q).pgdir.pte va)) 0 pgSize 0 0

theorem Kernel.pages_pageSlot (kernel : Kernel) (q va : ℕ) : (kernel.pageSlot q va).pages = 1 :=
  Nat.div_self (show 0 < pgSize by decide)

/-- `removeSegment` on a slot of one page outside the table, without the stores to that slot. -/
def removeOutside (kernel : Kernel) (slot : ShmidDs) : Except Fault (Kernel × ℤ) := do
  if slot.shmNattch = 0 ∧ slot.setDest.shmPerm.mode &&& shmDest ≠ 0 then
    let kmem ← kernel.kmem.kfree (v2p slot.pa)
    pure ({ kernel with kmem := kmem }, 0)
  else pure (kernel, -1)

variable {label : Label} {shmid cmd key pid shmaddr flag : ℤ} {buf : ShmidDs} {process : Proc}
  {s size perm shmflag : ℕ} {table : ShmPgTable} {frames : List ℕ}

theorem step_eq_ok {kernel kernel' : Kernel} {result : ℤ}
    (h : step kernel label = .ok (kernel', result)) :
    label.proc < nProc ∧ (kernel.proc label.proc).canRun = true ∧
      kernel.perform label.proc label.clock label.call = .ok (kernel', result) := by
  unfold step at h
  split at h
  · rename_i hrun
    exact ⟨hrun.1, hrun.2, h⟩
  · cases h

theorem perform_shmctl {kernel kernel' : Kernel} {p : ℕ} {clock : Clock} {result : ℤ}
    (h : kernel.perform p clock (.shmctl shmid cmd buf) = .ok (kernel', result)) :
    ∃ buf', shmctlHelper kernel shmid cmd buf = .ok (kernel', result, buf') := by
  obtain ⟨⟨next, value, buf'⟩, hctl, hpure⟩ := bind_eq_ok.mp h
  cases hpure
  exact ⟨buf', hctl⟩

theorem Proc.canRun_ne_unused (h : process.canRun = true) : process.state ≠ .unused := by
  unfold Proc.canRun at h
  intro hunused
  rw [hunused] at h
  exact Bool.false_ne_true h

/-- What a cell of an attachment array can record. -/
structure AttachedShmsegs.Sane (entry : AttachedShmsegs) : Prop where
  shmid_ge : -1 ≤ entry.shmid
  shmid_lt : entry.shmid < shmMaxSeg
  attached_ge : entry.isAttached = true → 0 ≤ entry.shmid

structure Kernel.Sane (kernel : Kernel) : Prop where
  table : kernel.shmpgtable.Sane
  sizes : ∀ q, (kernel.proc q).sz < heapLimit
  records : ∀ q w, ((kernel.proc q).shmsegs w).Sane

theorem AttachedShmsegs.Sane.none : AttachedShmsegs.none.Sane := ⟨by decide, by decide, by decide⟩

theorem AttachedShmsegs.Sane.attached (hs : s < shmMaxSeg) : AttachedShmsegs.Sane ⟨true, s⟩ :=
  ⟨by dsimp only; omega, by dsimp only; omega, fun _ ↦ by dsimp only; omega⟩

theorem ShmidDs.Sane.fresh {frame : ℕ} (hframe : IsFrame frame)
    (hmin : shmMin ≤ size) (hmax : size ≤ maxSegSize) :
    (ShmidDs.fresh (v2p frame) key (pgRoundUp size) pid perm).Sane := by
  obtain ⟨hpos, hle, hround⟩ := sizePages_spec hmin hmax
  refine ⟨Or.inr ?_, hframe.v2p_aligned, hframe.below_physTop⟩
  exact ⟨hpos, hle⟩

theorem ShmidDs.Sane.freed : ShmidDs.freed.Sane := ⟨Or.inl rfl, by decide, by decide⟩

theorem ShmidDs.Sane.unmapped (slot : ShmidDs) : slot.unmapped.Sane :=
  ⟨Or.inl rfl, Nat.zero_mod _, Nat.zero_lt_succ _⟩

namespace ShmPgTable

theorem Sane.onPages (hsane : table.Sane) {count : ℕ}
    {change : ShmidDs → ShmidDs} (hchange : ∀ slot, slot.Sane → (change slot).Sane) :
    (table.onPages s count change).Sane :=
  ⟨onPages_forall hchange hsane.slots, hsane.last_ge, hsane.last_lt⟩

theorem Sane.created (hsane : table.Sane) {index : ℕ} {append : Bool} (hmin : shmMin ≤ size)
    (hmax : size ≤ maxSegSize) (hframes : ∀ frame ∈ frames, IsFrame frame)
    (hplaced : Placed table (sizePages size) index append)
    (hlength : frames.length ≤ sizePages size) :
    (table.created key (pgRoundUp size) pid perm append index frames).Sane := by
  refine ⟨fun i ↦ ?_, ?_, ?_⟩
  · unfold ShmPgTable.created
    dsimp only
    by_cases hin : index ≤ i ∧ i < index + frames.length
    · rw [Cells.onRange_of_mem hin.1 hin.2]
      apply ShmidDs.Sane.fresh _ hmin hmax
      apply hframes
      rw [List.getD_eq_getElem _ _ (by omega)]
      exact List.getElem_mem _
    · rw [Cells.onRange_of_not_mem (by omega)]
      exact hsane.slots i
  · have hge := hsane.last_ge
    unfold ShmPgTable.created
    dsimp only
    split <;> omega
  · have hlt := hsane.last_lt
    have hfits := hplaced.fits
    unfold ShmPgTable.created
    dsimp only
    split
    · rename_i happend
      have hindex := hplaced.extend happend
      omega
    · exact hlt

end ShmPgTable

theorem Kmem.isFrame_of_append {kmem rest : Kmem}
    (h : kmem.freelist = frames ++ rest.freelist) : ∀ frame ∈ frames, IsFrame frame := by
  intro frame hframe
  apply kmem.isFrame
  rw [h]
  exact List.mem_append_left _ hframe

section Preservation

variable {kernel kernel' : Kernel} {p : ℕ} {clock : Clock} {result : ℤ}

section

variable (hsane : kernel.Sane)

include hsane

theorem Kernel.Sane.update (htable : kernel'.shmpgtable.Sane) {q : ℕ}
    (hproc : kernel'.proc = update kernel.proc q process) (hsz : process.sz < heapLimit)
    (hrecords : ∀ w, (process.shmsegs w).Sane) : kernel'.Sane := by
  refine ⟨htable, fun r ↦ ?_, fun r w ↦ ?_⟩
  · rw [hproc]
    by_cases hr : r = q
    · rw [hr, update_self]
      exact hsz
    · rw [update_of_ne hr]
      exact hsane.sizes r
  · rw [hproc]
    by_cases hr : r = q
    · rw [hr, update_self]
      exact hrecords w
    · rw [update_of_ne hr]
      exact hsane.records r w

theorem Kernel.Sane.withTable (htable : kernel'.shmpgtable.Sane)
    (hproc : kernel'.proc = kernel.proc) : kernel'.Sane := by
  refine ⟨htable, fun q ↦ ?_, fun q w ↦ ?_⟩
  · rw [hproc]
    exact hsane.sizes q
  · rw [hproc]
    exact hsane.records q w

theorem sane_shmget
    (h : shmgetHelper kernel p clock key size shmflag = .ok (kernel', result)) : kernel'.Sane := by
  rcases shmgetHelper_cases hsane.table h with ⟨rfl, -⟩ | ⟨-, halloc⟩
  · exact hsane
  · rcases allocShmSeg_cases hsane.table halloc with
      ⟨rfl, -⟩ | ⟨index, append, frames, kmem, hmin, hmax, hplaced, hfree, hcases⟩
    · exact hsane
    · have hframes := Kmem.isFrame_of_append hfree
      rcases hcases with ⟨-, hlength, -, rfl⟩ | ⟨hshort, -, table, hunmap, rfl⟩
      · exact hsane.withTable
          (hsane.table.created hmin hmax hframes hplaced (Nat.le_of_eq hlength)) rfl
      · have hlength : frames.length ≤ sizePages size := by
          rw [hfree, List.length_append] at hshort
          omega
        have hcreated : (kernel.shmpgtable.created (shmgetKey clock key) (pgRoundUp size)
            (kernel.proc p).pid (shmflag &&& 3) append index frames).Sane :=
          hsane.table.created hmin hmax hframes hplaced hlength
        obtain ⟨hlast, hslots⟩ := unmapShmSegPage_spec hunmap
        refine hsane.withTable ⟨fun i ↦ ?_, ?_, ?_⟩ rfl
        · rcases hslots i with hsame | hcleared
          · exact hsame ▸ hcreated.slots i
          · exact hcleared ▸ ShmidDs.Sane.unmapped _
        · exact hlast ▸ hcreated.last_ge
        · exact hlast ▸ hcreated.last_lt

theorem sane_shmat (h : shmatHelper kernel p clock shmid shmaddr shmflag = .ok (kernel', result)) :
    kernel'.Sane := by
  rcases shmatHelper_cases hsane.table h with ⟨rfl, -⟩ | ⟨s, w, -, hlast, -, -, -, houtcome⟩
  · exact hsane
  · have hs : s < shmMaxSeg := by
      have hlt := hsane.table.last_lt
      omega
    rcases houtcome with ⟨st, hpages, rfl, -⟩ | ⟨-, -, -, rfl⟩
    · apply hsane.update _ (Kernel.putAttaching_proc _ _ _ _) (hsane.sizes p)
      · intro i
        rw [hpages.shmsegs]
        unfold Cells.onRange
        dsimp only
        split
        · exact AttachedShmsegs.Sane.attached hs
        · exact hsane.records p i
      · exact hsane.table.onPages fun slot hslot ↦ hslot.of_eq rfl rfl
    · apply hsane.update _ (Kernel.putAttaching_proc _ _ _ _) (hsane.sizes p)
      · intro i
        dsimp only
        by_cases hi : i = w
        · rw [hi, update_self]
          exact AttachedShmsegs.Sane.attached hs
        · rw [update_of_ne hi]
          exact hsane.records p i
      · exact ⟨hsane.table.slots, hsane.table.last_ge, hsane.table.last_lt⟩

theorem sane_shmdt (h : shmdtHelper kernel p clock shmaddr = .ok (kernel', result)) :
    kernel'.Sane := by
  rcases shmdtHelper_cases hsane.table h with ⟨rfl, -⟩ | ⟨-, -, -, -, s, st, hdetaches⟩
  · exact hsane
  · rw [hdetaches.result]
    apply hsane.update _ (Kernel.putAttaching_proc _ _ _ _) (hsane.sizes p)
    · intro i
      have hstart : (detachStart (kernel.proc p).shmsegs (addrSlot shmaddr) i).Sane := by
        unfold detachStart
        by_cases hi : i = addrSlot shmaddr
        · rw [hi, update_self]
          exact AttachedShmsegs.Sane.none
        · rw [update_of_ne hi]
          exact hsane.records p i
      rw [hdetaches.pages.shmsegs]
      unfold Cells.onRange
      dsimp only
      split
      · exact ⟨hstart.shmid_ge, hstart.shmid_lt, fun hattached ↦ by cases hattached⟩
      · exact hstart
    · apply ShmPgTable.Sane.onPages
      · exact hsane.table.onPages fun slot hslot ↦ hslot.of_eq rfl rfl
      · exact fun slot hslot ↦ hslot.of_eq rfl rfl

theorem sane_shmctl {buf' : ShmidDs}
    (h : shmctlHelper kernel shmid cmd buf = .ok (kernel', result, buf')) : kernel'.Sane := by
  rcases shmctlHelper_cases h with
    rfl | ⟨s, -, -, -, -, ⟨-, -, -, hroom, rfl⟩ | ⟨-, -, rfl⟩⟩
  · exact hsane
  · by_cases hpages : buf.pages = 0
    · rw [hpages, ShmPgTable.onPages_zero]
      exact hsane
    · refine hsane.withTable (hsane.table.onPages fun slot hslot ↦ ?_) rfl
      exact ⟨Or.inr ⟨Nat.pos_of_ne_zero hpages, (Nat.le_add_left _ _).trans hroom⟩,
        hslot.aligned, hslot.below⟩
  · exact hsane.withTable (hsane.table.onPages fun slot hslot ↦ hslot.of_eq rfl rfl) rfl

theorem sane_removeshm {shmIdentifier : ℤ}
    (h : removeshmHelper kernel shmIdentifier flag = .ok (kernel', result)) : kernel'.Sane := by
  rcases removeshmHelper_cases hsane.table h with ⟨rfl, -⟩ | ⟨s, -, hremove⟩
  · exact hsane
  · obtain ⟨t, -, -, -, ⟨rfl, -, -⟩ | ⟨kmem, -, rfl, -, -, -⟩⟩ := removeSegment_cases hremove
    · exact hsane.withTable (hsane.table.onPages fun slot hslot ↦ hslot.of_eq rfl rfl) rfl
    · exact hsane.withTable (hsane.table.onPages fun _ _ ↦ ShmidDs.Sane.freed) rfl

end

theorem sane_updateAll {shmids : List ℤ} {next : ShmPgTable}
    (hsane : table.Sane) (h : updateAll clock pid flag shmids table = .ok next) : next.Sane := by
  refine updateAll_invariant ShmPgTable.Sane (fun shmid _ table next htable hupdate ↦ ?_) hsane h
  obtain ⟨s, -, -, -, -, rfl⟩ := updateShmSeg_eq_ok.mp hupdate
  apply htable.onPages
  intro slot hslot
  apply hslot.of_eq <;> unfold ShmidDs.updated <;> split <;> rfl

section

variable (hsane : kernel.Sane)

include hsane

theorem sane_fork (h : fork kernel p clock = .ok (kernel', result)) : kernel'.Sane := by
  rcases fork_cases (hsane.sizes p) h with ⟨-, hfailed⟩ | ⟨-, np, kstack, pgdir, hforked⟩
  · refine ⟨hfailed.table ▸ hsane.table, fun q ↦ ?_, fun q w ↦ ?_⟩
    · rcases hfailed.procs q with hsame | ⟨-, pid, kstack, hq⟩
      · exact hsame ▸ hsane.sizes q
      · exact hq ▸ hsane.sizes q
    · rcases hfailed.procs q with hsame | ⟨-, pid, kstack, hq⟩
      · exact hsame ▸ hsane.records q w
      · exact hq ▸ hsane.records q w
  · apply hsane.update (sane_updateAll hsane.table hforked.table) hforked.procs (hsane.sizes p)
    intro w
    unfold forkChild copyShmsegs
    dsimp only
    split
    · split
      · exact hsane.records p w
      · exact AttachedShmsegs.Sane.none
    · exact hsane.records np w

theorem sane_exec {file : Option ExecFile} {argv : List (List UInt8)}
    (h : exec kernel p clock file argv = .ok (kernel', result)) : kernel'.Sane := by
  rcases exec_cases h with ⟨-, kmem, rfl, -⟩ | ⟨-, image, hexeced⟩
  · exact hsane.withTable hsane.table rfl
  · apply hsane.update (sane_updateAll hsane.table hexeced.table) hexeced.procs hexeced.size
    intro w
    unfold droppedShmsegs
    dsimp only
    split
    · exact AttachedShmsegs.Sane.none
    · exact hsane.records p w

theorem sane_exit (h : exit kernel p = .ok (kernel', result)) : kernel'.Sane := by
  obtain ⟨-, htable, -, hprocs⟩ := exit_cases h
  refine ⟨htable ▸ hsane.table, fun q ↦ ?_, fun q w ↦ ?_⟩
  · obtain ⟨parent, hq⟩ := hprocs q
    exact hq ▸ hsane.sizes q
  · obtain ⟨parent, hq⟩ := hprocs q
    exact hq ▸ hsane.records q w

theorem sane_wait (h : wait kernel p = .ok (kernel', result)) : kernel'.Sane := by
  rcases wait_cases h with rfl | ⟨q, kmem, -, -, -, rfl⟩
  · exact hsane
  · exact hsane.update hsane.table rfl (hsane.sizes q) (hsane.records q)

theorem sane_sbrk {n : ℤ} (h : sysSbrk kernel p n = .ok (kernel', result)) : kernel'.Sane := by
  rcases sysSbrk_cases (hsane.sizes p) h with rfl | ⟨vm, sz, hresized⟩
  · exact hsane
  · rw [hresized.result]
    exact hsane.update hsane.table rfl hresized.size (hsane.records p)

end

end Preservation

theorem Kernel.Sane.step {kernel kernel' : Kernel} {result : ℤ}
    (hsane : kernel.Sane) (h : step kernel label = .ok (kernel', result)) : kernel'.Sane := by
  obtain ⟨-, -, hcall⟩ := step_eq_ok h
  obtain ⟨p, clock, call⟩ := label
  cases call with
  | shmget key size shmflag => exact sane_shmget hsane hcall
  | shmat shmid shmaddr shmflag => exact sane_shmat hsane hcall
  | shmdt shmaddr => exact sane_shmdt hsane hcall
  | shmctl shmid cmd buf =>
    obtain ⟨buf', hctl⟩ := perform_shmctl hcall
    exact sane_shmctl hsane hctl
  | removeshm shmIdentifier flag => exact sane_removeshm hsane hcall
  | sbrk n => exact sane_sbrk hsane hcall
  | fork => exact sane_fork hsane hcall
  | exec file argv => exact sane_exec hsane hcall
  | exit => exact sane_exit hsane hcall
  | wait => exact sane_wait hsane hcall

end Xv6Shm
