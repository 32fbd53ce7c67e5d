import Xv6Shm.System.Ledger

/-!
# Calls that keep the table coherent

`Structured` is the condition on a call under which the table stays a table of segments: it names
whole segments, it does not create a segment that looks free, and no creation runs out of frames
half way. Under it every call keeps the table coherent and moves frames without losing any.
-/

namespace Xv6Shm

open Fallible ShmPgTable ShmidDs Kernel

variable {key cmd : ℤ} {size : ℕ} {buf buf' : ShmidDs} {shmsegs : ℕ → AttachedShmsegs}
  {label : Label}

/-- A creation that can be completed, of a segment that can be told from free slots. -/
def MayCreate (kernel : Kernel) (key : ℤ) (size shmflag : ℕ) : Prop :=
  kernel.shmpgtable.Creating key size shmflag →
    key ≠ -1 ∧ (size ≤ maxSegSize → sizePages size ≤ kernel.kmem.freelist.length)

/-- A buffer that `IPC_SET` can copy: it keeps the length and does not look free. A buffer of less
than a page is not copied, and neither is one that the mode forbids. -/
def MaySet (table : ShmPgTable) (shmid : ℤ) (buf : ShmidDs) : Prop :=
  (table.shmSegs shmid.toNat).shmPerm.mode &&& shmR ≠ 0 ∨ buf.pages = 0 ∨
    table.isMiddle shmid = false ∧ buf.pages = table.pagesAt shmid.toNat ∧ buf.shmPerm.key ≠ -1

/-- A command on a slot in use that stays inside its segment. -/
def MayControl (table : ShmPgTable) (shmid cmd : ℤ) (buf : ShmidDs) : Prop :=
  0 ≤ shmid → shmid ≤ table.lastShmSegIndex → table.isLive shmid.toNat = true →
    (cmd = ipcSet → MaySet table shmid buf) ∧
    (cmd = ipcRmid → shmid + table.pagesAt shmid.toNat ≤ shmMaxSeg)

/-- A removal by key, one that is refused, or one of a slot of the table that is not inside a
segment. -/
def MayRemove (table : ShmPgTable) (shmIdentifier flag : ℤ) : Prop :=
  flag = 1 ∨ table.lastShmSegIndex = -1 ∨ shmIdentifier = table.lastShmSegIndex + 1 ∨
    0 ≤ shmIdentifier ∧ shmIdentifier < shmMaxSeg ∧ table.isMiddle shmIdentifier = false

/-- The condition on a call. -/
def Structured (kernel : Kernel) (label : Label) : Prop :=
  match label.call with
  | .shmget key size shmflag => MayCreate kernel (shmgetKey label.clock key) size shmflag
  | .shmat shmid _ _ => kernel.shmpgtable.isMiddle shmid = false
  | .shmdt shmaddr => kernel.shmpgtable.isMiddle
      ((kernel.proc label.proc).shmsegs (addrSlot shmaddr)).shmid = false
  | .shmctl shmid cmd buf => MayControl kernel.shmpgtable shmid cmd buf
  | .removeshm shmIdentifier flag => MayRemove kernel.shmpgtable shmIdentifier flag
  | .fork => ∀ w < shmMaxSeg,
      kernel.shmpgtable.isMiddle ((kernel.proc label.proc).shmsegs w).shmid = false
  | .exec _ _ => ∀ w < shmMaxSeg, ((kernel.proc label.proc).shmsegs w).isAttached = true →
      kernel.shmpgtable.isMiddle ((kernel.proc label.proc).shmsegs w).shmid = false
  | .sbrk _ | .exit | .wait => True

instance (kernel : Kernel) (label : Label) : Decidable (Structured kernel label) := by
  unfold Structured MayCreate MayControl MaySet MayRemove
  cases label.call <;> dsimp only <;> infer_instance

/-- What holds in every state of a structured run. -/
structure Kernel.Intact (kernel : Kernel) : Prop where
  sane : kernel.Sane
  coherent : Coherent kernel.shmpgtable
  owned : kernel.frames.Nodup

variable {kernel : Kernel}

theorem Boot.intact (hboot : Boot kernel) : kernel.Intact where
  sane := hboot.sane
  coherent := hboot.table ▸ Coherent.initial
  owned := hboot.owned

/-- A call that has kept the table coherent and has moved frames only. -/
structure Keeps (kernel kernel' : Kernel) : Prop where
  coherent : Coherent kernel'.shmpgtable
  frames : kernel'.frames = kernel.frames

/-- A table with the same segments, up to their attach counts, modes, times and process numbers. -/
structure Recounted (table table' : ShmPgTable) : Prop where
  coherent : Coherent table'
  bases : table'.bases = table.bases
  last : table'.lastShmSegIndex = table.lastShmSegIndex
  key : ∀ i, (table'.shmSegs i).shmPerm.key = (table.shmSegs i).shmPerm.key
  segsz : ∀ i, (table'.shmSegs i).shmSegsz = (table.shmSegs i).shmSegsz
  pa : ∀ i, (table'.shmSegs i).pa = (table.shmSegs i).pa

section Recounted

variable {table table' : ShmPgTable}

theorem Recounted.refl (h : Coherent table) : Recounted table table :=
  ⟨h, rfl, rfl, fun _ ↦ rfl, fun _ ↦ rfl, fun _ ↦ rfl⟩

section

variable (h : Recounted table table')

include h

theorem Recounted.trans {table'' : ShmPgTable} (h' : Recounted table' table'') :
    Recounted table table'' :=
  ⟨h'.coherent, h'.bases.trans h.bases, h'.last.trans h.last, fun i ↦ (h'.key i).trans (h.key i),
    fun i ↦ (h'.segsz i).trans (h.segsz i), fun i ↦ (h'.pa i).trans (h.pa i)⟩

theorem Recounted.isLive (i : ℕ) : table'.isLive i = table.isLive i := by
  unfold ShmPgTable.isLive
  rw [h.key]

theorem Recounted.pagesAt (i : ℕ) : table'.pagesAt i = table.pagesAt i := by
  unfold ShmPgTable.pagesAt pages
  rw [h.segsz]

theorem Recounted.isMiddle (shmid : ℤ) : table'.isMiddle shmid = table.isMiddle shmid :=
  isMiddle_congr h.last h.isLive h.pagesAt shmid

theorem Recounted.segmentFrames : table'.segmentFrames = table.segmentFrames :=
  segmentFrames_congr h.last (fun i _ ↦ h.isLive i) fun i _ ↦ h.pa i

end

variable {s : ℕ}

section

variable (h : Coherent table)

include h

theorem Recounted.onPages {change : ShmidDs → ShmidDs}
    (hbase : s ∈ table.bases ∨ table.pagesAt s = 0)
    (hkey : ∀ slot, (change slot).shmPerm.key = slot.shmPerm.key)
    (hsegsz : ∀ slot, (change slot).shmSegsz = slot.shmSegsz)
    (hpa : ∀ slot, (change slot).pa = slot.pa)
    (hnattch : ∀ slot other : ShmidDs, slot.shmNattch = other.shmNattch →
      (change slot).shmNattch = (change other).shmNattch) :
    Recounted table (table.onPages s (table.pagesAt s) change) := by
  rcases hbase with hs | hempty
  · obtain ⟨hafter, hbases⟩ := h.onPages hs
      (KeepsSegment.of_fields (h.isLive_of_mem hs) hkey hsegsz hpa hnattch)
    exact ⟨hafter, hbases, rfl, onPages_field change (fun slot ↦ slot.shmPerm.key) hkey,
      onPages_field change ShmidDs.shmSegsz hsegsz,
      onPages_field change ShmidDs.pa hpa⟩
  · rw [hempty, onPages_zero]
    exact Recounted.refl h

theorem Recounted.markDest (s count : ℕ) :
    Recounted table (table.onPages s count ShmidDs.markDest) := by
  have hkey (i : ℕ) : ((table.onPages s count ShmidDs.markDest).shmSegs i).shmPerm.key =
      (table.shmSegs i).shmPerm.key :=
    onPages_field ShmidDs.markDest (fun slot ↦ slot.shmPerm.key) (fun _ ↦ rfl) i
  obtain ⟨hafter, hbases⟩ := h.of_fields (onPages_last table s count ShmidDs.markDest)
    hkey (onPages_field _ ShmidDs.shmSegsz (fun _ ↦ rfl))
    (onPages_field _ ShmidDs.shmNattch (fun _ ↦ rfl))
    (onPages_field _ ShmidDs.pa (fun _ ↦ rfl))
  exact ⟨hafter, hbases, rfl, hkey, onPages_field _ ShmidDs.shmSegsz (fun _ ↦ rfl),
    onPages_field _ ShmidDs.pa (fun _ ↦ rfl)⟩

theorem Recounted.setDest (hs : s ∈ table.bases) :
    Recounted table (table.onPages s (table.pagesAt s) setDest) :=
  Recounted.onPages h (Or.inl hs) (fun _ ↦ rfl) (fun _ ↦ rfl) (fun _ ↦ rfl) fun _ _ hsame ↦ hsame

theorem Recounted.attached (hs : s ∈ table.bases) (clock : Clock) (pid : ℤ) :
    Recounted table (table.onPages s (table.pagesAt s) (ShmidDs.attached clock pid)) :=
  Recounted.onPages h (Or.inl hs) (fun _ ↦ rfl) (fun _ ↦ rfl) (fun _ ↦ rfl)
    fun slot other hsame ↦ by
      unfold ShmidDs.attached
      dsimp only
      rw [hsame]

theorem Recounted.detached (hbase : s ∈ table.bases ∨ table.pagesAt s = 0) (clock : Clock) (pid : ℤ) :
    Recounted table ((table.onPages s (table.pagesAt s) (ShmidDs.detached clock pid)).onPages s 1
      ShmidDs.markDest) := by
  have hcounted : Recounted table
      (table.onPages s (table.pagesAt s) (ShmidDs.detached clock pid)) :=
    Recounted.onPages h hbase (fun _ ↦ rfl) (fun _ ↦ rfl) (fun _ ↦ rfl) fun slot other hsame ↦ by
        unfold ShmidDs.detached
        rw [hsame]
  exact hcounted.trans (Recounted.markDest hcounted.coherent s 1)

/-- A traversal of `updateShmSeg` calls, when each of them names a whole segment. -/
theorem Recounted.updateAll {clock : Clock} {pid flag : ℤ} {shmids : List ℤ}
    (hmiddle : ∀ shmid ∈ shmids, table.isMiddle shmid = false)
    (hupdate : updateAll clock pid flag shmids table = .ok table') : Recounted table table' := by
  refine updateAll_invariant (Recounted table) ?_ (Recounted.refl h) hupdate
  intro shmid hmem next next' hnext hstep
  obtain ⟨s, rfl, -, -, -, rfl⟩ := updateShmSeg_eq_ok.mp hstep
  refine hnext.trans (Recounted.onPages hnext.coherent
    (hnext.coherent.base_or_empty ((hnext.isMiddle s).trans (hmiddle s hmem))) ?_ ?_ ?_ ?_)
  · intro slot
    unfold updated
    split <;> rfl
  · intro slot
    unfold updated
    split <;> rfl
  · intro slot
    unfold updated
    split <;> rfl
  · intro slot other hnattch
    unfold updated inherited dropped
    split
    · dsimp only
      rw [hnattch]
    · dsimp only
      rw [hnattch]

end

end Recounted

section Table

variable {table : ShmPgTable} {s : ℕ} {change : ShmidDs → ShmidDs}

theorem Coherent.segmentFrames_onPages (h : Coherent table) (hs : s ∈ table.bases)
    (hchange : KeepsSegment table s change) :
    (table.onPages s (table.pagesAt s) change).segmentFrames = table.segmentFrames :=
  segmentFrames_congr rfl (fun i _ ↦ h.onPages_isLive hs hchange i)
    (fun i _ ↦ onPages_field change pa hchange.pa i)

theorem Coherent.withLock (h : Coherent table) (locked : Bool) :
    Coherent { table with locked := locked } := ⟨h.1, h.2, h.3, h.4, h.5, h.6⟩

end Table

section Calls

variable {kernel kernel' : Kernel} {p : ℕ} {clock : Clock} {result : ℤ}

theorem Keeps.refl (hintact : kernel.Intact) : Keeps kernel kernel := ⟨hintact.coherent, rfl⟩

theorem Keeps.of_recounted (hcounted : Recounted kernel.shmpgtable kernel'.shmpgtable)
    (hkmem : kernel'.kmem = kernel.kmem) (hproc : kernel'.proc = kernel.proc) :
    Keeps kernel kernel' := by
  refine ⟨hcounted.coherent, frames_table hproc ?_⟩
  rw [hcounted.segmentFrames, hkmem]

theorem Keeps.of_unshared (hcounted : Recounted kernel.shmpgtable kernel'.shmpgtable)
    (hunshared : kernel'.unsharedFrames = kernel.unsharedFrames) : Keeps kernel kernel' :=
  ⟨hcounted.coherent, frames_congr hunshared hcounted.segmentFrames⟩

theorem Keeps.of_same (hintact : kernel.Intact) (htable : kernel'.shmpgtable = kernel.shmpgtable)
    (hunshared : kernel'.unsharedFrames = kernel.unsharedFrames) : Keeps kernel kernel' := by
  refine Keeps.of_unshared ?_ hunshared
  rw [htable]
  exact Recounted.refl hintact.coherent

variable {shmflag : ℕ} {shmIdentifier flag shmid shmaddr : ℤ}

/-- What a structured `shmget` can do: it finds a slot, fails, or creates a segment. -/
theorem structured_shmget (hintact : kernel.Intact)
    (hmay : MayCreate kernel (shmgetKey clock key) size shmflag)
    (h : shmgetHelper kernel p clock key size shmflag = .ok (kernel', result)) :
    (kernel' = kernel ∧ (result < 0 ∨ ∃ i : ℕ,
        kernel.shmpgtable.lookup (shmgetKey clock key) = some i ∧ result = i)) ∨
      (kernel.shmpgtable.Creating (shmgetKey clock key) size shmflag ∧ shmgetKey clock key ≠ -1 ∧
        ∃ (index : ℕ) (append : Bool) (frames : List ℕ) (kmem : Kmem),
          kernel.kmem.freelist = frames ++ kmem.freelist ∧ frames.length = sizePages size ∧
          result = index ∧
          kernel' = kernel.created p size (shmgetKey clock key) shmflag index append frames kmem ∧
          NewSegment kernel.shmpgtable kernel'.shmpgtable index (sizePages size)) := by
  have hsane := hintact.sane.table
  rcases shmgetHelper_cases hsane h with hfound | ⟨hcreating, halloc⟩
  · exact Or.inl hfound
  · obtain ⟨hkey, hroom⟩ := hmay hcreating
    rcases allocShmSeg_cases hsane halloc with
      ⟨hsame, hneg⟩ | ⟨index, append, frames, kmem, hmin, hmax, hplaced, hfree, hcases⟩
    · exact Or.inl ⟨hsame, Or.inl hneg⟩
    · rcases hcases with ⟨-, hlength, hresult, rfl⟩ | ⟨hshort, -⟩
      · exact Or.inr ⟨hcreating, hkey, index, append, frames, kmem, hfree, hlength, hresult, rfl,
          hplaced.newSegment hsane hmin hmax hkey (Kmem.isFrame_of_append hfree) hlength⟩
      · exact absurd (hroom hmax) (Nat.not_le.mpr hshort)

theorem keeps_shmget (hintact : kernel.Intact)
    (hmay : MayCreate kernel (shmgetKey clock key) size shmflag)
    (h : shmgetHelper kernel p clock key size shmflag = .ok (kernel', result)) :
    Keeps kernel kernel' := by
  rcases structured_shmget hintact hmay h with
    ⟨rfl, -⟩ | ⟨-, -, index, append, frames, kmem, hfree, hlength, -, rfl, hnew⟩
  · exact Keeps.refl hintact
  · refine ⟨(hintact.coherent.insert hnew).1, Kernel.frames_table rfl ?_⟩
    rw [hnew.segmentFrames, ← hlength]
    unfold Kernel.created
    rw [created_frames (Kmem.isFrame_of_append hfree), hfree, ← Multiset.coe_add]
    abel

/-- The slot a structured removal works on is a segment, or has no pages. -/
theorem Coherent.resolves (hcoherent : Coherent kernel.shmpgtable) {s : ℕ}
    (hmay : MayRemove kernel.shmpgtable shmIdentifier flag)
    (hresolves : kernel.shmpgtable.Resolves shmIdentifier flag s) :
    s ∈ kernel.shmpgtable.bases ∨ kernel.shmpgtable.pagesAt s = 0 := by
  unfold ShmPgTable.Resolves at hresolves
  split at hresolves
  · by_cases hkey : shmIdentifier = -1
    · obtain ⟨hlast, hfound, -⟩ := lookup_some hresolves
      rw [hkey] at hfound
      have hvacant := hcoherent.vacant s (lt_bound hlast) (isLive_eq_false.mpr hfound)
      right
      unfold pagesAt pages
      rw [hvacant.segsz, Nat.zero_div]
    · exact Or.inl (hcoherent.lookup_mem hresolves hkey)
  · rename_i hflag
    obtain ⟨rfl, hnonempty, hvalid⟩ := hresolves
    rcases hmay with hflag' | hempty | hinvalid | ⟨-, -, hmiddle⟩
    · exact absurd hflag' hflag
    · exact absurd hempty hnonempty
    · exact absurd hinvalid hvalid
    · exact hcoherent.base_or_empty hmiddle

section

variable (hintact : kernel.Intact) (hmay : MayRemove kernel.shmpgtable shmIdentifier flag)
  (h : removeshmHelper kernel shmIdentifier flag = .ok (kernel', result))

include hintact hmay h

/-- What a structured removal can do: nothing, mark a segment that is attached, or release one that
is not. -/
theorem structured_removeshm :
    (kernel'.shmpgtable = kernel.shmpgtable ∧ kernel'.proc = kernel.proc ∧
        kernel'.shmInfo = kernel.shmInfo ∧
        (kernel'.kmem.freelist : Multiset ℕ) = kernel.kmem.freelist) ∨
      ∃ s, kernel.shmpgtable.Resolves shmIdentifier flag s ∧ s ∈ kernel.shmpgtable.bases ∧
        ((result = -1 ∧ (kernel.shmpgtable.shmSegs s).shmNattch ≠ 0 ∧ kernel' = { kernel with
              shmpgtable := kernel.shmpgtable.onPages s (kernel.shmpgtable.pagesAt s) setDest }) ∨
          (result = 0 ∧ (kernel.shmpgtable.shmSegs s).shmNattch = 0 ∧ ∃ kmem,
            (kmem.freelist : Multiset ℕ) =
              kernel.shmpgtable.framesAt s (kernel.shmpgtable.pagesAt s) +
                (kernel.kmem.freelist : Multiset ℕ) ∧
            kernel' = { kernel with
              kmem := kmem
              shmpgtable := kernel.shmpgtable.onPages s (kernel.shmpgtable.pagesAt s)
                fun _ ↦ freed })) := by
  rcases removeshmHelper_cases hintact.sane.table h with ⟨rfl, -⟩ | ⟨s, hresolves, hremove⟩
  · exact Or.inl ⟨rfl, rfl, rfl, rfl⟩
  · obtain ⟨t, hst, -, -, hcases⟩ := removeSegment_cases hremove
    have hsame : t = s := by omega
    subst hsame
    rcases hintact.coherent.resolves hmay hresolves with hbase | hempty
    · have hpos := hintact.coherent.tiling.positive t hbase
      refine Or.inr ⟨t, hresolves, hbase, ?_⟩
      rcases hcases with ⟨hkernel, hresult, hkept⟩ | ⟨kmem, hnattch, hkernel, hfree, -, hresult⟩
      · rcases hkept with hzero | hattached
        · exact absurd hzero (Nat.ne_of_gt hpos)
        · exact Or.inl ⟨hresult, hattached, hkernel⟩
      · exact Or.inr ⟨hresult, hnattch, kmem, hfree, hkernel⟩
    · left
      rcases hcases with ⟨rfl, -, -⟩ | ⟨kmem, -, rfl, hfree, -, -⟩
      · rw [show (kernel.shmpgtable.shmSegs t).pages = 0 from hempty, onPages_zero]
        exact ⟨rfl, rfl, rfl, rfl⟩
      · rw [show (kernel.shmpgtable.shmSegs t).pages = 0 from hempty] at hfree ⊢
        rw [onPages_zero]
        refine ⟨rfl, rfl, rfl, ?_⟩
        rw [hfree, framesAt, Finset.sum_range_zero, zero_add]

theorem keeps_removeshm : Keeps kernel kernel' := by
  rcases structured_removeshm hintact hmay h with
    ⟨htable, hproc, -, hfree⟩ |
    ⟨s, -, hs, ⟨-, -, rfl⟩ | ⟨-, -, kmem, hfree, rfl⟩⟩
  · refine ⟨htable ▸ hintact.coherent, frames_table hproc ?_⟩
    rw [htable, hfree]
  · exact Keeps.of_recounted (Recounted.setDest hintact.coherent hs) rfl rfl
  · refine ⟨(hintact.coherent.freed hs).1, frames_table rfl ?_⟩
    rw [hfree, ← hintact.coherent.segmentFrames_freed hs]
    abel

end

theorem structured_shmat (hintact : kernel.Intact)
    (hmiddle : kernel.shmpgtable.isMiddle shmid = false)
    (h : shmatHelper kernel p clock shmid shmaddr shmflag = .ok (kernel', result)) :
    (kernel' = kernel ∧ result < 0) ∨
      ∃ s w : ℕ, shmid = s ∧ s ∈ kernel.shmpgtable.bases ∧ kernel.shmpgtable.locked = false ∧
        WindowSlot (kernel.proc p).shmsegs shmaddr shmflag (kernel.shmpgtable.pagesAt s) w ∧
        AttachOutcome kernel p clock s w shmflag kernel' result := by
  rcases shmatHelper_cases hintact.sane.table h with
    hfailed | ⟨s, w, rfl, -, hpos, hunlocked, hslot, houtcome⟩
  · exact Or.inl hfailed
  · rcases hintact.coherent.base_or_empty hmiddle with hbase | hempty
    · exact Or.inr ⟨s, w, rfl, hbase, hunlocked, hslot, houtcome⟩
    · exact absurd hempty (Nat.ne_of_gt hpos)

theorem keeps_shmat (hintact : kernel.Intact) (hp : p < nProc)
    (hrun : (kernel.proc p).state ≠ .unused) (hmiddle : kernel.shmpgtable.isMiddle shmid = false)
    (h : shmatHelper kernel p clock shmid shmaddr shmflag = .ok (kernel', result)) :
    Keeps kernel kernel' := by
  rcases structured_shmat hintact hmiddle h with ⟨rfl, -⟩ | ⟨s, w, -, hs, -, -, houtcome⟩
  · exact Keeps.refl hintact
  · have hcounted := Recounted.attached hintact.coherent hs clock (kernel.proc p).pid
    rcases houtcome with ⟨st, hpages, rfl, -⟩ | ⟨-, -, -, rfl⟩
    · exact Keeps.of_unshared hcounted (unsharedFrames_putAttaching hp hrun hpages.frames)
    · exact ⟨hintact.coherent.withLock true,
        frames_congr (unsharedFrames_putAttaching hp hrun rfl) rfl⟩

theorem keeps_shmdt (hintact : kernel.Intact) (hp : p < nProc)
    (hrun : (kernel.proc p).state ≠ .unused) (hmiddle : kernel.shmpgtable.isMiddle
      ((kernel.proc p).shmsegs (addrSlot shmaddr)).shmid = false)
    (h : shmdtHelper kernel p clock shmaddr = .ok (kernel', result)) : Keeps kernel kernel' := by
  rcases shmdtHelper_cases hintact.sane.table h with ⟨rfl, -⟩ | ⟨-, -, -, -, s, st, hdetaches⟩
  · exact Keeps.refl hintact
  · rw [hdetaches.recorded] at hmiddle
    have hcounted := Recounted.detached hintact.coherent
      (hintact.coherent.base_or_empty hmiddle) clock (kernel.proc p).pid
    rw [hdetaches.result]
    refine Keeps.of_unshared hcounted (unsharedFrames_putAttaching hp hrun ?_)
    rw [Vm.frames, hdetaches.pages.kmem, hdetaches.pages.frames]
    rfl

theorem structured_shmctl (hintact : kernel.Intact)
    (hmay : MayControl kernel.shmpgtable shmid cmd buf)
    (h : shmctlHelper kernel shmid cmd buf = .ok (kernel', result, buf')) :
    kernel' = kernel ∨ ∃ s : ℕ, shmid = s ∧ kernel.shmpgtable.isLive s = true ∧
        ((cmd = ipcSet ∧ s ∈ kernel.shmpgtable.bases ∧ buf.pages = kernel.shmpgtable.pagesAt s ∧
            buf.shmPerm.key ≠ -1 ∧ (kernel.shmpgtable.shmSegs s).shmPerm.mode &&& shmR = 0 ∧
            kernel' = { kernel with
              shmpgtable := kernel.shmpgtable.onPages s (kernel.shmpgtable.pagesAt s) buf.set }) ∨
          (cmd = ipcRmid ∧ kernel' = { kernel with
            shmpgtable := kernel.shmpgtable.onPages s (kernel.shmpgtable.pagesAt s)
              markDest })) := by
  rcases shmctlHelper_cases h with
    hsame | ⟨s, rfl, -, hlast, hkey, hcases⟩
  · exact Or.inl hsame
  · have hlive := isLive_iff.mpr hkey
    obtain ⟨hset, -⟩ := hmay (Int.natCast_nonneg s) hlast hlive
    rcases hcases with ⟨hcmd, hmode, -, -, hkernel⟩ | ⟨hcmd, -, hkernel⟩
    · rcases hset hcmd with hrefused | hshort | ⟨hmiddle, hpages, hbufKey⟩
      · exact absurd hmode hrefused
      · rw [hshort, onPages_zero] at hkernel
        exact Or.inl hkernel
      · have hbase := hintact.coherent.base_of_isLive (lt_bound hlast) hlive hmiddle
        rw [hpages] at hkernel
        exact Or.inr ⟨s, rfl, hlive, Or.inl ⟨hcmd, hbase, hpages, hbufKey, hmode, hkernel⟩⟩
    · exact Or.inr ⟨s, rfl, hlive, Or.inr ⟨hcmd, hkernel⟩⟩

theorem KeepsSegment.set {table : ShmPgTable} {s : ℕ}
    (hpages : buf.pages = table.pagesAt s) (hkey : buf.shmPerm.key ≠ -1) :
    KeepsSegment table s buf.set where
  live := hkey
  pages := hpages
  pa _ := rfl
  agree _ _ _ := ⟨rfl, rfl, rfl⟩

theorem keeps_shmctl (hintact : kernel.Intact) (hmay : MayControl kernel.shmpgtable shmid cmd buf)
    (h : shmctlHelper kernel shmid cmd buf = .ok (kernel', result, buf')) :
    Keeps kernel kernel' := by
  rcases structured_shmctl hintact hmay h with
    rfl | ⟨s, -, -, ⟨-, hs, hpages, hkey, -, rfl⟩ | ⟨-, rfl⟩⟩
  · exact Keeps.refl hintact
  · have hkeep := KeepsSegment.set hpages hkey
    refine ⟨(hintact.coherent.onPages hs hkeep).1, frames_table rfl ?_⟩
    rw [hintact.coherent.segmentFrames_onPages hs hkeep]
  · exact Keeps.of_recounted (Recounted.markDest hintact.coherent s _) rfl rfl

theorem keeps_sbrk {n : ℤ} (hintact : kernel.Intact) (hp : p < nProc)
    (hrun : (kernel.proc p).state ≠ .unused) (h : sysSbrk kernel p n = .ok (kernel', result)) :
    Keeps kernel kernel' := by
  have hunshared := unsharedFrames_sbrk (hintact.sane.sizes p) hp hrun h
  rcases sysSbrk_cases (hintact.sane.sizes p) h with rfl | ⟨vm, sz, hresized⟩
  · exact Keeps.refl hintact
  · exact Keeps.of_same hintact (by rw [hresized.result]; rfl) hunshared

theorem inheritedIds_structured {table : ShmPgTable}
    (h : ∀ w < shmMaxSeg, table.isMiddle (shmsegs w).shmid = false) :
    ∀ shmid ∈ inheritedIds shmsegs, table.isMiddle shmid = false := by
  intro shmid hmem
  obtain ⟨w, -, hw, -, rfl⟩ := mem_runHeads hmem
  exact h w (by omega)

theorem droppedIds_structured {table : ShmPgTable}
    (h : ∀ w < shmMaxSeg, (shmsegs w).isAttached = true → table.isMiddle (shmsegs w).shmid = false) :
    ∀ shmid ∈ droppedIds shmsegs, table.isMiddle shmid = false := by
  intro shmid hmem
  obtain ⟨w, -, hw, hattached, rfl⟩ := mem_runHeads hmem
  exact h w (by omega) hattached

theorem keeps_fork (hintact : kernel.Intact) (hmiddle : ∀ w < shmMaxSeg,
      kernel.shmpgtable.isMiddle ((kernel.proc p).shmsegs w).shmid = false)
    (h : fork kernel p clock = .ok (kernel', result)) : Keeps kernel kernel' := by
  have hunshared := unsharedFrames_fork (hintact.sane.sizes p) h
  rcases fork_cases (hintact.sane.sizes p) h with ⟨-, hfailed⟩ | ⟨-, np, kstack, pgdir, hforked⟩
  · exact Keeps.of_same hintact hfailed.table hunshared
  · have hids : ∀ shmid ∈ (if (kernel.proc p).pid > 2 then
        inheritedIds (kernel.proc p).shmsegs else []), kernel.shmpgtable.isMiddle shmid = false := by
      split
      · exact inheritedIds_structured hmiddle
      · simp
    exact Keeps.of_unshared (Recounted.updateAll hintact.coherent hids hforked.table) hunshared

theorem keeps_exec {file : Option ExecFile} {argv : List (List UInt8)} (hintact : kernel.Intact)
    (hp : p < nProc) (hrun : (kernel.proc p).state ≠ .unused)
    (hmiddle : ∀ w < shmMaxSeg, ((kernel.proc p).shmsegs w).isAttached = true →
      kernel.shmpgtable.isMiddle ((kernel.proc p).shmsegs w).shmid = false)
    (h : exec kernel p clock file argv = .ok (kernel', result)) : Keeps kernel kernel' := by
  have hunshared := unsharedFrames_exec hp hrun h
  rcases exec_cases h with ⟨-, kmem, rfl, -⟩ | ⟨-, image, hexeced⟩
  · exact Keeps.of_same hintact rfl hunshared
  · exact Keeps.of_unshared (Recounted.updateAll hintact.coherent
      (droppedIds_structured hmiddle) hexeced.table) hunshared

theorem keeps_exit (hintact : kernel.Intact) (hrun : (kernel.proc p).state ≠ .unused)
    (h : exit kernel p = .ok (kernel', result)) : Keeps kernel kernel' :=
  Keeps.of_same hintact (exit_cases h).2.1 (unsharedFrames_exit hrun h)

theorem keeps_wait (hintact : kernel.Intact) (h : wait kernel p = .ok (kernel', result)) :
    Keeps kernel kernel' := by
  have hunshared := unsharedFrames_wait h
  rcases wait_cases h with rfl | ⟨q, kmem, -, -, -, rfl⟩
  · exact Keeps.refl hintact
  · exact Keeps.of_same hintact rfl hunshared

end Calls

theorem Kernel.Intact.step {kernel kernel' : Kernel} {result : ℤ}
    (hintact : kernel.Intact) (hstructured : Structured kernel label)
    (h : step kernel label = .ok (kernel', result)) :
    kernel'.Intact ∧ kernel'.frames = kernel.frames := by
  obtain ⟨hp, hcanRun, hcall⟩ := step_eq_ok h
  have hrun := Proc.canRun_ne_unused hcanRun
  have hkeeps : Keeps kernel kernel' := by
    obtain ⟨p, clock, call⟩ := label
    cases call with
    | shmget key size shmflag =>
      exact keeps_shmget hintact hstructured hcall
    | shmat shmid shmaddr shmflag =>
      exact keeps_shmat hintact hp hrun hstructured hcall
    | shmdt shmaddr =>
      exact keeps_shmdt hintact hp hrun hstructured hcall
    | shmctl shmid cmd buf =>
      obtain ⟨buf', hctl⟩ := perform_shmctl hcall
      exact keeps_shmctl hintact hstructured hctl
    | removeshm shmIdentifier flag =>
      exact keeps_removeshm hintact hstructured hcall
    | sbrk n =>
      exact keeps_sbrk hintact hp hrun hcall
    | fork =>
      exact keeps_fork hintact hstructured hcall
    | exec file argv =>
      exact keeps_exec hintact hp hrun hstructured hcall
    | exit =>
      exact keeps_exit hintact hrun hcall
    | wait =>
      exact keeps_wait hintact hcall
  refine ⟨⟨hintact.sane.step h, hkeeps.coherent, ?_⟩, hkeeps.frames⟩
  rw [hkeeps.frames]
  exact hintact.owned

theorem Boot.intact_of_runs {start : Kernel} (hboot : Boot start)
    (hrun : Runs Xv6Shm.step Structured start kernel) : kernel.Intact :=
  hrun.invariant Kernel.Intact hboot.intact fun _ _ _ _ hintact hstructured hstep ↦
    (hintact.step hstructured hstep).1

inductive TableChange (kernel : Kernel) (label : Label) (kernel' : Kernel) (result : ℤ) : Prop
  | recounted (htable : Recounted kernel.shmpgtable kernel'.shmpgtable)
      (hinfo : kernel'.shmInfo = kernel.shmInfo) : TableChange kernel label kernel' result
  | created {key : ℤ} {size shmflag index : ℕ} {append : Bool} {frames : List ℕ} {kmem : Kmem}
      (hcall : label.call = .shmget key size shmflag)
      (hcreating : kernel.shmpgtable.Creating (shmgetKey label.clock key) size shmflag)
      (hkey : shmgetKey label.clock key ≠ -1) (hresult : result = index)
      (hlength : frames.length = sizePages size)
      (hkernel : kernel' = kernel.created label.proc size (shmgetKey label.clock key) shmflag index
        append frames kmem)
      (hnew : NewSegment kernel.shmpgtable kernel'.shmpgtable index (sizePages size)) :
      TableChange kernel label kernel' result
  | set {shmid : ℤ} {buf : ShmidDs} {s : ℕ} (hcall : label.call = .shmctl shmid ipcSet buf)
      (hshmid : shmid = s) (hs : s ∈ kernel.shmpgtable.bases)
      (hpages : buf.pages = kernel.shmpgtable.pagesAt s) (hkey : buf.shmPerm.key ≠ -1)
      (hmode : (kernel.shmpgtable.shmSegs s).shmPerm.mode &&& shmR = 0)
      (hkernel : kernel' = { kernel with
        shmpgtable := kernel.shmpgtable.onPages s (kernel.shmpgtable.pagesAt s) buf.set }) :
      TableChange kernel label kernel' result
  | freed {shmIdentifier flag : ℤ} {s : ℕ} {kmem : Kmem}
      (hcall : label.call = .removeshm shmIdentifier flag)
      (hresolves : kernel.shmpgtable.Resolves shmIdentifier flag s)
      (hs : s ∈ kernel.shmpgtable.bases) (hnattch : (kernel.shmpgtable.shmSegs s).shmNattch = 0)
      (hkernel : kernel' = { kernel with
        kmem := kmem
        shmpgtable := kernel.shmpgtable.onPages s (kernel.shmpgtable.pagesAt s)
          fun _ ↦ ShmidDs.freed }) :
      TableChange kernel label kernel' result

theorem tableChange_of_step {kernel' : Kernel} {result : ℤ}
    (hintact : kernel.Intact) (hstructured : Structured kernel label)
    (h : step kernel label = .ok (kernel', result)) : TableChange kernel label kernel' result := by
  obtain ⟨-, -, hcall⟩ := step_eq_ok h
  have hsame (htable : kernel'.shmpgtable = kernel.shmpgtable)
      (hinfo : kernel'.shmInfo = kernel.shmInfo) : TableChange kernel label kernel' result := by
    refine .recounted ?_ hinfo
    rw [htable]
    exact Recounted.refl hintact.coherent
  unfold Structured at hstructured
  obtain ⟨p, clock, call⟩ := label
  cases call with
  | shmget key size shmflag =>
    rcases structured_shmget hintact hstructured hcall with ⟨rfl, -⟩ |
      ⟨hcreating, hkey, index, append, frames, kmem, -, hlength, hresult, hkernel, hnew⟩
    · exact hsame rfl rfl
    · exact .created rfl hcreating hkey hresult hlength hkernel hnew
  | shmat shmid shmaddr shmflag =>
    rcases structured_shmat hintact hstructured hcall with
      ⟨rfl, -⟩ | ⟨s, w, -, hs, -, -, ⟨st, -, rfl, -⟩ | ⟨-, -, -, rfl⟩⟩
    · exact hsame rfl rfl
    · exact .recounted (Recounted.attached hintact.coherent hs _ _) rfl
    · exact .recounted ⟨hintact.coherent.withLock true, rfl, rfl, fun _ ↦ rfl, fun _ ↦ rfl,
        fun _ ↦ rfl⟩ rfl
  | shmdt shmaddr =>
    rcases shmdtHelper_cases hintact.sane.table hcall with
      ⟨rfl, -⟩ | ⟨-, -, -, -, s, st, hdetaches⟩
    · exact hsame rfl rfl
    · dsimp only at hstructured
      rw [hdetaches.recorded] at hstructured
      rw [hdetaches.result]
      exact .recounted (Recounted.detached hintact.coherent
        (hintact.coherent.base_or_empty hstructured) _ _) rfl
  | shmctl shmid cmd buf =>
    obtain ⟨buf', hctl⟩ := perform_shmctl hcall
    rcases structured_shmctl hintact hstructured hctl with
      rfl | ⟨s, hshmid, -, ⟨rfl, hs, hpages, hkey, hmode, hkernel⟩ | ⟨-, rfl⟩⟩
    · exact hsame rfl rfl
    · exact .set rfl hshmid hs hpages hkey hmode hkernel
    · exact .recounted (Recounted.markDest hintact.coherent s _) rfl
  | removeshm shmIdentifier flag =>
    rcases structured_removeshm hintact hstructured hcall with ⟨htable, -, hinfo, -⟩ |
      ⟨s, hresolves, hs, ⟨-, -, rfl⟩ | ⟨-, hnattch, kmem, -, hkernel⟩⟩
    · exact hsame htable hinfo
    · exact .recounted (Recounted.setDest hintact.coherent hs) rfl
    · exact .freed rfl hresolves hs hnattch hkernel
  | sbrk n =>
    rcases sysSbrk_cases (hintact.sane.sizes p) hcall with rfl | ⟨vm, sz, hresized⟩
    · exact hsame rfl rfl
    · rw [hresized.result]
      exact .recounted (Recounted.refl hintact.coherent) rfl
  | fork =>
    rcases fork_cases (hintact.sane.sizes p) hcall with
      ⟨-, hfailed⟩ | ⟨-, np, kstack, pgdir, hforked⟩
    · exact hsame hfailed.table hfailed.info
    · refine .recounted (Recounted.updateAll hintact.coherent ?_ hforked.table) hforked.info
      split
      · exact inheritedIds_structured hstructured
      · simp
  | exec file argv =>
    rcases exec_cases hcall with ⟨-, kmem, rfl, -⟩ | ⟨-, image, hexeced⟩
    · exact .recounted (Recounted.refl hintact.coherent) rfl
    · exact .recounted (Recounted.updateAll hintact.coherent
        (droppedIds_structured hstructured) hexeced.table) hexeced.info
  | exit =>
    obtain ⟨-, htable, hinfo, -⟩ := exit_cases hcall
    exact hsame htable hinfo
  | wait =>
    rcases wait_cases hcall with rfl | ⟨q, kmem, -, -, -, rfl⟩
    · exact hsame rfl rfl
    · exact .recounted (Recounted.refl hintact.coherent) rfl

/-- Structured runs that stay in bounds lose no frame: once no segment is left and the processes
hold what they held at the start, the free list is that of the start again, up to its order. -/
theorem frames_conserved_of_runs {start kernel : Kernel} (hboot : Boot start)
    (hrun : Runs step (fun kernel label ↦ Structured kernel label ∧ InBounds kernel label) start
      kernel) : kernel.frames = start.frames ∧ (kernel.shmpgtable.bases = ∅ →
      kernel.procFrames = start.procFrames → kernel.kmem.freelist.Perm start.kmem.freelist) := by
  obtain ⟨hintact, hframes⟩ := hrun.invariant
    (fun kernel ↦ kernel.Intact ∧ kernel.frames = start.frames) ⟨hboot.intact, rfl⟩
    fun _ _ _ _ h hlabel hstep ↦ by
      obtain ⟨hintact, hsame⟩ := h.1.step hlabel.1 hstep
      exact ⟨hintact, hsame.trans h.2⟩
  refine ⟨hframes, fun hbases hprocs ↦ Multiset.coe_eq_coe.mp ?_⟩
  have hsegments : kernel.shmpgtable.segmentFrames = 0 := by
    refine Finset.sum_eq_zero fun i hi ↦ frames_of_not_isLive (Bool.eq_false_iff.mpr fun hlive ↦ ?_)
    obtain ⟨s, hs, -⟩ := hintact.coherent.tiling.covered i (Finset.mem_range.mp hi) hlive
    rw [hbases] at hs
    cases hs
  have hfirst : start.shmpgtable.segmentFrames = 0 := by
    rw [hboot.table]
    rfl
  unfold Kernel.frames at hframes
  rw [hsegments, hfirst, hprocs, add_zero, add_zero] at hframes
  exact add_right_cancel hframes

/-- A segment is created and removed. -/
theorem frames_conserved_of_runs_removed : ∃ kernel : Kernel,
    Runs step (fun kernel label ↦ Structured kernel label ∧ InBounds kernel label) (startKernel 1)
      kernel ∧ kernel.shmpgtable.bases = ∅ ∧ kernel.frames = (startKernel 1).frames := by
  obtain ⟨kernel, hrun, hbases⟩ : ∃ kernel,
      Runs step (fun kernel label ↦ Structured kernel label ∧ InBounds kernel label) (startKernel 1)
        kernel ∧ kernel.shmpgtable.bases = ∅ := by
    apply Runs.of_labels [startLabel (.shmget 5 4096 ipcCreat), startLabel (.removeshm 0 0)]
    decide +kernel
  exact ⟨kernel, hrun, hbases, (frames_conserved_of_runs (startKernel_boot _) hrun).1⟩

end Xv6Shm
