import Xv6Shm.Proc.Bounds
import Xv6Shm.System.Structure

/-!
# The table of segments along structured runs

In every state of a structured run the slots up to the last one split, in one way only, into free
slots and segments, and no structured call leaves the bounds of the table.
-/

namespace Xv6Shm

open Fallible ShmPgTable

variable {index flag key : ℤ} {size remaining i : ℕ} {st : Attaching}

section Bounds

variable {table : ShmPgTable} {kernel : Kernel} {p : ℕ} {clock : Clock}

theorem slot_avoids (hge : 0 ≤ index) (hlt : index < shmMaxSeg) :
    Avoids (.outOfBounds .shmSegs) (table.slot index) := by
  simp [slot, hge, hlt]

theorem modify_avoids (hge : 0 ≤ index) (hlt : index < shmMaxSeg)
    (change : ShmidDs → ShmidDs) : Avoids (.outOfBounds .shmSegs) (table.modify index change) := by
  simp [ShmPgTable.modify, hge, hlt]

theorem acquire_avoids : Avoids (.outOfBounds .shmSegs) table.acquire := by
  simp [ShmPgTable.acquire]

theorem modifyShmsegs_avoids (shmsegs : ℕ → AttachedShmsegs) (index : ℤ)
    (change : AttachedShmsegs → AttachedShmsegs) :
    Avoids (.outOfBounds .shmSegs) (modifyShmsegs shmsegs index change) := by
  simp [modifyShmsegs]

variable {s shmflag : ℕ} {shmid pid si : ℤ}

theorem forPages_avoids (change : ShmidDs → ShmidDs) {count : ℕ} (hroom : s + count ≤ shmMaxSeg) :
    Avoids (.outOfBounds .shmSegs) (table.forPages s change count) := by
  rw [(forPages_eq_ok (by omega)).mpr ⟨hroom, rfl⟩]
  exact avoids_ok _

/-- The slots of a segment lie inside the table, and where there are no pages there is no access. -/
theorem Coherent.room_of_base_or_empty (h : Coherent table) (hs : s < shmMaxSeg)
    (hbase : s ∈ table.bases ∨ table.pagesAt s = 0) : s + table.pagesAt s ≤ shmMaxSeg := by
  rcases hbase with hbase | hempty
  · exact h.room hbase
  · omega

theorem updateShmSeg_avoids (h : Coherent table) (hge : 0 ≤ shmid)
    (hlt : shmid < shmMaxSeg) (hmiddle : table.isMiddle shmid = false) (pid flag : ℤ) :
    Avoids (.outOfBounds .shmSegs) (updateShmSeg table clock shmid pid flag) := by
  obtain ⟨s, rfl⟩ := Int.eq_ofNat_of_zero_le hge
  refine (slot_avoids hge hlt).bind fun slot hslot ↦ ?_
  rw [slot_natCast (by omega)] at hslot
  cases hslot
  refine acquire_avoids.bind fun locked hacquire ↦ ?_
  obtain ⟨-, rfl⟩ := acquire_eq_ok.mp hacquire
  exact (forPages_avoids _ (h.room_of_base_or_empty (by omega)
    (h.base_or_empty hmiddle))).bind fun _ _ ↦ avoids_ok _

theorem updateAll_avoids {shmids : List ℤ} {table : ShmPgTable} (h : Coherent table)
    (hids : ∀ shmid ∈ shmids, 0 ≤ shmid ∧ shmid < shmMaxSeg ∧ table.isMiddle shmid = false) :
    Avoids (.outOfBounds .shmSegs) (updateAll clock pid flag shmids table) := by
  induction shmids generalizing table with
  | nil => simp [updateAll]
  | cons shmid rest ih =>
    obtain ⟨hge, hlt, hmiddle⟩ := hids shmid List.mem_cons_self
    rw [updateAll]
    refine (updateShmSeg_avoids h hge hlt hmiddle pid flag).bind fun next hfirst ↦ ?_
    have hsingle : updateAll clock pid flag [shmid] table = .ok next := by
      rw [updateAll, hfirst]
      rfl
    have hnext := Recounted.updateAll h
      (fun other hother ↦ List.mem_singleton.mp hother ▸ hmiddle) hsingle
    refine ih hnext.coherent fun other hother ↦ ?_
    obtain ⟨hge', hlt', hmiddle'⟩ := hids other (List.mem_cons_of_mem shmid hother)
    exact ⟨hge', hlt', (hnext.isMiddle other).trans hmiddle'⟩

theorem allocShmSeg_avoids (hsane : kernel.shmpgtable.Sane)
    (hroom : size ≤ maxSegSize → sizePages size ≤ kernel.kmem.freelist.length) :
    Avoids (.outOfBounds .shmSegs) (allocShmSeg kernel p size key shmflag) := by
  unfold allocShmSeg
  split
  · simp
  · rename_i hsize
    have hmax : size ≤ maxSegSize := by omega
    obtain ⟨hpos, -, -⟩ := sizePages_spec (by omega : shmMin ≤ size) hmax
    dsimp only
    rw [scanBound_eq_ok hsane.last_lt, ok_bind]
    split
    · simp
    · rename_i hfits
      obtain ⟨index, append, hplace, hplaced⟩ :=
        findRoom_spec hpos hsane.last_ge (not_lt.mp hfits)
      change kernel.shmpgtable.findRoom (pgRoundUp size / pgSize) _ = _ at hplace
      rw [hplace]
      refine Avoids.bind (fun hfault ↦ ?_) fun result _ ↦ by simp
      cases allocShmSegLoop_error hfault hplaced.fits (hroom hmax)

theorem shmgetHelper_avoids (hsane : kernel.shmpgtable.Sane)
    (hmay : MayCreate kernel (shmgetKey clock key) size shmflag) :
    Avoids (.outOfBounds .shmSegs) (shmgetHelper kernel p clock key size shmflag) := by
  have halloc (hcreating : kernel.shmpgtable.Creating (shmgetKey clock key) size shmflag) :
      Avoids (.outOfBounds .shmSegs) (allocShmSeg kernel p size (shmgetKey clock key) shmflag) :=
    allocShmSeg_avoids hsane (hmay hcreating).2
  by_cases hcreating : kernel.shmpgtable.Creating (shmgetKey clock key) size shmflag
  · rw [shmgetHelper_of_creating hsane hcreating]
    exact halloc hcreating
  · rw [shmgetHelper_of_not_creating hsane hcreating]
    exact avoids_ok _

theorem allocshmuvmLoop_avoids {shmaddr : ℕ} (hroom : s + i + remaining ≤ shmMaxSeg) :
    Avoids (.outOfBounds .shmSegs) (allocshmuvmLoop clock pid s shmaddr si shmflag remaining i st)
      := by
  induction remaining generalizing i st with
  | zero => simp [allocshmuvmLoop]
  | succ remaining ih =>
    rw [allocshmuvmLoop]
    refine (modifyShmsegs_avoids _ _ _).bind fun shmsegs _ ↦ ?_
    refine (slot_avoids (by omega) (by omega)).bind fun slot _ ↦ ?_
    refine (mappages_avoids _ _ _ _ _).bind fun mapped _ ↦ ?_
    obtain ⟨vm, ok⟩ := mapped
    dsimp only
    split
    · exact (modify_avoids (by omega) (by omega) _).bind fun table _ ↦ ih (by omega)
    · simp

theorem attachAt_avoids {va : ℕ} {reqPages : ℤ} (hroom : s + reqPages.toNat ≤ shmMaxSeg) :
    Avoids (.outOfBounds .shmSegs)
      (shmatHelper.attachAt p clock shmflag kernel s va reqPages si) := by
  refine Avoids.bind ?_ fun ⟨kernel', va'⟩ _ ↦ by simp
  refine acquire_avoids.bind fun table _ ↦ ?_
  exact (allocshmuvmLoop_avoids (by omega)).bind fun _ _ ↦ avoids_ok _

theorem checkUnattached_avoids {shmsegs : ℕ → AttachedShmsegs} : ∀ {remaining : ℕ} {i : ℤ},
    Avoids (.outOfBounds .shmSegs) (checkUnattached shmsegs remaining i) := by
  intro remaining
  induction remaining with
  | zero => simp [checkUnattached]
  | succ remaining ih => simp [checkUnattached, ih]

theorem shmatHelper_avoids {shmaddr : ℤ} (hsane : kernel.shmpgtable.Sane)
    (h : Coherent kernel.shmpgtable) (hmiddle : kernel.shmpgtable.isMiddle shmid = false) :
    Avoids (.outOfBounds .shmSegs) (shmatHelper kernel p clock shmid shmaddr shmflag) := by
  have hlt := hsane.last_lt
  unfold shmatHelper
  split
  · simp
  · rename_i hrange
    refine (slot_avoids (by omega) (by omega)).bind fun slot hslot ↦ ?_
    obtain ⟨s, rfl, hs, rfl⟩ := slot_eq_ok.mp hslot
    have hroom := h.room_of_base_or_empty hs (h.base_or_empty hmiddle)
    have hattach {va : ℕ} {si : ℤ} := @attachAt_avoids kernel p clock s shmflag si va
      (kernel.shmpgtable.shmSegs s).pages hroom
    dsimp only
    rw [(hsane.slots s).signedPages]
    split
    · simp
    · split
      · split <;> simp [hattach]
      · simp [checkUnattached_avoids, hattach]

theorem shmdtLoop_avoids (hroom : s + i + remaining ≤ shmMaxSeg) :
    Avoids (.outOfBounds .shmSegs) (shmdtLoop clock pid s si remaining i st) := by
  induction remaining generalizing i st with
  | zero => simp [shmdtLoop]
  | succ remaining ih =>
    rw [shmdtLoop]
    refine (modifyShmsegs_avoids _ _ _).bind fun shmsegs _ ↦ ?_
    refine (modify_avoids (by omega) (by omega) _).bind fun table _ ↦ ?_
    exact (clearmapping_avoids _ _).bind fun pgdir _ ↦ ih (by omega)

theorem detachAt_avoids {w : ℕ} (hsane : kernel.Sane) (h : Coherent kernel.shmpgtable)
    (hattached : ((kernel.proc p).shmsegs w).isAttached = true)
    (hmiddle : kernel.shmpgtable.isMiddle ((kernel.proc p).shmsegs w).shmid = false) :
    Avoids (.outOfBounds .shmSegs) (detachAt kernel p clock w) := by
  have hge := (hsane.records p w).attached_ge hattached
  have hlt := (hsane.records p w).shmid_lt
  refine (slot_avoids hge hlt).bind fun slot hslot ↦ ?_
  obtain ⟨s, hshmid, hs, rfl⟩ := slot_eq_ok.mp hslot
  rw [hshmid] at hmiddle hge hlt ⊢
  have hroom : s + (kernel.shmpgtable.shmSegs s).pages ≤ shmMaxSeg :=
    h.room_of_base_or_empty hs (h.base_or_empty hmiddle)
  refine acquire_avoids.bind fun table _ ↦ ?_
  rw [(hsane.table.slots s).signedPages, Int.toNat_natCast]
  refine (shmdtLoop_avoids (by omega)).bind fun st _ ↦ ?_
  exact (modify_avoids hge hlt _).bind fun _ _ ↦ avoids_ok _

theorem shmdtHelper_avoids {shmaddr : ℤ} (hsane : kernel.Sane) (h : Coherent kernel.shmpgtable)
    (hmiddle : kernel.shmpgtable.isMiddle
      ((kernel.proc p).shmsegs (addrSlot shmaddr)).shmid = false) :
    Avoids (.outOfBounds .shmSegs) (shmdtHelper kernel p clock shmaddr) := by
  unfold shmdtHelper
  split
  · simp
  · dsimp only
    split
    · split
      · simp
      · rename_i hattached
        exact detachAt_avoids hsane h (by simpa using hattached) hmiddle
    · simp

theorem shmctlHelper_avoids {cmd : ℤ} {buf : ShmidDs} (hsane : kernel.shmpgtable.Sane)
    (h : Coherent kernel.shmpgtable) (hmay : MayControl kernel.shmpgtable shmid cmd buf) :
    Avoids (.outOfBounds .shmSegs) (shmctlHelper kernel shmid cmd buf) := by
  have hlt := hsane.last_lt
  unfold shmctlHelper
  split
  · simp
  · rename_i hrange
    refine (slot_avoids (by omega) (by omega)).bind fun slot hslot ↦ ?_
    obtain ⟨s, rfl, hs, rfl⟩ := slot_eq_ok.mp hslot
    split
    · simp
    · rename_i hkey
      obtain ⟨hset, hrmid⟩ := hmay (by omega) (by omega) (isLive_iff.mpr hkey)
      split
      · simp
      · split
        · rename_i hcmd
          split
          · simp
          · rename_i hmode
            refine acquire_avoids.bind fun table _ ↦ ?_
            refine (forPages_avoids _ ?_).bind fun _ _ ↦ avoids_ok _
            rcases hset hcmd with hrefused | hshort | ⟨hmiddle, hpages, -⟩
            · exact absurd hrefused hmode
            · omega
            · rw [hpages]
              exact h.room_of_base_or_empty hs (h.base_or_empty hmiddle)
        · split
          · rename_i hcmd
            have hroom := hrmid hcmd
            rw [Int.toNat_natCast] at hroom
            refine (forPages_avoids _ ?_).bind fun _ _ ↦ avoids_ok _
            unfold pagesAt at hroom
            omega
          · simp

theorem removeSegment_avoids (hs : s < shmMaxSeg)
    (hroom : s + (kernel.shmpgtable.shmSegs s).pages ≤ shmMaxSeg) :
    Avoids (.outOfBounds .shmSegs) (removeSegment kernel s) := by
  unfold removeSegment
  rw [slot_natCast hs, ok_bind]
  refine (forPages_avoids _ hroom).bind fun table hpages ↦ ?_
  obtain ⟨-, rfl⟩ := (forPages_eq_ok hs.le).mp hpages
  rw [slot_natCast hs, ok_bind]
  split
  · refine Avoids.bind ?_ fun _ _ ↦ avoids_ok _
    unfold freeshmPages
    have hsame : ((kernel.shmpgtable.onPages s (kernel.shmpgtable.shmSegs s).pages
        ShmidDs.setDest).shmSegs s).pages = (kernel.shmpgtable.shmSegs s).pages :=
      onPages_field ShmidDs.setDest ShmidDs.pages (fun _ ↦ rfl) s
    rw [slot_natCast hs, ok_bind, hsame]
    intro hfault
    cases freeshmPagesLoop_error hfault hroom
  · simp

theorem removeshmHelper_avoids {shmIdentifier : ℤ} (hsane : kernel.shmpgtable.Sane)
    (h : Coherent kernel.shmpgtable) (hmay : MayRemove kernel.shmpgtable shmIdentifier flag) :
    Avoids (.outOfBounds .shmSegs) (removeshmHelper kernel shmIdentifier flag) := by
  have hremove {s : ℕ} (hs : s < shmMaxSeg)
      (hresolves : kernel.shmpgtable.Resolves shmIdentifier flag s) :
      Avoids (.outOfBounds .shmSegs) (removeSegment kernel s) :=
    removeSegment_avoids hs (h.room_of_base_or_empty hs (h.resolves hmay hresolves))
  have hlt := hsane.last_lt
  unfold removeshmHelper
  dsimp only
  split
  · rename_i hflag
    rw [findKey_eq hsane.last_lt, ok_bind]
    split
    · simp
    · rename_i i hlookup
      have hlast := (lookup_some hlookup).1
      apply hremove (by omega)
      rw [ShmPgTable.Resolves, if_pos hflag]
      exact hlookup
  · rename_i hflag
    split
    · simp
    · rename_i hvalid
      rcases hmay with hflag' | hempty | hinvalid | ⟨hge, hmax, -⟩
      · exact absurd hflag' hflag
      · omega
      · omega
      · obtain ⟨s, rfl⟩ := Int.eq_ofNat_of_zero_le hge
        apply hremove (by omega)
        rw [ShmPgTable.Resolves, if_neg hflag]
        exact ⟨rfl, by omega, by omega⟩

theorem fork_avoids (hsane : kernel.Sane) (h : Coherent kernel.shmpgtable)
    (hmiddle : ∀ w < shmMaxSeg,
      kernel.shmpgtable.isMiddle ((kernel.proc p).shmsegs w).shmid = false) :
    Avoids (.outOfBounds .shmSegs) (fork kernel p clock) := by
  have hids : ∀ shmid ∈ inheritedIds (kernel.proc p).shmsegs,
      0 ≤ shmid ∧ shmid < shmMaxSeg ∧ kernel.shmpgtable.isMiddle shmid = false := by
    intro shmid hmem
    refine ⟨?_, ?_, inheritedIds_structured hmiddle shmid hmem⟩
    · obtain ⟨w, -, -, hcounts, rfl⟩ := mem_runHeads hmem
      have hge := (hsane.records p w).shmid_ge
      rw [bne_iff_ne] at hcounts
      omega
    · obtain ⟨w, -, -, -, rfl⟩ := mem_runHeads hmem
      exact (hsane.records p w).shmid_lt
  unfold fork
  generalize halloc : allocproc kernel = allocated
  obtain ⟨kernel₁, slot⟩ := allocated
  rcases allocproc_cases halloc with ⟨rfl, -⟩ | ⟨np, kstack, kmem, rfl, -, -, -, rfl⟩
  · simp
  · dsimp only
    refine (copyuvm_avoids _ _ _).bind fun ⟨kmem, copied⟩ _ ↦ ?_
    cases copied with
    | none => exact (kfree_avoids _ _).bind fun _ _ ↦ avoids_ok _
    | some pgdir =>
      dsimp only
      split
      · rw [inheritLoop_eq]
        exact (updateAll_avoids h hids).bind fun _ _ ↦ avoids_ok _
      · simp

theorem exec_avoids {file : Option ExecFile} {argv : List (List UInt8)} (hsane : kernel.Sane)
    (h : Coherent kernel.shmpgtable)
    (hmiddle : ∀ w < shmMaxSeg, ((kernel.proc p).shmsegs w).isAttached = true →
      kernel.shmpgtable.isMiddle ((kernel.proc p).shmsegs w).shmid = false) :
    Avoids (.outOfBounds .shmSegs) (exec kernel p clock file argv) := by
  have hids : ∀ shmid ∈ droppedIds (kernel.proc p).shmsegs,
      0 ≤ shmid ∧ shmid < shmMaxSeg ∧ kernel.shmpgtable.isMiddle shmid = false := by
    intro shmid hmem
    refine ⟨?_, ?_, droppedIds_structured hmiddle shmid hmem⟩
    · obtain ⟨w, -, -, hattached, rfl⟩ := mem_runHeads hmem
      exact (hsane.records p w).attached_ge hattached
    · obtain ⟨w, -, -, -, rfl⟩ := mem_runHeads hmem
      exact (hsane.records p w).shmid_lt
  unfold exec
  cases file with
  | none => simp
  | some file =>
    refine (execImage_avoids _ _).bind fun ⟨kmem, built⟩ _ ↦ ?_
    cases built with
    | none => simp
    | some image =>
      dsimp only
      rw [dropLoop_eq]
      refine (updateAll_avoids h hids).bind fun table _ ↦ ?_
      exact (freevm_avoids _).bind fun _ _ ↦ avoids_ok _

theorem sysSbrk_avoids {n : ℤ} : Avoids (.outOfBounds .shmSegs) (sysSbrk kernel p n) := by
  simp [sysSbrk, growproc]

theorem exit_avoids : Avoids (.outOfBounds .shmSegs) (exit kernel p) := by
  simp [exit]

theorem wait_avoids : Avoids (.outOfBounds .shmSegs) (wait kernel p) := by
  unfold wait
  dsimp only
  split <;> simp

end Bounds

variable {kernel : Kernel}

/-- A structured call stays inside the table. -/
theorem structured_step_avoids {label : Label} (hintact : kernel.Intact)
    (hstructured : Structured kernel label) :
    Avoids (.outOfBounds .shmSegs) (step kernel label) := by
  obtain ⟨hsane, hcoherent, -⟩ := hintact
  unfold step
  split
  · unfold Structured at hstructured
    obtain ⟨p, clock, call⟩ := label
    cases call with
    | shmget key size shmflag =>
      exact shmgetHelper_avoids hsane.table hstructured
    | shmat shmid shmaddr shmflag =>
      exact shmatHelper_avoids hsane.table hcoherent hstructured
    | shmdt shmaddr =>
      exact shmdtHelper_avoids hsane hcoherent hstructured
    | shmctl shmid cmd buf =>
      exact (shmctlHelper_avoids hsane.table hcoherent hstructured).bind fun _ _ ↦ avoids_ok _
    | removeshm shmIdentifier flag =>
      exact removeshmHelper_avoids hsane.table hcoherent hstructured
    | sbrk n => exact sysSbrk_avoids
    | fork =>
      exact fork_avoids hsane hcoherent hstructured
    | exec file argv =>
      exact exec_avoids hsane hcoherent hstructured
    | exit => exact exit_avoids
    | wait => exact wait_avoids
  · simp

/-- A segment at slot `s`: as many slots as its size says, alike in key, size and attach count, with
distinct addresses. -/
structure IsSegment (table : ShmPgTable) (s : ℕ) : Prop where
  nonempty : 0 < table.pagesAt s
  inside : s + table.pagesAt s ≤ table.bound
  live : (table.shmSegs s).shmPerm.key ≠ -1
  agree : ∀ i, s ≤ i → i < s + table.pagesAt s → (table.shmSegs i).Agrees (table.shmSegs s)
  pa_ne_zero : ∀ i, s ≤ i → i < s + table.pagesAt s → (table.shmSegs i).pa ≠ 0
  pa_distinct : ∀ i j, s ≤ i → i < j → j < s + table.pagesAt s →
    (table.shmSegs i).pa ≠ (table.shmSegs j).pa

/-- The slots up to the last one are free or belong to one of the segments at the given slots. -/
structure Splits (table : ShmPgTable) (bases : Finset ℕ) : Prop where
  segment : ∀ s ∈ bases, IsSegment table s
  apart : ∀ s ∈ bases, ∀ t ∈ bases, s < t → s + table.pagesAt s ≤ t
  covered : ∀ i < table.bound, (table.shmSegs i).Vacant ∨
    ∃ s ∈ bases, s ≤ i ∧ i < s + table.pagesAt s

theorem Splits.tiling {table : ShmPgTable} {bases : Finset ℕ} (h : Splits table bases) :
    Tiling.IsTiling table.isLive table.pagesAt table.bound bases where
  positive s hs := (h.segment s hs).nonempty
  inside s hs := (h.segment s hs).inside
  apart := h.apart
  filled s hs i hsi hlt := by
    rw [isLive_iff, ((h.segment s hs).agree i hsi hlt).key]
    exact (h.segment s hs).live
  covered i hi hlive := by
    rcases h.covered i hi with hvacant | hcovered
    · exact absurd hvacant.key (isLive_iff.mp hlive)
    · exact hcovered

theorem Kernel.Intact.pa_ne (hintact : kernel.Intact) {j : ℕ} (hlt : i < j)
    (hj : j < kernel.shmpgtable.bound) (hi : kernel.shmpgtable.isLive i = true)
    (hlive : kernel.shmpgtable.isLive j = true) :
    (kernel.shmpgtable.shmSegs i).pa ≠ (kernel.shmpgtable.shmSegs j).pa := by
  intro hsame
  have hsegments :=
    Multiset.nodup_of_le ((Multiset.le_add_left _ _).trans (Multiset.le_add_right _ _))
      hintact.owned
  have hdisjoint := Cells.nodup_sum_disjoint (fun i ↦ (kernel.shmpgtable.shmSegs i).frames)
    hsegments (Finset.mem_range.mpr (hlt.trans hj)) (Finset.mem_range.mpr hj) (Nat.ne_of_lt hlt)
  rw [ShmidDs.frames_of_isLive hi, ShmidDs.frames_of_isLive hlive, hsame,
    Multiset.disjoint_singleton, Multiset.mem_singleton] at hdisjoint
  exact hdisjoint rfl

theorem Kernel.Intact.splits (hintact : kernel.Intact) :
    Splits kernel.shmpgtable kernel.shmpgtable.bases where
  segment s hs := by
    have htiling := hintact.coherent.tiling
    have hinside := htiling.inside s hs
    refine ⟨htiling.positive s hs, hinside, ?_, hintact.coherent.agree s hs, ?_, ?_⟩
    · exact isLive_iff.mp (hintact.coherent.isLive_of_mem hs)
    · intro i hsi hlt hzero
      have hframe := hintact.coherent.frame i (by omega) (htiling.filled s hs i hsi hlt)
      rw [hzero] at hframe
      exact absurd hframe (by decide)
    · intro i j hsi hij hlt
      exact hintact.pa_ne hij (by omega) (htiling.filled s hs i hsi (by omega))
        (htiling.filled s hs j (by omega) hlt)
  apart := hintact.coherent.tiling.apart
  covered i hi := by
    cases hlive : kernel.shmpgtable.isLive i with
    | false => exact Or.inl (hintact.coherent.vacant i hi hlive)
    | true => exact Or.inr (hintact.coherent.tiling.covered i hi hlive)

/-- In every state of a structured run the table splits in exactly one way, and no structured call
leaves its bounds. -/
theorem table_splits_of_structured {start kernel : Kernel} (hboot : Boot start)
    (hrun : Runs step Structured start kernel) :
    (∃! bases, Splits kernel.shmpgtable bases) ∧ ∀ label, Structured kernel label →
        step kernel label ≠ .error (.outOfBounds .shmSegs) := by
  have hintact := hboot.intact_of_runs hrun
  refine ⟨⟨kernel.shmpgtable.bases, hintact.splits, fun bases hsplits ↦ ?_⟩, fun label hlabel ↦ ?_⟩
  · exact hsplits.tiling.eq_walk
  · exact structured_step_avoids hintact hlabel

/-- Attaching the second page of a segment leaves slots that do not agree in their attach counts. -/
theorem shmat_of_middle_breaks_split : ∃ created attached : Kernel, Boot (startKernel 3) ∧
      step (startKernel 3) (startLabel (.shmget 5 8192 ipcCreat)) = .ok (created, 0) ∧
      step created (startLabel (.shmat 1 0 0)) = .ok (attached, windowAddr 0) ∧
      ¬ ∃ bases, Splits attached.shmpgtable bases := by
  obtain ⟨created, hget, attached, hat, hbound, hlive, hpages, hne⟩ : ∃ created,
      step (startKernel 3) (startLabel (.shmget 5 8192 ipcCreat)) = .ok (created, 0) ∧
      ∃ attached, step created (startLabel (.shmat 1 0 0)) = .ok (attached, windowAddr 0) ∧
        0 < attached.shmpgtable.bound ∧ attached.shmpgtable.isLive 0 = true ∧
        attached.shmpgtable.pagesAt 0 = 2 ∧
        (attached.shmpgtable.shmSegs 1).shmNattch ≠ (attached.shmpgtable.shmSegs 0).shmNattch := by
    decide +kernel
  refine ⟨created, attached, startKernel_boot _, hget, hat, ?_⟩
  rintro ⟨bases, hsplits⟩
  obtain ⟨s, hs, hsi, -⟩ := hsplits.tiling.covered 0 hbound hlive
  rw [Nat.le_zero.mp hsi] at hs
  exact hne ((hsplits.segment 0 hs).agree 1 (by omega) (by omega)).nattch

/-- A segment of two pages is created and attached. -/
theorem table_splits_of_structured_attached : ∃ kernel : Kernel,
    Runs step Structured (startKernel 3) kernel ∧ 0 < (kernel.shmpgtable.shmSegs 1).shmNattch ∧
      (∃! bases, Splits kernel.shmpgtable bases) ∧
      ∀ label, Structured kernel label → step kernel label ≠ .error (.outOfBounds .shmSegs) := by
  obtain ⟨kernel, hrun, hnattch⟩ : ∃ kernel, Runs step Structured (startKernel 3) kernel ∧
      0 < (kernel.shmpgtable.shmSegs 1).shmNattch := by
    apply Runs.of_labels [startLabel (.shmget 5 8192 ipcCreat), startLabel (.shmat 0 0 0)]
    decide +kernel
  exact ⟨kernel, hrun, hnattch, table_splits_of_structured (startKernel_boot _) hrun⟩

end Xv6Shm
