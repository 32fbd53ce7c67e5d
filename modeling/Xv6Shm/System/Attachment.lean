import Xv6Shm.Shm.Placement
import Xv6Shm.System.Shmget

/-!
# Attaching and detaching

What `shmat` and `shmdt` should do to a process, against what they do: an attach that runs out of
memory for a page table, an attach at a given address, and slots that are in use or do not exist.
-/

namespace Xv6Shm

open Fallible Function

/-- `mappages` fails for page `i` when the segment at slot `s` is attached at window slot `w`: the
pages before it are attached, and there is no memory for its page table. -/
def FailsAt (kernel : Kernel) (p : ℕ) (clock : Clock) (s w shmflag i : ℕ) : Prop :=
  i < (kernel.shmpgtable.shmSegs s).pages ∧ ∃ st vm,
    allocshmuvmLoop clock (kernel.proc p).pid s (windowAddr w) w shmflag i 0 (kernel.attaching p) =
      .ok (st, true) ∧
    mappages st.vm (windowAddr (w + i)) pgSize (v2p (st.table.shmSegs (s + i)).pa)
      (attachPerm shmflag) = .ok (vm, false)

/-- The call has failed and has left the attachments and translations of the process, the attach
counts, the frames of the segments and the lock alone. -/
structure AttachUndone (kernel : Kernel) (p : ℕ) (outcome : Except Fault (Kernel × ℤ))
    (kernel' : Kernel) (result : ℤ) : Prop where
  returns : outcome = .ok (kernel', result)
  error : result < 0
  shmsegs : (kernel'.proc p).shmsegs = (kernel.proc p).shmsegs
  present : ∀ b < kernBase,
    isPresent ((kernel'.proc p).pgdir.pte b) = isPresent ((kernel.proc p).pgdir.pte b) ∧
      (isPresent ((kernel.proc p).pgdir.pte b) = true →
        (kernel'.proc p).pgdir.pte b = (kernel.proc p).pgdir.pte b)
  nattch : ∀ i, (kernel'.shmpgtable.shmSegs i).shmNattch = (kernel.shmpgtable.shmSegs i).shmNattch
  frames : ∀ i, (kernel'.shmpgtable.shmSegs i).pa = (kernel.shmpgtable.shmSegs i).pa ∧
    (p2v (kernel.shmpgtable.shmSegs i).pa ∈ kernel'.kmem.freelist ↔
      p2v (kernel.shmpgtable.shmSegs i).pa ∈ kernel.kmem.freelist)
  unlocked : kernel'.shmpgtable.locked = false

/-- An attach for which `mappages` fails is never undone. -/
theorem failed_attach_leaves_trace {kernel : Kernel} {p s w shmflag i : ℕ} {clock : Clock}
    {shmaddr : ℤ} (hsane : kernel.shmpgtable.Sane)
    (hs : (s : ℤ) ≤ kernel.shmpgtable.lastShmSegIndex)
    (hunlocked : kernel.shmpgtable.locked = false)
    (hchosen : ChosenSlot (kernel.proc p).shmsegs shmaddr shmflag
      (kernel.shmpgtable.shmSegs s).pages w) (hfails : FailsAt kernel p clock s w shmflag i) :
    ¬ ∃ kernel' result, AttachUndone kernel p (shmatHelper kernel p clock s shmaddr shmflag)
      kernel' result := by
  rintro ⟨kernel', result, hundone⟩
  obtain ⟨hi, st, vm, hbefore, hmap⟩ := hfails
  obtain ⟨rest, hcount⟩ : ∃ rest, (kernel.shmpgtable.shmSegs s).pages = i + (rest + 1) :=
    ⟨(kernel.shmpgtable.shmSegs s).pages - i - 1, by omega⟩
  obtain ⟨hw, hcall⟩ := @shmatHelper_chosen kernel p s shmflag clock shmaddr hsane hs (by omega) w
    hchosen
  have hreturn := hundone.returns
  rw [hcall, attachAt_eq hunlocked hw] at hreturn
  obtain ⟨⟨st', ok⟩, hloop, hreturn⟩ := bind_eq_ok.mp hreturn
  rw [hcount, allocshmuvmLoop_add hbefore, Nat.zero_add] at hloop
  -- the page is not mapped, so the loop has given up with the table it had before
  obtain ⟨hwi, -, ⟨mapped, hpage, -⟩ | ⟨rfl, -, vm', sz, -, rfl⟩⟩ := allocshmuvmLoop_step hloop
  · rw [mappages_page (windowAddr_aligned _) (windowAddr_word hwi)] at hmap
    change mapPage st.vm (windowAddr (w + i)) (v2p _ ||| attachPerm shmflag ||| pteP) = _ at hpage
    rw [hpage] at hmap
    cases hmap
  · cases hreturn
    have hlocked : st.table.locked = true := by
      rw [(allocshmuvmLoop_ok hbefore).table]
      rfl
    exact absurd hundone.unlocked (by simpa using hlocked)

/-- A segment has taken the only frame, and there is none for the page table of its attachment. -/
theorem startKernel_exhausted : ∃ created : Kernel,
    step (startKernel 1) (startLabel (.shmget 5 4096 ipcCreat)) = .ok (created, 0) ∧
      created.shmpgtable.WellFormed ∧ (0 : ℤ) ≤ created.shmpgtable.lastShmSegIndex ∧
      ChosenSlot (created.proc 2).shmsegs 0 2 (created.shmpgtable.shmSegs 0).pages 0 ∧
      FailsAt created 2 startClock 0 0 2 0 ∧
      ((created.proc 2).shmsegs 0).isAttached = false ∧
      ∃ kernel, step created (startLabel (.shmat 0 0 2)) = .ok (kernel, eNomem) ∧
        kernel.shmpgtable.locked = true ∧ ((kernel.proc 2).shmsegs 0).isAttached = true := by
  apply startKernel_creates (by decide) (by decide)
  simp only [chosenSlot_iff, FailsAt, exists_and_left]
  decide +kernel

/-- The attach fails, its slot is marked and the lock stays held. -/
theorem failed_attach_keeps_lock : ∃ created kernel : Kernel,
    created.shmpgtable.WellFormed ∧ (0 : ℤ) ≤ created.shmpgtable.lastShmSegIndex ∧
      FailsAt created 2 startClock 0 0 2 0 ∧
      step created (startLabel (.shmat 0 0 2)) = .ok (kernel, eNomem) ∧
      created.shmpgtable.locked = false ∧ kernel.shmpgtable.locked = true ∧
      ((created.proc 2).shmsegs 0).isAttached = false ∧
      ((kernel.proc 2).shmsegs 0).isAttached = true := by
  obtain ⟨created, -, htable, hlast, -, hfails, hbefore, kernel, hstep, hlocked, hafter⟩ :=
    startKernel_exhausted
  exact ⟨created, kernel, htable, hlast, hfails, hstep, htable.unlocked, hlocked, hbefore, hafter⟩

theorem failed_attach_leaves_trace_first : ∃ created : Kernel,
    FailsAt created 2 startClock 0 0 2 0 ∧
      ¬ ∃ kernel' result, AttachUndone created 2 (shmatHelper created 2 startClock (0 : ℕ) 0 2)
        kernel' result := by
  obtain ⟨created, -, htable, hlast, hchosen, hfails, -⟩ := startKernel_exhausted
  exact ⟨created, hfails, failed_attach_leaves_trace htable.sane hlast htable.unlocked hchosen
    hfails⟩

/-- The call has returned the page of the given address, has attached the segment at slot `s` from
there on, and has changed no other slot and no other entry of the process. -/
structure AttachesGiven (kernel : Kernel) (p s : ℕ) (shmaddr : ℤ)
    (outcome : Except Fault (Kernel × ℤ)) (kernel' : Kernel) : Prop where
  returns : outcome = .ok (kernel', (pgRoundDown (Word.ofInt shmaddr) : ℤ))
  slots : (kernel'.proc p).shmsegs = Cells.onRange (addrSlot shmaddr)
    (kernel.shmpgtable.pagesAt s) (fun _ _ ↦ ⟨true, s⟩) (kernel.proc p).shmsegs
  present : ∀ offset < kernel.shmpgtable.pagesAt s,
    isPresent ((kernel'.proc p).pgdir.pte (windowAddr (addrSlot shmaddr + offset))) = true
  others : ∀ b < Word.size, b / pgSize < heapLimit / pgSize + addrSlot shmaddr ∨
    heapLimit / pgSize + (addrSlot shmaddr + kernel.shmpgtable.pagesAt s) ≤ b / pgSize →
    (kernel'.proc p).pgdir.pte b = (kernel.proc p).pgdir.pte b

/-- The pages from the given address on are mapped to the addresses that `target` gives for the
slots of the segment. -/
def MapsPages (kernel : Kernel) (p s : ℕ) (shmaddr : ℤ) (target : ShmidDs → ℕ)
    (kernel' : Kernel) : Prop :=
  ∀ offset < kernel.shmpgtable.pagesAt s,
    pteAddr ((kernel'.proc p).pgdir.pte (windowAddr (addrSlot shmaddr + offset))) =
      target (kernel.shmpgtable.shmSegs (s + offset))

section Given

variable {kernel : Kernel} {p s shmflag : ℕ} {clock : Clock} {shmaddr : ℤ}

theorem AttachedPages.attachesGiven {st : Attaching} {table : ShmPgTable}
    (hsane : kernel.shmpgtable.Sane)
    (hva : pgRoundDown (Word.ofInt shmaddr) = windowAddr (addrSlot shmaddr))
    (hpages : AttachedPages clock (kernel.proc p).pid s shmflag s (addrSlot shmaddr)
      (kernel.shmpgtable.pagesAt s) (kernel.attaching p) st) :
    AttachesGiven kernel p s shmaddr
        (.ok (kernel.putAttaching p table st, (windowAddr (addrSlot shmaddr) : ℤ)))
        (kernel.putAttaching p table st) ∧
      MapsPages kernel p s shmaddr (fun slot ↦ v2p slot.pa) (kernel.putAttaching p table st) := by
  have hproc : (kernel.putAttaching p table st).proc p =
      { kernel.proc p with pgdir := st.vm.pgdir, shmsegs := st.shmsegs } :=
    update_self _ _ _
  have hentry (offset : ℕ) (h : offset < kernel.shmpgtable.pagesAt s) :=
    attachEntry_spec shmflag (hsane.slots (s + offset)).aligned (hsane.slots (s + offset)).below
  unfold MapsPages
  rw [hproc]
  refine ⟨⟨by rw [hva], ?_, ?_, ?_⟩, ?_⟩
  · rw [hproc]
    exact hpages.shmsegs
  · intro offset hoffset
    rw [hproc]
    rw [hpages.entry offset hoffset]
    exact (hentry offset hoffset).1
  · intro b hb hout
    rw [hproc]
    exact hpages.others b hb hout
  · intro offset hoffset
    rw [hpages.entry offset hoffset]
    exact (hentry offset hoffset).2

/-- The second conversion of the stored address never gives the address itself. -/
theorem ShmidDs.Sane.v2p_pa_ne {slot : ShmidDs} (h : slot.Sane) : v2p slot.pa ≠ slot.pa := by
  have hlt : slot.pa < kernBase := lt_trans h.below (by decide)
  rw [v2p_of_lt hlt]
  omega

/-- At a given address inside the window, with room from there on and memory for the page tables, no
page is ever mapped to its frame. Apart from the frame addresses the call does what it should
exactly if the flag word is `SHM_RND` and the window has no stale entry there. -/
theorem shmat_given_address_iff (htable : kernel.shmpgtable.WellFormed)
    (hbase : s ∈ kernel.shmpgtable.bases) (hlow : (heapLimit : ℤ) ≤ shmaddr)
    (hhigh : shmaddr < kernBase) (halign : shmflag = shmRnd ∨ shmaddr.tmod pgSize = 0)
    (hfits : addrSlot shmaddr + kernel.shmpgtable.pagesAt s ≤ shmMaxSeg)
    (hclear : ∀ offset < kernel.shmpgtable.pagesAt s,
      ((kernel.proc p).shmsegs (addrSlot shmaddr + offset)).isAttached = false)
    (hmemory : (⟨kernel.kmem, (kernel.proc p).pgdir⟩ : Vm).HasMemory (addrSlot shmaddr)
      (kernel.shmpgtable.pagesAt s)) :
    (¬ ∃ kernel', AttachesGiven kernel p s shmaddr
        (shmatHelper kernel p clock s shmaddr shmflag) kernel' ∧
      MapsPages kernel p s shmaddr ShmidDs.pa kernel') ∧
    ((∃ kernel', AttachesGiven kernel p s shmaddr
        (shmatHelper kernel p clock s shmaddr shmflag) kernel' ∧
      MapsPages kernel p s shmaddr (fun slot ↦ v2p slot.pa) kernel') ↔
      shmflag = shmRnd ∧ ∀ offset < kernel.shmpgtable.pagesAt s,
        isPresent ((kernel.proc p).pgdir.pte (windowAddr (addrSlot shmaddr + offset))) = false) := by
  have hsane := htable.sane
  have hpos := htable.coherent.tiling.positive s hbase
  have hs := ShmPgTable.le_last (htable.coherent.tiling.lt_bound hbase)
  obtain ⟨hw, hva⟩ := addrSlot_spec hlow hhigh
  by_cases hflag : shmflag = shmRnd
  · have hcall := @shmatHelper_given kernel p s shmflag clock shmaddr hsane hs hpos hlow hhigh hflag
      fun j hle hlt ↦ by
        have hslot := hclear (j - addrSlot shmaddr) (by unfold ShmPgTable.pagesAt; omega)
        rwa [Nat.add_sub_cancel' hle] at hslot
    rw [hcall]
    by_cases habsent : ∀ offset < kernel.shmpgtable.pagesAt s,
        isPresent ((kernel.proc p).pgdir.pte (windowAddr (addrSlot shmaddr + offset))) = false
    · have hattachable : Attachable kernel p s (addrSlot shmaddr) :=
        ⟨htable.unlocked, hfits, htable.coherent.room hbase, habsent, hmemory⟩
      obtain ⟨st, hpages, hreturn⟩ := @Attachable.attachAt _ _ _ _ shmflag clock hattachable hsane
        hpos
      obtain ⟨hgiven, hmaps⟩ := hpages.attachesGiven hsane hva
      rw [hreturn]
      refine ⟨?_, fun _ ↦ ⟨hflag, habsent⟩, fun _ ↦ ⟨_, hgiven, hmaps⟩⟩
      rintro ⟨kernel', hgiven', hframes⟩
      obtain ⟨rfl, -⟩ := Prod.mk.inj (Except.ok.inj hgiven'.returns)
      exact (hsane.slots (s + 0)).v2p_pa_ne ((hmaps 0 hpos).symm.trans (hframes 0 hpos))
    · have hrefused (kernel' : Kernel) : ¬ AttachesGiven kernel p s shmaddr
          (shmatHelper.attachAt p clock shmflag kernel s (windowAddr (addrSlot shmaddr))
            (kernel.shmpgtable.shmSegs s).pages (addrSlot shmaddr)) kernel' := by
        intro hgiven
        have hresult := (attachAt_not_attachable hsane hpos hw (fun h ↦ habsent h.absent)
          hgiven.returns).2.1
        exact absurd hresult (natCast_ne_of_neg (by decide))
      refine ⟨?_, ?_, fun h ↦ absurd h.2 habsent⟩
      · rintro ⟨kernel', hgiven, -⟩
        exact hrefused kernel' hgiven
      · rintro ⟨kernel', hgiven, -⟩
        exact absurd hgiven (hrefused kernel')
  · have hcall := @shmatHelper_exact kernel p s shmflag clock shmaddr hsane hs hpos hlow hhigh hflag
      (halign.resolve_left hflag)
    rw [hcall]
    refine ⟨?_, ?_, fun h ↦ absurd h.1 hflag⟩
    · rintro ⟨kernel', hgiven, -⟩
      cases hgiven.returns
    · rintro ⟨kernel', hgiven, -⟩
      cases hgiven.returns

end Given

/-- A segment of one page with room and memory for its attachment at the start of the window. -/
theorem startKernel_attachable : ∃ created : Kernel,
    step (startKernel 3) (startLabel (.shmget 5 4096 ipcCreat)) = .ok (created, 0) ∧
      created.shmpgtable.WellFormed ∧ 0 ∈ created.shmpgtable.bases ∧
      addrSlot heapLimit + created.shmpgtable.pagesAt 0 ≤ shmMaxSeg ∧
      (∀ offset < created.shmpgtable.pagesAt 0,
        ((created.proc 2).shmsegs (addrSlot heapLimit + offset)).isAttached = false) ∧
      (⟨created.kmem, (created.proc 2).pgdir⟩ : Vm).HasMemory (addrSlot heapLimit)
        (created.shmpgtable.pagesAt 0) ∧
      ∀ offset < created.shmpgtable.pagesAt 0, isPresent
        ((created.proc 2).pgdir.pte (windowAddr (addrSlot heapLimit + offset))) = false := by
  apply startKernel_creates (by decide) (by decide)
  decide +kernel

/-- Without `SHM_RND` the call reads outside the array, although there is room. -/
theorem shmat_given_address_faults : ∃ created : Kernel,
    created.shmpgtable.WellFormed ∧ 0 ∈ created.shmpgtable.bases ∧
      ((heapLimit : ℕ) : ℤ).tmod pgSize = 0 ∧
      addrSlot heapLimit + created.shmpgtable.pagesAt 0 ≤ shmMaxSeg ∧
      (∀ offset < created.shmpgtable.pagesAt 0,
        ((created.proc 2).shmsegs (addrSlot heapLimit + offset)).isAttached = false) ∧
      (⟨created.kmem, (created.proc 2).pgdir⟩ : Vm).HasMemory (addrSlot heapLimit)
        (created.shmpgtable.pagesAt 0) ∧
      shmatHelper created 2 startClock (0 : ℕ) heapLimit 0 =
        .error (.outOfBounds .attachedShmsegs) := by
  obtain ⟨created, -, htable, hbase, hfits, hclear, hmemory, -⟩ := startKernel_attachable
  refine ⟨created, htable, hbase, by decide, hfits, hclear, hmemory, ?_⟩
  exact shmatHelper_exact htable.sane (ShmPgTable.le_last (htable.coherent.tiling.lt_bound hbase))
    (htable.coherent.tiling.positive 0 hbase) le_rfl (by decide) (by decide) (by decide)

theorem shmat_given_address_rnd : ∃ created : Kernel,
    (∃ kernel', AttachesGiven created 2 0 heapLimit
        (shmatHelper created 2 startClock (0 : ℕ) heapLimit shmRnd) kernel' ∧
      MapsPages created 2 0 heapLimit (fun slot ↦ v2p slot.pa) kernel') ∧
    ¬ ∃ kernel', AttachesGiven created 2 0 heapLimit
        (shmatHelper created 2 startClock (0 : ℕ) heapLimit shmRnd) kernel' ∧
      MapsPages created 2 0 heapLimit ShmidDs.pa kernel' := by
  obtain ⟨created, -, htable, hbase, hfits, hclear, hmemory, habsent⟩ := startKernel_attachable
  have hcall := @shmat_given_address_iff created 2 0 shmRnd startClock heapLimit htable hbase le_rfl
    (by decide) (Or.inl rfl) hfits hclear hmemory
  exact ⟨created, hcall.2.mpr ⟨rfl, habsent⟩, hcall.1⟩

/-- The call returns. If it fails nothing is changed; otherwise the window slots from the returned
address on exist and were not attached, and the kernel half is not changed. -/
def StaysApart (kernel : Kernel) (p s : ℕ) (outcome : Except Fault (Kernel × ℤ)) : Prop :=
  ∃ kernel' result, outcome = .ok (kernel', result) ∧ (result < 0 → kernel' = kernel) ∧
    (0 ≤ result → ∃ w, result = windowAddr w ∧
      (∀ offset < kernel.shmpgtable.pagesAt s, w + offset < shmMaxSeg ∧
        ((kernel.proc p).shmsegs (w + offset)).isAttached = false) ∧
      ∀ b < Word.size, kernBase ≤ b → (kernel'.proc p).pgdir.pte b = (kernel.proc p).pgdir.pte b)

theorem staysApart_of_refused {kernel : Kernel} {p s : ℕ} {code : ℤ} (hcode : code < 0) :
    StaysApart kernel p s (.ok (kernel, code)) :=
  ⟨kernel, code, rfl, fun _ ↦ rfl, fun hge ↦ by omega⟩

/-- A call with a given address meets an address outside the window; with `SHM_RND` an attached slot
among those it checks, or room; without it an unaligned address. -/
def MeetsNoAttachment (kernel : Kernel) (p s : ℕ) (shmaddr : ℤ) (shmflag : ℕ) : Prop :=
  shmaddr < heapLimit ∨
    if shmflag = shmRnd then
      (∃ j, addrSlot shmaddr ≤ j ∧ j < kernel.shmpgtable.pagesAt s ∧
        ((kernel.proc p).shmsegs j).isAttached = true) ∨
      (Attachable kernel p s (addrSlot shmaddr) ∧ ∀ offset < kernel.shmpgtable.pagesAt s,
          ((kernel.proc p).shmsegs (addrSlot shmaddr + offset)).isAttached = false)
    else shmaddr.tmod pgSize ≠ 0

section Apart

variable {kernel : Kernel} {p s shmflag : ℕ} {clock : Clock} {shmaddr : ℤ}

theorem Attachable.staysApart_iff {w : ℕ} (hattachable : Attachable kernel p s w)
    (hsane : kernel.shmpgtable.Sane) (hpos : 0 < kernel.shmpgtable.pagesAt s) :
    StaysApart kernel p s (shmatHelper.attachAt p clock shmflag kernel s (windowAddr w)
        (kernel.shmpgtable.shmSegs s).pages w) ↔
      ∀ offset < kernel.shmpgtable.pagesAt s,
        ((kernel.proc p).shmsegs (w + offset)).isAttached = false := by
  have hwindow := hattachable.window
  obtain ⟨st, hpages, hreturn⟩ := @Attachable.attachAt _ _ _ _ shmflag clock hattachable hsane hpos
  rw [hreturn]
  constructor
  · rintro ⟨kernel', result, hsame, -, happly⟩
    obtain ⟨rfl, rfl⟩ := Prod.mk.inj (Except.ok.inj hsame)
    obtain ⟨w', hw, hslots, -⟩ := happly (Int.natCast_nonneg _)
    have hsame : w' = w := by
      unfold windowAddr pgSize at hw
      omega
    subst hsame
    exact fun offset hoffset ↦ (hslots offset hoffset).2
  · intro hclear
    refine ⟨_, _, rfl, fun hneg ↦ absurd hneg (not_lt.mpr (Int.natCast_nonneg _)), fun _ ↦
      ⟨w, rfl, fun offset hoffset ↦ ⟨lt_of_lt_of_le (Nat.add_lt_add_left hoffset w) hwindow,
        hclear offset hoffset⟩, fun b hb hkernel ↦ ?_⟩⟩
    rw [Kernel.putAttaching_proc, update_self]
    apply hpages.others b hb
    right
    unfold kernBase at hkernel
    unfold shmMaxSeg at hwindow
    unfold heapLimit pgSize
    omega

/-- An attach that cannot be completed does not return, or leaves the lock held. -/
theorem not_staysApart_of_not_attachable {w : ℕ} (hw : w < shmMaxSeg)
    (hsane : kernel.shmpgtable.Sane) (hpos : 0 < kernel.shmpgtable.pagesAt s)
    (hnot : ¬ Attachable kernel p s w) :
    ¬ StaysApart kernel p s (shmatHelper.attachAt p clock shmflag kernel s (windowAddr w)
      (kernel.shmpgtable.shmSegs s).pages w) := by
  rintro ⟨kernel', result, hreturn, hfailed, -⟩
  obtain ⟨hunlocked, rfl, hlocked, -⟩ := attachAt_not_attachable hsane hpos hw hnot hreturn
  rw [hfailed (by decide), hunlocked] at hlocked
  cases hlocked

theorem shmat_stays_apart_live (hsane : kernel.shmpgtable.Sane)
    (hs : (s : ℤ) ≤ kernel.shmpgtable.lastShmSegIndex)
    (hpos : 0 < kernel.shmpgtable.pagesAt s) (hne : shmaddr ≠ 0) (hword : shmaddr < 2 ^ 31) :
    StaysApart kernel p s (shmatHelper kernel p clock s shmaddr shmflag) ↔
      MeetsNoAttachment kernel p s shmaddr shmflag := by
  unfold MeetsNoAttachment
  by_cases hlow : shmaddr < heapLimit
  · rw [shmatHelper_outside hsane hs hpos hne (Or.inr hlow)]
    exact iff_of_true (staysApart_of_refused (by decide)) (Or.inl hlow)
  · have hhigh : shmaddr < kernBase := hword
    rw [or_iff_right hlow]
    split
    · rename_i hflag
      by_cases hoccupied : ∃ j, addrSlot shmaddr ≤ j ∧ j < kernel.shmpgtable.pagesAt s ∧
          ((kernel.proc p).shmsegs j).isAttached = true
      · obtain ⟨j, hle, hlt, hattached⟩ := hoccupied
        rw [shmatHelper_occupied hsane hs hpos (not_lt.mp hlow) hhigh hflag hle hlt hattached]
        exact iff_of_true (staysApart_of_refused (by decide)) (Or.inl ⟨j, hle, hlt, hattached⟩)
      · rw [or_iff_right hoccupied, shmatHelper_given hsane hs hpos (not_lt.mp hlow) hhigh hflag
          fun j hle hlt ↦ Bool.eq_false_iff.mpr fun h ↦ hoccupied ⟨j, hle, hlt, h⟩]
        by_cases hattachable : Attachable kernel p s (addrSlot shmaddr)
        · rw [hattachable.staysApart_iff hsane hpos]
          exact (and_iff_right hattachable).symm
        · exact iff_of_false (not_staysApart_of_not_attachable
            (addrSlot_spec (not_lt.mp hlow) hhigh).1 hsane hpos hattachable)
            fun h ↦ hattachable h.1
    · rename_i hflag
      by_cases halign : shmaddr.tmod pgSize = 0
      · rw [shmatHelper_exact hsane hs hpos (not_lt.mp hlow) hhigh hflag halign]
        refine iff_of_false ?_ (not_not.mpr halign)
        rintro ⟨kernel', result, hreturn, -⟩
        cases hreturn
      · rw [shmatHelper_unaligned hsane hs hpos hne hflag halign]
        exact iff_of_true (staysApart_of_refused (by decide)) halign

/-- A call with a given address stays apart from other attachments exactly if it is refused before
it reads a slot, or finds an attached slot among those it checks, or has room. -/
theorem shmat_stays_apart_iff {shmid : ℤ} (hsane : kernel.shmpgtable.Sane) (hne : shmaddr ≠ 0)
    (hword : shmaddr < 2 ^ 31) :
    StaysApart kernel p shmid.toNat (shmatHelper kernel p clock shmid shmaddr shmflag) ↔
      (shmid < 0 ∨ shmid > kernel.shmpgtable.lastShmSegIndex) ∨
      kernel.shmpgtable.pagesAt shmid.toNat = 0 ∨
      MeetsNoAttachment kernel p shmid.toNat shmaddr shmflag := by
  by_cases hid : shmid < 0 ∨ shmid > kernel.shmpgtable.lastShmSegIndex
  · rw [shmatHelper_invalid hid]
    exact iff_of_true (staysApart_of_refused (by decide)) (Or.inl hid)
  · obtain ⟨s, rfl⟩ := Int.eq_ofNat_of_zero_le (not_lt.mp (not_or.mp hid).1)
    have hs := not_lt.mp (not_or.mp hid).2
    rw [or_iff_right hid, Int.toNat_natCast]
    by_cases hempty : kernel.shmpgtable.pagesAt s = 0
    · rw [shmatHelper_removed hsane hs hempty]
      exact iff_of_true (staysApart_of_refused (by decide)) (Or.inl hempty)
    · rw [or_iff_right hempty]
      exact shmat_stays_apart_live hsane hs (Nat.pos_of_ne_zero hempty) hne hword

end Apart

/-- A second attach at the same slot is not noticed, since no slot is checked, and `mappages`
panics. -/
theorem shmat_given_address_remaps : ∃ created attached : Kernel,
    step (startKernel 3) (startLabel (.shmget 5 4096 ipcCreat)) = .ok (created, 0) ∧
      step created (startLabel (.shmat 0 (windowAddr 1) shmRnd)) = .ok (attached, windowAddr 1) ∧
      attached.shmpgtable.Sane ∧ ((attached.proc 2).shmsegs 1).isAttached = true ∧
      step attached (startLabel (.shmat 0 (windowAddr 1) shmRnd)) = .error (.panic "remap") := by
  obtain ⟨created, hcreate, attached, hattach, hslot, hfails⟩ : ∃ created,
      step (startKernel 3) (startLabel (.shmget 5 4096 ipcCreat)) = .ok (created, 0) ∧
      ∃ attached, step created (startLabel (.shmat 0 (windowAddr 1) shmRnd)) =
          .ok (attached, windowAddr 1) ∧ ((attached.proc 2).shmsegs 1).isAttached = true ∧
        step attached (startLabel (.shmat 0 (windowAddr 1) shmRnd)) = .error (.panic "remap") := by
    decide +kernel
  have hreach : Runs step (fun _ _ ↦ True) (startKernel 3) attached :=
    ((Runs.refl _).snoc trivial hcreate).snoc trivial hattach
  exact ⟨created, attached, hcreate, hattach, ((startKernel_boot _).sane_of_runs hreach).table,
    hslot, hfails⟩

theorem shmat_stays_apart_first : ∃ created : Kernel,
    created.shmpgtable.Sane ∧ StaysApart created 2 0
      (shmatHelper created 2 startClock (0 : ℕ) heapLimit shmRnd) := by
  obtain ⟨created, -, htable, hbase, hfits, hclear, hmemory, habsent⟩ := startKernel_attachable
  have hmeets : MeetsNoAttachment created 2 0 heapLimit shmRnd := by
    unfold MeetsNoAttachment
    rw [if_pos rfl]
    exact Or.inr (Or.inr ⟨⟨htable.unlocked, hfits, htable.coherent.room hbase, habsent, hmemory⟩,
      hclear⟩)
  exact ⟨created, htable.sane, (@shmat_stays_apart_iff created 2 shmRnd startClock heapLimit (0 : ℕ)
    htable.sane (by decide) (by decide)).mpr (Or.inr (Or.inr hmeets))⟩

end Xv6Shm
