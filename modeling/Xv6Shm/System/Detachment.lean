import Xv6Shm.System.Attachment

/-!
# Detaching

A detach right after an attach takes back what the attach has done. In general a detach works on the
slot of its address and on what is recorded there, and not on an attachment: the last part compares
it with the attachments that the history of calls gives.
-/

namespace Xv6Shm

open Fallible Function ShmPgTable ShmidDs Kernel

/-- The process has its attachment flags and present translations as before, every segment has its
attach count, and nothing else of other processes and segments is changed. -/
structure Restored (kernel : Kernel) (p s : ℕ) (kernel' : Kernel) : Prop where
  attached : ∀ i, ((kernel'.proc p).shmsegs i).isAttached = ((kernel.proc p).shmsegs i).isAttached
  present : ∀ b < Word.size,
    isPresent ((kernel'.proc p).pgdir.pte b) = isPresent ((kernel.proc p).pgdir.pte b) ∧
      (isPresent ((kernel.proc p).pgdir.pte b) = true →
        (kernel'.proc p).pgdir.pte b = (kernel.proc p).pgdir.pte b)
  nattch : ∀ i, (kernel'.shmpgtable.shmSegs i).shmNattch = (kernel.shmpgtable.shmSegs i).shmNattch
  processes : ∀ q, q ≠ p → kernel'.proc q = kernel.proc q
  segments : ∀ i, i < s ∨ s + kernel.shmpgtable.pagesAt s ≤ i →
    kernel'.shmpgtable.shmSegs i = kernel.shmpgtable.shmSegs i

section RoundTrip

variable {kernel : Kernel} {p s w shmflag : ℕ} {clock clock' : Clock} {st : Attaching}

/-- The kernel after the segment at slot `s` is attached. -/
def Kernel.attachedAs (kernel : Kernel) (p : ℕ) (clock : Clock) (s : ℕ) (st : Attaching) : Kernel :=
  kernel.putAttaching p (kernel.shmpgtable.onPages s (kernel.shmpgtable.pagesAt s)
    (attached clock (kernel.proc p).pid)) st

@[simp] theorem Kernel.attachedAs_proc : (kernel.attachedAs p clock s st).proc p =
      { kernel.proc p with pgdir := st.vm.pgdir, shmsegs := st.shmsegs } :=
  update_self _ _ _

theorem Kernel.attachedAs_pages (i : ℕ) :
    ((kernel.attachedAs p clock s st).shmpgtable.shmSegs i).pages = kernel.shmpgtable.pagesAt i :=
  onPages_field (attached clock (kernel.proc p).pid) pages (fun _ ↦ rfl) i

theorem AttachedPages.detachable (hunlocked : kernel.shmpgtable.locked = false)
    (hsane : kernel.shmpgtable.Sane) (hpos : 0 < kernel.shmpgtable.pagesAt s)
    (hpages : AttachedPages clock (kernel.proc p).pid s shmflag s w (kernel.shmpgtable.pagesAt s)
      (kernel.attaching p) st) :
    ((kernel.attachedAs p clock s st).proc p).shmsegs w = ⟨true, s⟩ ∧
      Detachable (kernel.attachedAs p clock s st) p s w := by
  have hroom := hpages.room
  have hfirst : ((kernel.attachedAs p clock s st).proc p).shmsegs w = ⟨true, s⟩ := by
    rw [attachedAs_proc]
    dsimp only
    rw [hpages.shmsegs, Cells.onRange_of_mem le_rfl (by omega)]
  have hcount : ((kernel.attachedAs p clock s st).shmpgtable.shmSegs s).pages =
      kernel.shmpgtable.pagesAt s := attachedAs_pages s
  refine ⟨hfirst, hunlocked, by omega, by rw [hfirst], by omega, by omega, fun offset hoffset ↦ ?_⟩
  -- a present entry lies in a page table
  rw [hcount] at hoffset
  have hslot := hsane.slots (s + offset)
  have hpresent := (attachEntry_spec shmflag hslot.aligned hslot.below).1
  have hentry := hpages.entry offset hoffset
  rw [attachedAs_proc]
  by_contra hnone
  rw [Pgdir.pte_of_not_hasTable (by simpa using hnone)] at hentry
  change 0 = attachEntry (kernel.shmpgtable.shmSegs (s + offset)).pa shmflag at hentry
  rw [← hentry] at hpresent
  exact Bool.false_ne_true hpresent

theorem nattch_round_trip {table : ShmPgTable} {count : ℕ}
    (hwords : ∀ offset < count, (table.shmSegs (s + offset)).shmNattch < Word.size) (pid pid' : ℤ)
    (i : ℕ) :
    ((((table.onPages s count (attached clock pid)).onPages s count
      (detached clock' pid')).onPages s 1 markDest).shmSegs i).shmNattch =
        (table.shmSegs i).shmNattch := by
  rw [onPages_field markDest shmNattch (fun _ ↦ rfl) i, onPages_onPages]
  by_cases hin : s ≤ i ∧ i < s + count
  · rw [onPages_of_mem hin.1 hin.2]
    have hword := hwords (i - s) (by omega)
    rw [Nat.add_sub_cancel' hin.1] at hword
    exact Word.sub_add_one hword
  · rw [onPages_of_not_mem (by omega)]

theorem pte_round_trip {st' : Attaching} {pid pid' : ℤ} {count : ℕ} {before middle : Attaching}
    (hpages : AttachedPages clock pid s shmflag s w count before st)
    (hsame : middle.vm.pgdir = st.vm.pgdir)
    (hdetached : DetachedPages clock' pid' s w count middle st') {b : ℕ} (hb : b < Word.size) :
    isPresent (st'.vm.pgdir.pte b) = isPresent (before.vm.pgdir.pte b) ∧
      (isPresent (before.vm.pgdir.pte b) = true → st'.vm.pgdir.pte b = before.vm.pgdir.pte b) := by
  rcases window_page_or w count b with ⟨offset, hlt, hpage⟩ | hout
  · have hafter := hdetached.absent offset hlt
    have hbefore := hpages.absent offset hlt
    rw [Pgdir.pte_congr hpage, Pgdir.pte_congr hpage, hafter, hbefore]
    exact ⟨rfl, fun h ↦ absurd h Bool.false_ne_true⟩
  · rw [hdetached.others b hb hout, hsame, hpages.others b hb hout]
    exact ⟨rfl, fun _ ↦ rfl⟩

/-- The detach at the slot of the attach restores the process and the counts. -/
theorem Detaches.restored {detached : Kernel} {st' : Attaching}
    (hwords : ∀ offset < kernel.shmpgtable.pagesAt s,
      (kernel.shmpgtable.shmSegs (s + offset)).shmNattch < Word.size)
    (hrun : FirstFit.IsRun (fun i ↦ !((kernel.proc p).shmsegs i).isAttached)
      (kernel.shmpgtable.pagesAt s) w) (hpos : 0 < kernel.shmpgtable.pagesAt s)
    (hpages : AttachedPages clock (kernel.proc p).pid s shmflag s w (kernel.shmpgtable.pagesAt s)
      (kernel.attaching p) st)
    (h : Detaches (kernel.attachedAs p clock s st) p clock' s w st' detached) :
    Restored kernel p s detached := by
  have hdetached := h.pages
  rw [attachedAs_pages] at hdetached
  have hresult := h.result
  rw [attachedAs_pages] at hresult
  have hproc : detached.proc p = { (kernel.attachedAs p clock s st).proc p with
      pgdir := st'.vm.pgdir, shmsegs := st'.shmsegs } := by
    rw [hresult, putAttaching_proc, update_self]
  constructor
  · intro i
    rw [hproc]
    dsimp only
    rw [hdetached.shmsegs]
    by_cases hin : w ≤ i ∧ i < w + kernel.shmpgtable.pagesAt s
    · have hfree := hrun (i - w) (by omega)
      rw [Nat.add_sub_cancel' hin.1, Bool.not_eq_true'] at hfree
      rw [Cells.onRange_of_mem hin.1 hin.2, hfree]
    · have hne : i ≠ w := by omega
      rw [Cells.onRange_of_not_mem (by omega)]
      unfold detachStart
      dsimp only
      rw [update_of_ne hne, attachedAs_proc]
      dsimp only
      rw [hpages.shmsegs, Cells.onRange_of_not_mem (by omega)]
      rfl
  · intro b hb
    rw [hproc]
    refine pte_round_trip hpages ?_ hdetached hb
    simp [attaching]
  · intro i
    rw [hresult]
    exact nattch_round_trip hwords _ _ i
  · intro q hq
    rw [hresult, putAttaching_proc, update_of_ne hq]
    exact update_of_ne hq _ _
  · intro i hi
    rw [hresult, putAttaching_shmpgtable, onPages_of_not_mem (by omega), onPages_of_not_mem hi]
    exact onPages_of_not_mem hi

theorem shmatHelper_search_ok {attached : Kernel} {shmid va : ℤ} (hsane : kernel.shmpgtable.Sane)
    (hattach : shmatHelper kernel p clock shmid 0 shmflag = .ok (attached, va))
    (hsuccess : 0 ≤ va) :
    ∃ (s w : ℕ) (st : Attaching), shmid = s ∧ va = windowAddr w ∧
      0 < kernel.shmpgtable.pagesAt s ∧ kernel.shmpgtable.locked = false ∧
      IsLeast {w | w + kernel.shmpgtable.pagesAt s ≤ shmMaxSeg ∧
        FirstFit.IsRun (fun i ↦ !((kernel.proc p).shmsegs i).isAttached)
          (kernel.shmpgtable.pagesAt s) w} w ∧
      AttachedPages clock (kernel.proc p).pid s shmflag s w (kernel.shmpgtable.pagesAt s)
        (kernel.attaching p) st ∧ attached = kernel.attachedAs p clock s st := by
  have hfailed {code : ℤ} (hcode : code < 0) :
      (.ok (kernel, code) : Except Fault (Kernel × ℤ)) ≠ .ok (attached, va) := by
    intro hreturn
    obtain ⟨-, rfl⟩ := Prod.mk.inj (Except.ok.inj hreturn)
    omega
  by_cases hid : shmid < 0 ∨ shmid > kernel.shmpgtable.lastShmSegIndex
  · rw [shmatHelper_invalid hid] at hattach
    exact absurd hattach (hfailed (by decide))
  · obtain ⟨s, rfl⟩ := Int.eq_ofNat_of_zero_le (not_lt.mp (not_or.mp hid).1)
    have hs := not_lt.mp (not_or.mp hid).2
    by_cases hempty : kernel.shmpgtable.pagesAt s = 0
    · rw [shmatHelper_removed hsane hs hempty] at hattach
      exact absurd hattach (hfailed (by decide))
    · have hpos := Nat.pos_of_ne_zero hempty
      rw [shmatHelper_search hsane hs hpos] at hattach
      cases hfind : FirstFit.find (fun i ↦ !((kernel.proc p).shmsegs i).isAttached)
          (kernel.shmpgtable.shmSegs s).pages shmMaxSeg with
      | none =>
        rw [hfind] at hattach
        exact absurd hattach (hfailed (by decide))
      | some w =>
        rw [hfind] at hattach
        obtain ⟨hunlocked, ⟨st, hpages, hkernel, hva⟩ | ⟨-, -, rfl, -⟩⟩ :=
          attachAt_cases hsane hpos hattach
        · exact ⟨s, w, st, rfl, hva, hpos, hunlocked, FirstFit.find_some hpos hfind, hpages, hkernel⟩
        · exact absurd hsuccess (by decide)

/-- The address of an attachment can be given to `shmdt`. -/
theorem AttachedPages.shmdtHelper (hunlocked : kernel.shmpgtable.locked = false)
    (hsane : kernel.shmpgtable.Sane) (hpos : 0 < kernel.shmpgtable.pagesAt s)
    (hpages : AttachedPages clock (kernel.proc p).pid s shmflag s w (kernel.shmpgtable.pagesAt s)
      (kernel.attaching p) st) :
    ∃ detached st', shmdtHelper (kernel.attachedAs p clock s st) p clock' (windowAddr w) =
        .ok (detached, 0) ∧
      Detaches (kernel.attachedAs p clock s st) p clock' s w st' detached := by
  have hw : w < shmMaxSeg := by
    have hroom := hpages.room
    omega
  obtain ⟨hfirst, hdetachable⟩ := hpages.detachable hunlocked hsane hpos
  have hsane' : (kernel.attachedAs p clock s st).shmpgtable.Sane :=
    hsane.onPages fun slot hslot ↦ hslot.of_eq rfl rfl
  obtain ⟨detached, hdetach⟩ := @Detachable.detachAt _ _ _ _ clock' hdetachable hsane'
  obtain ⟨-, s', st', hdetaches⟩ := detachAt_cases hsane' hdetach
  have hrecorded := hdetaches.recorded
  rw [hfirst] at hrecorded
  cases Int.ofNat_inj.mp hrecorded
  refine ⟨detached, st', ?_, hdetaches⟩
  rw [shmdtHelper_inside (Int.ofNat_le.mpr (heapLimit_le_windowAddr w))
    (Int.ofNat_lt.mpr (windowAddr_lt hw)), addrSlot_windowAddr hw, hfirst]
  exact hdetach

/-- A successful attach without an address goes to the first room in the window, and a detach of the
address returned takes it back. -/
theorem attach_detach_round_trip {attached : Kernel} {shmid va : ℤ} (hsane : kernel.shmpgtable.Sane)
    (hwords : ∀ offset < kernel.shmpgtable.pagesAt shmid.toNat,
      (kernel.shmpgtable.shmSegs (shmid.toNat + offset)).shmNattch < Word.size)
    (hattach : shmatHelper kernel p clock shmid 0 shmflag = .ok (attached, va))
    (hsuccess : 0 ≤ va) :
    ∃ s w : ℕ, shmid = s ∧ IsLeast {w | w + kernel.shmpgtable.pagesAt s ≤ shmMaxSeg ∧
        FirstFit.IsRun (fun i ↦ !((kernel.proc p).shmsegs i).isAttached)
          (kernel.shmpgtable.pagesAt s) w} w ∧
      va = heapLimit + pgSize * w ∧
      ∃ detached, shmdtHelper attached p clock' va = .ok (detached, 0) ∧
        Restored kernel p s detached := by
  obtain ⟨s, w, st, rfl, rfl, hpos, hunlocked, hleast, hpages, rfl⟩ :=
    shmatHelper_search_ok hsane hattach hsuccess
  obtain ⟨detached, st', hdetach, hdetaches⟩ :=
    @AttachedPages.shmdtHelper _ _ _ _ _ _ clock' _ hunlocked hsane hpos hpages
  refine ⟨s, w, rfl, hleast, ?_, detached, hdetach,
    hdetaches.restored hwords hleast.1.2 hpos hpages⟩
  unfold windowAddr
  rw [mul_comm w]
  exact Nat.cast_add _ _

end RoundTrip

/-- One page is attached at the start of the window and detached again. -/
theorem attach_detach_round_trip_first : ∃ created attached : Kernel,
    step (startKernel 3) (startLabel (.shmget 5 4096 ipcCreat)) = .ok (created, 0) ∧
      shmatHelper created 2 startClock 0 0 2 = .ok (attached, windowAddr 0) ∧
      ∃ s w : ℕ, (0 : ℤ) = s ∧ IsLeast {w | w + created.shmpgtable.pagesAt s ≤ shmMaxSeg ∧
          FirstFit.IsRun (fun i ↦ !((created.proc 2).shmsegs i).isAttached)
            (created.shmpgtable.pagesAt s) w} w ∧
        (windowAddr 0 : ℤ) = heapLimit + pgSize * w ∧
        ∃ detached, shmdtHelper attached 2 startClock (windowAddr 0) = .ok (detached, 0) ∧
          Restored created 2 s detached := by
  obtain ⟨created, hcreate, hwords, attached, hattach⟩ : ∃ created,
      step (startKernel 3) (startLabel (.shmget 5 4096 ipcCreat)) = .ok (created, 0) ∧
      (∀ offset < created.shmpgtable.pagesAt 0,
        (created.shmpgtable.shmSegs (0 + offset)).shmNattch < Word.size) ∧
      ∃ attached, shmatHelper created 2 startClock 0 0 2 = .ok (attached, windowAddr 0) := by
    decide +kernel
  have hreach : Runs step (fun _ _ ↦ True) (startKernel 3) created :=
    (Runs.refl _).snoc trivial hcreate
  exact ⟨created, attached, hcreate, hattach, attach_detach_round_trip
    ((startKernel_boot _).sane_of_runs hreach).table hwords hattach (Int.natCast_nonneg _)⟩

/-- An attachment: its first window slot, the segment and the number of pages at the time. -/
structure Attachment where
  slot : ℕ
  shmid : ℕ
  pages : ℕ

/-- The address that `shmat` has returned for it. -/
def Attachment.start (attachment : Attachment) : ℤ := windowAddr attachment.slot

/-- `shmat` makes an attachment, `shmdt` ends the one that starts at its address, a child inherits
those of its parent, and `exec` and `exit` end all. -/
def noteAttachments (held : ℕ → List Attachment) (kernel : Kernel) (label : Label)
    (kernel' : Kernel) (result : ℤ) : ℕ → List Attachment :=
  match label.call with
  | .shmat shmid _ _ =>
    if 0 ≤ result then
      update held label.proc
        (⟨addrSlot result, shmid.toNat, kernel.shmpgtable.pagesAt shmid.toNat⟩ :: held label.proc)
    else held
  | .shmdt shmaddr =>
    if result = 0 then
      update held label.proc ((held label.proc).filter fun attachment ↦ attachment.start != shmaddr)
    else held
  | .fork => fun q ↦
    if (kernel.proc q).state = .unused ∧ (kernel'.proc q).state ≠ .unused then held label.proc
    else held q
  | .exec _ _ => if 0 ≤ result then update held label.proc [] else held
  | .exit => update held label.proc []
  | _ => held

/-- The call has returned 0 and has ended the attachment: its slots are cleared, its pages are not
present, its segment counts one less, and no other slot, entry or count is changed. -/
structure DetachesExactly (kernel : Kernel) (p : ℕ) (attachment : Attachment)
    (outcome : Except Fault (Kernel × ℤ)) (kernel' : Kernel) : Prop where
  returns : outcome = .ok (kernel', 0)
  slots : ∀ i, (kernel'.proc p).shmsegs i =
    if attachment.slot ≤ i ∧ i < attachment.slot + attachment.pages then ⟨false, -1⟩
    else (kernel.proc p).shmsegs i
  absent : ∀ offset < attachment.pages,
    isPresent ((kernel'.proc p).pgdir.pte (windowAddr (attachment.slot + offset))) = false
  others : ∀ b < Word.size, b / pgSize < heapLimit / pgSize + attachment.slot ∨
    heapLimit / pgSize + (attachment.slot + attachment.pages) ≤ b / pgSize →
    (kernel'.proc p).pgdir.pte b = (kernel.proc p).pgdir.pte b
  nattch : ∀ i, (kernel'.shmpgtable.shmSegs i).shmNattch =
    if attachment.shmid ≤ i ∧ i < attachment.shmid + attachment.pages then
      Word.sub (kernel.shmpgtable.shmSegs i).shmNattch 1
    else (kernel.shmpgtable.shmSegs i).shmNattch

/-- The call ends exactly the attachment that starts at its address; if there is none it fails and
changes nothing. -/
structure DetachesOne (kernel : Kernel) (p : ℕ) (held : List Attachment) (shmaddr : ℤ)
    (outcome : Except Fault (Kernel × ℤ)) : Prop where
  starts : ∀ attachment ∈ held, attachment.start = shmaddr →
    ∃ kernel', DetachesExactly kernel p attachment outcome kernel'
  refuses : (∀ attachment ∈ held, attachment.start ≠ shmaddr) →
    ∃ code < 0, outcome = .ok (kernel, code)

/-- The slot still records the attachment, the segment has its length, the pages have page tables,
and the slots behind the first are already cleared. -/
structure ReadyToDetach (kernel : Kernel) (p : ℕ) (attachment : Attachment) : Prop where
  attached : ((kernel.proc p).shmsegs attachment.slot).isAttached = true
  detachable : Detachable kernel p attachment.shmid attachment.slot
  pages : kernel.shmpgtable.pagesAt attachment.shmid = attachment.pages
  cleared : ∀ offset, 0 < offset → offset < attachment.pages →
    ((kernel.proc p).shmsegs (attachment.slot + offset)).shmid = -1

section Ledger

variable {kernel : Kernel} {p : ℕ} {clock : Clock} {attachment : Attachment} {shmaddr : ℤ}

variable {s w : ℕ} {st : Attaching} {kernel' : Kernel}

section

variable (h : Detaches kernel p clock s w st kernel')

include h

theorem Detaches.nattch (i : ℕ) : (kernel'.shmpgtable.shmSegs i).shmNattch =
      if s ≤ i ∧ i < s + kernel.shmpgtable.pagesAt s then
        Word.sub (kernel.shmpgtable.shmSegs i).shmNattch 1
      else (kernel.shmpgtable.shmSegs i).shmNattch := by
  rw [h.result, putAttaching_shmpgtable, onPages_field markDest shmNattch (fun _ ↦ rfl) i]
  unfold pagesAt
  split
  · rename_i hin
    rw [onPages_of_mem hin.1 hin.2]
    rfl
  · rename_i hout
    rw [onPages_of_not_mem (by omega)]

theorem Detaches.shmsegs (hpos : 0 < kernel.shmpgtable.pagesAt s) (i : ℕ) :
    (kernel'.proc p).shmsegs i =
      if w ≤ i ∧ i < w + kernel.shmpgtable.pagesAt s then
        ⟨false, if i = w then -1 else ((kernel.proc p).shmsegs i).shmid⟩
      else (kernel.proc p).shmsegs i := by
  have hproc : (kernel'.proc p).shmsegs = st.shmsegs := by
    rw [h.result, putAttaching_proc, update_self]
  have hsegs := h.pages.shmsegs
  rw [hproc, hsegs]
  unfold detachStart
  unfold pagesAt at *
  dsimp only
  split
  · rename_i hin
    rw [Cells.onRange_of_mem hin.1 hin.2]
    by_cases hfirst : i = w
    · rw [hfirst, update_self, if_pos rfl]
    · rw [update_of_ne hfirst, if_neg hfirst]
  · rename_i hout
    have hne : i ≠ w := by omega
    rw [Cells.onRange_of_not_mem (by omega), update_of_ne hne]

/-- A detach that takes one from the counts of the attachment's segment is one of that segment. -/
theorem Detaches.of_nattch (hpos : 0 < attachment.pages)
    (hnattch : ∀ i, (kernel'.shmpgtable.shmSegs i).shmNattch =
      if attachment.shmid ≤ i ∧ i < attachment.shmid + attachment.pages then
        Word.sub (kernel.shmpgtable.shmSegs i).shmNattch 1
      else (kernel.shmpgtable.shmSegs i).shmNattch) :
    s = attachment.shmid ∧ kernel.shmpgtable.pagesAt s = attachment.pages := by
  have hiff (i : ℕ) : (s ≤ i ∧ i < s + kernel.shmpgtable.pagesAt s) ↔
      (attachment.shmid ≤ i ∧ i < attachment.shmid + attachment.pages) := by
    have hsame := (h.nattch i).symm.trans (hnattch i)
    have hne := Word.sub_one_ne (kernel.shmpgtable.shmSegs i).shmNattch
    by_cases hleft : s ≤ i ∧ i < s + kernel.shmpgtable.pagesAt s <;>
      by_cases hright : attachment.shmid ≤ i ∧ i < attachment.shmid + attachment.pages
    · exact iff_of_true hleft hright
    · rw [if_pos hleft, if_neg hright] at hsame
      exact absurd hsame hne
    · rw [if_neg hleft, if_pos hright] at hsame
      exact absurd hsame.symm hne
    · exact iff_of_false hleft hright
  have hfirst := hiff attachment.shmid
  have hlast := hiff (attachment.shmid + attachment.pages - 1)
  have hfirst' := hiff s
  have hlast' := hiff (s + kernel.shmpgtable.pagesAt s - 1)
  omega

end

theorem detachAt_exactly_iff (hsane : kernel.shmpgtable.Sane) (hpos : 0 < attachment.pages)
    (hw : attachment.slot < shmMaxSeg) :
    (∃ kernel', DetachesExactly kernel p attachment (detachAt kernel p clock attachment.slot)
        kernel') ↔
      Detachable kernel p attachment.shmid attachment.slot ∧
        kernel.shmpgtable.pagesAt attachment.shmid = attachment.pages ∧
        ∀ offset, 0 < offset → offset < attachment.pages →
          ((kernel.proc p).shmsegs (attachment.slot + offset)).shmid = -1 := by
  constructor
  · rintro ⟨kernel', hreturn, hslots, -, -, hnattch⟩
    obtain ⟨-, s, st, hdetaches⟩ := detachAt_cases hsane hreturn
    obtain ⟨rfl, hpages⟩ := hdetaches.of_nattch hpos hnattch
    obtain ⟨s, hdetachable⟩ := detachable_of_detachAt hsane hw hreturn
    have hsame : s = attachment.shmid :=
      Int.ofNat_inj.mp (hdetachable.recorded.symm.trans hdetaches.recorded)
    subst hsame
    refine ⟨hdetachable, hpages, fun offset hoffset hlt ↦ ?_⟩
    -- the slots behind the first keep what they record
    have hkept := hdetaches.shmsegs (hpages ▸ hpos) (attachment.slot + offset)
    have hwanted := hslots (attachment.slot + offset)
    rw [hpages, if_pos (by omega), if_neg (by omega)] at hkept
    rw [if_pos (by omega), hkept] at hwanted
    exact congrArg AttachedShmsegs.shmid hwanted
  · rintro ⟨hdetachable, hpages, hcleared⟩
    obtain ⟨kernel', hreturn⟩ := @Detachable.detachAt _ _ _ _ clock hdetachable hsane
    obtain ⟨-, s, st, hdetaches⟩ := detachAt_cases hsane hreturn
    have hsame : s = attachment.shmid :=
      Int.ofNat_inj.mp (hdetaches.recorded.symm.trans hdetachable.recorded)
    subst hsame
    have hpgdir : (kernel'.proc p).pgdir = st.vm.pgdir := by
      rw [hdetaches.result, putAttaching_proc, update_self]
    refine ⟨kernel', hreturn, fun i ↦ ?_, fun offset hoffset ↦ ?_, fun b hb hout ↦ ?_, fun i ↦ ?_⟩
    · rw [hdetaches.shmsegs (hpages ▸ hpos), hpages]
      split
      · rename_i hin
        by_cases hfirst : i = attachment.slot
        · rw [if_pos hfirst]
        · have hslot := hcleared (i - attachment.slot) (by omega) (by omega)
          rw [Nat.add_sub_cancel' hin.1] at hslot
          rw [if_neg hfirst, hslot]
      · rfl
    · rw [hpgdir]
      exact hdetaches.pages.absent offset (lt_of_lt_of_eq hoffset hpages.symm)
    · rw [hpgdir]
      rw [← hpages] at hout
      exact hdetaches.pages.others b hb hout
    · rw [hdetaches.nattch i, hpages]

theorem shmdt_exactly_iff (hsane : kernel.shmpgtable.Sane) (hpos : 0 < attachment.pages)
    (hstart : attachment.start = shmaddr) (hword : shmaddr < 2 ^ 31) :
    (∃ kernel', DetachesExactly kernel p attachment (shmdtHelper kernel p clock shmaddr) kernel') ↔
      ReadyToDetach kernel p attachment := by
  subst hstart
  have hw : attachment.slot < shmMaxSeg := by
    unfold Attachment.start windowAddr heapLimit pgSize at hword
    unfold shmMaxSeg
    omega
  unfold Attachment.start
  rw [shmdtHelper_inside (Int.ofNat_le.mpr (heapLimit_le_windowAddr _))
    (Int.ofNat_lt.mpr (windowAddr_lt hw)), addrSlot_windowAddr hw]
  by_cases hattached : ((kernel.proc p).shmsegs attachment.slot).isAttached = false
  · rw [if_pos hattached]
    refine iff_of_false ?_ fun hready ↦ ?_
    · rintro ⟨kernel', hreturn, -⟩
      cases hreturn
    · rw [hready.attached] at hattached
      cases hattached
  · rw [if_neg hattached, detachAt_exactly_iff hsane hpos hw]
    constructor
    · rintro ⟨hdetachable, hpages, hcleared⟩
      exact ⟨by simpa using hattached, hdetachable, hpages, hcleared⟩
    · rintro ⟨-, hdetachable, hpages, hcleared⟩
      exact ⟨hdetachable, hpages, hcleared⟩

theorem shmdt_refuses_iff (hsane : kernel.shmpgtable.Sane) (hword : shmaddr < 2 ^ 31) :
    (∃ code < 0, shmdtHelper kernel p clock shmaddr = .ok (kernel, code)) ↔
      shmaddr < heapLimit ∨ ((kernel.proc p).shmsegs (addrSlot shmaddr)).isAttached = false := by
  by_cases hlow : shmaddr < heapLimit
  · exact iff_of_true ⟨eInval, by decide, shmdtHelper_below hlow⟩ (Or.inl hlow)
  · rw [or_iff_right hlow, shmdtHelper_inside (not_lt.mp hlow) hword]
    by_cases hattached : ((kernel.proc p).shmsegs (addrSlot shmaddr)).isAttached = false
    · rw [if_pos hattached]
      exact iff_of_true ⟨eInval, by decide, rfl⟩ hattached
    · rw [if_neg hattached]
      refine iff_of_false ?_ hattached
      rintro ⟨code, hcode, hreturn⟩
      exact absurd (detachAt_cases hsane hreturn).1 (ne_of_lt hcode)

/-- An attachment is there before the call, or is the one that the call has made. -/
theorem mem_noteAttachments {held : ℕ → List Attachment} {label : Label}
    {result : ℤ} {q : ℕ} (h : attachment ∈ noteAttachments held kernel label kernel' result q) :
    (∃ q, attachment ∈ held q) ∨ ∃ shmid shmaddr shmflag,
      label.call = .shmat shmid shmaddr shmflag ∧ 0 ≤ result ∧
        attachment.pages = kernel.shmpgtable.pagesAt shmid.toNat := by
  have hupdated {list : List Attachment} (h : attachment ∈ update held label.proc list q) :
      attachment ∈ list ∨ ∃ q, attachment ∈ held q := by
    by_cases hq : q = label.proc
    · subst hq
      rw [update_self] at h
      exact Or.inl h
    · rw [update_of_ne hq] at h
      exact Or.inr ⟨q, h⟩
  unfold noteAttachments at h
  cases hcall : label.call with
  | shmat shmid shmaddr shmflag =>
    rw [hcall] at h
    dsimp only at h
    split at h
    · rename_i hsuccess
      rcases hupdated h with hlist | hold
      · rcases List.mem_cons.mp hlist with rfl | hold
        · exact Or.inr ⟨shmid, shmaddr, shmflag, rfl, hsuccess, rfl⟩
        · exact Or.inl ⟨_, hold⟩
      · exact Or.inl hold
    · exact Or.inl ⟨q, h⟩
  | shmdt shmaddr =>
    rw [hcall] at h
    dsimp only at h
    split at h
    · rcases hupdated h with hlist | hold
      · exact Or.inl ⟨_, (List.mem_filter.mp hlist).1⟩
      · exact Or.inl hold
    · exact Or.inl ⟨q, h⟩
  | fork =>
    rw [hcall] at h
    dsimp only at h
    split at h
    · exact Or.inl ⟨_, h⟩
    · exact Or.inl ⟨q, h⟩
  | exec file argv =>
    rw [hcall] at h
    dsimp only at h
    split at h
    · rcases hupdated h with hlist | hold
      · cases hlist
      · exact Or.inl hold
    · exact Or.inl ⟨q, h⟩
  | exit =>
    rw [hcall] at h
    rcases hupdated h with hlist | hold
    · cases hlist
    · exact Or.inl hold
  | shmget | shmctl | removeshm | sbrk | wait =>
    rw [hcall] at h
    exact Or.inl ⟨q, h⟩

theorem attachments_nonempty {start : Kernel} {held : ℕ → List Attachment} (hboot : Boot start)
    (hrun : Runs (observe step noteAttachments) (fun _ _ ↦ True) (start, fun _ ↦ [])
      (kernel, held)) : kernel.Sane ∧ ∀ q, ∀ attachment ∈ held q, 0 < attachment.pages := by
  refine hrun.invariant (fun observed ↦ observed.1.Sane ∧
    ∀ q, ∀ attachment ∈ observed.2 q, 0 < attachment.pages) ⟨hboot.sane, fun q a ha ↦ ?_⟩ ?_
  · cases ha
  · rintro ⟨kernel, held⟩ label ⟨kernel', held'⟩ result ⟨hsane, hpositive⟩ - hobserved
    obtain ⟨hstep, hnote⟩ := observe_eq_ok.mp hobserved
    dsimp only at hstep hnote
    subst hnote
    refine ⟨hsane.step hstep, fun q a ha ↦ ?_⟩
    rcases mem_noteAttachments ha with ⟨q, hold⟩ | ⟨shmid, shmaddr, shmflag, hcall, hsuccess, hpages⟩
    · exact hpositive q a hold
    · obtain ⟨-, -, hperform⟩ := step_eq_ok hstep
      rw [hcall] at hperform
      rcases shmatHelper_cases hsane.table hperform with ⟨-, hneg⟩ | ⟨s, w, rfl, -, hpos, -⟩
      · omega
      · rw [hpages]
        exact hpos

/-- A detach ends the attachment that starts at its address, or else is refused, exactly if the
attachment is ready for it, or else the slot of the address is not attached. -/
theorem shmdt_detaches_one_iff {start : Kernel} {held : ℕ → List Attachment} (hboot : Boot start)
    (hrun : Runs (observe step noteAttachments) (fun _ _ ↦ True) (start, fun _ ↦ [])
      (kernel, held)) (hword : shmaddr < 2 ^ 31) :
    DetachesOne kernel p (held p) shmaddr (shmdtHelper kernel p clock shmaddr) ↔
      (∀ attachment ∈ held p, attachment.start = shmaddr → ReadyToDetach kernel p attachment) ∧
      ((∀ attachment ∈ held p, attachment.start ≠ shmaddr) → shmaddr < heapLimit ∨
        ((kernel.proc p).shmsegs (addrSlot shmaddr)).isAttached = false) := by
  obtain ⟨hsane, hpositive⟩ := attachments_nonempty hboot hrun
  constructor
  · rintro ⟨hstarts, hrefuses⟩
    refine ⟨fun attachment hmem hstart ↦ ?_, fun hnone ↦ ?_⟩
    · exact (shmdt_exactly_iff hsane.table (hpositive p attachment hmem) hstart hword).mp
        (hstarts attachment hmem hstart)
    · exact (shmdt_refuses_iff hsane.table hword).mp (hrefuses hnone)
  · rintro ⟨hready, hunattached⟩
    refine ⟨fun attachment hmem hstart ↦ ?_, fun hnone ↦ ?_⟩
    · exact (shmdt_exactly_iff hsane.table (hpositive p attachment hmem) hstart hword).mpr
        (hready attachment hmem hstart)
    · exact (shmdt_refuses_iff hsane.table hword).mpr (hunattached hnone)

end Ledger

/-- Two pages are attached, and an address in the middle is detached. -/
theorem shmdt_accepts_middle : ∃ kernel held kernel',
    Runs (observe step noteAttachments) (fun _ _ ↦ True)
      (startKernel 4, fun _ ↦ []) (kernel, held) ∧
    (∀ attachment ∈ held 2, attachment.start ≠ windowAddr 1) ∧
    shmdtHelper kernel 2 startClock (windowAddr 1) = .ok (kernel', 0) := by
  simp only [exists_and_left]
  apply Runs.of_labels_observed [startLabel (.shmget 5 8192 ipcCreat), startLabel (.shmat 0 0 2)]
  decide +kernel

/-- One page is attached and detached at its address. -/
theorem shmdt_detaches_one_page : ∃ kernel held,
    Runs (observe step noteAttachments) (fun _ _ ↦ True)
      (startKernel 3, fun _ ↦ []) (kernel, held) ∧
    (∃ attachment ∈ held 2, attachment.start = windowAddr 0) ∧
    DetachesOne kernel 2 (held 2) (windowAddr 0)
      (shmdtHelper kernel 2 startClock (windowAddr 0)) := by
  obtain ⟨kernel, held, hrun, ⟨first, hmem, hstart⟩, hall⟩ : ∃ kernel held,
      Runs (observe step noteAttachments) (fun _ _ ↦ True)
        (startKernel 3, fun _ ↦ []) (kernel, held) ∧
      (∃ attachment ∈ held 2, attachment.start = windowAddr 0) ∧
      ∀ attachment ∈ held 2, ((kernel.proc 2).shmsegs attachment.slot).isAttached = true ∧
        kernel.shmpgtable.locked = false ∧ attachment.shmid < shmMaxSeg ∧
        ((kernel.proc 2).shmsegs attachment.slot).shmid = attachment.shmid ∧
        attachment.slot + 1 ≤ shmMaxSeg ∧ attachment.shmid + 1 ≤ shmMaxSeg ∧
        (kernel.proc 2).pgdir.hasTable (windowAddr attachment.slot) = true ∧
        kernel.shmpgtable.pagesAt attachment.shmid = 1 ∧ attachment.pages = 1 := by
    apply Runs.of_labels_observed [startLabel (.shmget 5 4096 ipcCreat), startLabel (.shmat 0 0 2)]
    decide +kernel
  have hready (attachment : Attachment) (h : attachment ∈ held 2) :
      ReadyToDetach kernel 2 attachment := by
    obtain ⟨hattached, hunlocked, hlt, hrecorded, hwindow, hsegment, htable, hpages, hone⟩ :=
      hall attachment h
    have hcount : (kernel.shmpgtable.shmSegs attachment.shmid).pages = 1 := hpages
    refine ⟨hattached, ⟨hunlocked, hlt, hrecorded, by rwa [hcount], by rwa [hcount], ?_⟩,
      hpages.trans hone.symm, fun offset hoffset hoffset' ↦ by omega⟩
    intro offset hoffset
    rw [hcount, Nat.lt_one_iff] at hoffset
    rw [hoffset]
    exact htable
  refine ⟨kernel, held, hrun, ⟨first, hmem, hstart⟩, ?_⟩
  exact (shmdt_detaches_one_iff (startKernel_boot _) hrun (by decide)).mpr
    ⟨fun attachment h _ ↦ hready attachment h, fun hnone ↦ absurd hstart (hnone first hmem)⟩

end Xv6Shm
