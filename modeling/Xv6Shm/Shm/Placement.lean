import Xv6Shm.Shm.Cases

/-!
# Where shmat attaches and shmdt detaches

When `shmat` and `shmdt` return: which arguments reach the page loops and at which window slot, how
much memory the page tables of the window slots take, and that the loop of `shmat` completes exactly
if the slots exist, their entries are not present and the memory suffices.
-/

namespace Xv6Shm

open Fallible ShmPgTable

/-- The directory indices of `count` window slots from `w` on without a page table. -/
def Pgdir.missingTables (pgdir : Pgdir) (w count : ℕ) : Finset ℕ :=
  ((Finset.range count).image fun offset ↦ pdx (windowAddr (w + offset))).filter
    fun index ↦ pgdir.tables index = none

/-- There is a free frame for each page table that is missing. -/
def Vm.HasMemory (vm : Vm) (w count : ℕ) : Prop :=
  (vm.pgdir.missingTables w count).card ≤ vm.kmem.freelist.length

instance (vm : Vm) (w count : ℕ) : Decidable (vm.HasMemory w count) :=
  inferInstanceAs (Decidable (_ ≤ _))

section Memory

variable {vm next : Vm} {w count pte : ℕ}

theorem Pgdir.mem_missingTables {pgdir : Pgdir} {index : ℕ} : index ∈ pgdir.missingTables w count ↔
      (∃ offset < count, pdx (windowAddr (w + offset)) = index) ∧ pgdir.tables index = none := by
  unfold missingTables
  rw [Finset.mem_filter, Finset.mem_image]
  simp only [Finset.mem_range]

theorem Pgdir.tables_setPte_eq_none {pgdir : Pgdir} {va index : ℕ} :
    (pgdir.setPte va pte).tables index = none ↔ pgdir.tables index = none := by
  unfold setPte
  cases htable : pgdir.tables (pdx va) with
  | none => rfl
  | some table =>
    by_cases hindex : index = pdx va
    · simp [setTable, hindex, htable]
    · simp [setTable, Function.update_of_ne hindex]

theorem Pgdir.missingTables_mapPage (h : mapPage vm (windowAddr w) pte = .ok (some next)) :
    next.pgdir.missingTables (w + 1) count =
      (vm.pgdir.missingTables w (count + 1)).erase (pdx (windowAddr w)) := by
  obtain ⟨hnone, -⟩ | ⟨walked, hwalk, -, hsome⟩ := mapPage_cases h
  · cases hnone
  · cases hsome
    have hwalked (index : ℕ) : walked.pgdir.tables index = none ↔
        index ≠ pdx (windowAddr w) ∧ vm.pgdir.tables index = none := by
      obtain ⟨htable, rfl⟩ | ⟨pgtab, kmem, -, -, rfl⟩ := walkpgdir_cases hwalk
      · obtain ⟨table, htable⟩ := hasTable_iff.mp htable
        refine ⟨fun hmissing ↦ ⟨?_, hmissing⟩, fun h ↦ h.2⟩
        rintro rfl
        rw [htable] at hmissing
        cases hmissing
      · by_cases hindex : index = pdx (windowAddr w)
        · simp [setTable, hindex]
        · simp [setTable, hindex]
    ext index
    rw [Finset.mem_erase, mem_missingTables, mem_missingTables, tables_setPte_eq_none, hwalked]
    constructor
    · rintro ⟨⟨offset, hoffset, hindex⟩, hne, hmissing⟩
      exact ⟨hne, ⟨offset + 1, by omega, by rwa [← Nat.add_assoc, Nat.add_right_comm]⟩, hmissing⟩
    · rintro ⟨hne, ⟨offset, hoffset, hindex⟩, hmissing⟩
      cases offset with
      | zero => exact absurd hindex.symm hne
      | succ offset =>
        exact ⟨⟨offset, by omega, by rwa [Nat.add_right_comm, Nat.add_assoc]⟩, hne, hmissing⟩

theorem Vm.hasMemory_mapPage (h : mapPage vm (windowAddr w) pte = .ok (some next)) :
    next.HasMemory (w + 1) count ↔ vm.HasMemory w (count + 1) := by
  unfold HasMemory
  rw [Pgdir.missingTables_mapPage h]
  obtain ⟨hnone, -⟩ | ⟨walked, hwalk, -, hsome⟩ := mapPage_cases h
  · cases hnone
  · cases hsome
    obtain ⟨htable, rfl⟩ | ⟨pgtab, kmem, hmissing, hkalloc, rfl⟩ := walkpgdir_cases hwalk
    · rw [Finset.erase_eq_of_notMem]
      intro hmem
      obtain ⟨table, htable⟩ := Pgdir.hasTable_iff.mp htable
      rw [Pgdir.mem_missingTables, htable] at hmem
      cases hmem.2
    · have hmem : pdx (windowAddr w) ∈ vm.pgdir.missingTables w (count + 1) :=
        Pgdir.mem_missingTables.mpr ⟨⟨0, Nat.succ_pos _, rfl⟩, hmissing⟩
      rw [Finset.card_erase_of_mem hmem, (Kmem.kalloc_eq_some.mp hkalloc).1, List.length_cons]
      rw [Kmem.memset_freelist]
      omega

theorem Vm.HasMemory.mapPage (hmemory : vm.HasMemory w (count + 1))
    (habsent : isPresent (vm.pgdir.pte (windowAddr w)) = false) :
    ∃ next, mapPage vm (windowAddr w) pte = .ok (some next) := by
  unfold Xv6Shm.mapPage
  cases hwalk : walkpgdir vm (windowAddr w) true with
  | none =>
    obtain ⟨hmissing, hfree⟩ := walkpgdir_eq_none hwalk
    have hmem : pdx (windowAddr w) ∈ vm.pgdir.missingTables w (count + 1) :=
      Pgdir.mem_missingTables.mpr ⟨⟨0, Nat.succ_pos _, rfl⟩, hmissing⟩
    have hpos := Finset.card_pos.mpr ⟨_, hmem⟩
    unfold HasMemory at hmemory
    rw [hfree, List.length_nil] at hmemory
    omega
  | some walked =>
    dsimp only
    rw [walkpgdir_pte hwalk, habsent]
    exact ⟨_, rfl⟩

end Memory

section Loop

variable {clock : Clock} {pid : ℤ} {shmflag s w : ℕ}

theorem allocshmuvmLoop_completes {remaining i : ℕ} {st : Attaching}
    (hw : w + i + remaining ≤ shmMaxSeg) (hs : s + i + remaining ≤ shmMaxSeg) (habsent : ∀ offset <
      remaining, isPresent (st.vm.pgdir.pte (windowAddr (w + i + offset))) = false)
    (hmemory : st.vm.HasMemory (w + i) remaining) :
    ∃ st', allocshmuvmLoop clock pid s (windowAddr w) w shmflag remaining i st = .ok (st', true) :=
      by
  induction remaining generalizing i st with
  | zero => exact ⟨st, rfl⟩
  | succ remaining ih =>
    obtain ⟨vm, hpage⟩ := @Vm.HasMemory.mapPage _ _ _
      (attachEntry (st.table.shmSegs (s + i)).pa shmflag) hmemory (habsent 0 (Nat.succ_pos _))
    rw [allocshmuvmLoop_succ (by omega) (by omega), hpage, ok_bind]
    apply ih (by omega) (by omega)
    · intro offset hoffset
      have hlater := habsent (offset + 1) (Nat.succ_lt_succ hoffset)
      rw [mapPage_pte hpage (windowAddr_word (by omega)) (windowAddr_word (by omega)), if_neg]
      · rwa [← Nat.add_assoc w, Nat.add_assoc (w + i), Nat.add_comm 1]
      · rw [windowAddr_page, windowAddr_page]
        omega
    · exact (Vm.hasMemory_mapPage hpage).mpr hmemory

theorem allocshmuvmLoop_hasMemory {remaining i : ℕ} {st st' : Attaching}
    (h : allocshmuvmLoop clock pid s (windowAddr w) w shmflag remaining i st = .ok (st', true)) :
    st.vm.HasMemory (w + i) remaining := by
  induction remaining generalizing i st st' with
  | zero => exact Nat.zero_le _
  | succ remaining ih =>
    obtain ⟨-, -, ⟨vm, hpage, hrest⟩ | ⟨hok, -⟩⟩ := allocshmuvmLoop_step h
    · have hlater := ih hrest
      rw [← Nat.add_assoc] at hlater
      exact (Vm.hasMemory_mapPage hpage).mp hlater
    · cases hok

theorem allocshmuvmLoop_add {count i rest : ℕ} {st st' : Attaching}
    (h : allocshmuvmLoop clock pid s (windowAddr w) w shmflag count i st = .ok (st', true)) :
    allocshmuvmLoop clock pid s (windowAddr w) w shmflag (count + rest) i st = allocshmuvmLoop clock
      pid s (windowAddr w) w shmflag rest (i + count) st' := by
  induction count generalizing i rest st st' with
  | zero =>
    cases h
    rw [Nat.zero_add, Nat.add_zero]
  | succ count ih =>
    obtain ⟨hw, hs, ⟨vm, hpage, hrest⟩ | ⟨hok, -⟩⟩ := allocshmuvmLoop_step h
    · rw [Nat.add_right_comm, allocshmuvmLoop_succ hw hs, hpage, ok_bind]
      dsimp only
      rw [ih hrest, Nat.add_right_comm i, Nat.add_assoc i]
    · cases hok

end Loop

/-- The segment at slot `s` can be attached at window slot `w`: the slots exist, no entry is
present, and there is memory for the page tables. -/
structure Attachable (kernel : Kernel) (p s w : ℕ) : Prop where
  unlocked : kernel.shmpgtable.locked = false
  window : w + (kernel.shmpgtable.shmSegs s).pages ≤ shmMaxSeg
  segment : s + (kernel.shmpgtable.shmSegs s).pages ≤ shmMaxSeg
  absent : ∀ offset < (kernel.shmpgtable.shmSegs s).pages,
    isPresent ((kernel.proc p).pgdir.pte (windowAddr (w + offset))) = false
  memory : (⟨kernel.kmem, (kernel.proc p).pgdir⟩ : Vm).HasMemory w
    (kernel.shmpgtable.shmSegs s).pages

section AttachAt

variable {kernel : Kernel} {p s w shmflag : ℕ} {clock : Clock}

theorem attachAt_eq {count : ℕ} (hunlocked : kernel.shmpgtable.locked = false)
    (hw : w < shmMaxSeg) :
    shmatHelper.attachAt p clock shmflag kernel s (windowAddr w) count w = (do
      let (st, ok) ← allocshmuvmLoop clock (kernel.proc p).pid s (windowAddr w) w shmflag count 0
        (kernel.attaching p)
      if ok then pure (kernel.putAttaching p st.table.release st, (windowAddr w : ℤ))
      else pure (kernel.putAttaching p st.table st, eNomem)) := by
  unfold shmatHelper.attachAt allocshmuvm
  dsimp only
  rw [acquire_eq_ok.mpr ⟨hunlocked, rfl⟩, ok_bind, Int.toNat_natCast, bind_assoc]
  apply bind_congr
  rintro ⟨st, ok⟩
  cases ok with
  | true =>
    have hne : (windowAddr w : ℤ) ≠ 0 := by
      unfold windowAddr heapLimit
      omega
    rw [if_pos rfl, if_pos rfl, if_pos rfl, toInt_windowAddr hw, pure_eq_ok, ok_bind]
    rw [if_neg hne]
    rfl
  | false => rfl

theorem Attachable.attachAt (h : Attachable kernel p s w)
    (hsane : kernel.shmpgtable.Sane) (hpos : 0 < (kernel.shmpgtable.shmSegs s).pages) :
    ∃ st, AttachedPages clock (kernel.proc p).pid s shmflag s w
        (kernel.shmpgtable.shmSegs s).pages (kernel.attaching p) st ∧
      shmatHelper.attachAt p clock shmflag kernel s (windowAddr w)
          (kernel.shmpgtable.shmSegs s).pages w =
        .ok (kernel.putAttaching p (kernel.shmpgtable.onPages s (kernel.shmpgtable.shmSegs s).pages
            (ShmidDs.attached clock (kernel.proc p).pid)) st, (windowAddr w : ℤ)) := by
  obtain ⟨st, hloop⟩ := @allocshmuvmLoop_completes clock (kernel.proc p).pid shmflag s w
    _ 0 (kernel.attaching p) h.window h.segment h.absent h.memory
  have hw : w < shmMaxSeg := by
    have hwindow := h.window
    omega
  have hcall := @attachAt_eq _ p s w shmflag clock (kernel.shmpgtable.shmSegs s).pages h.unlocked hw
  rw [hloop] at hcall
  obtain ⟨-, ⟨st', hpages, hkernel, -⟩ | ⟨-, -, hresult, -⟩⟩ := attachAt_cases hsane hpos hcall
  · exact ⟨st', hpages, hkernel ▸ hcall⟩
  · exact absurd hresult (by unfold windowAddr heapLimit eNomem; omega)

/-- A call that cannot complete the attach does not return, or returns `ENOMEM` and keeps the lock.
-/
theorem attachAt_not_attachable {kernel' : Kernel} {result : ℤ} (hsane : kernel.shmpgtable.Sane)
    (hpos : 0 < (kernel.shmpgtable.shmSegs s).pages) (hw : w < shmMaxSeg)
    (hnot : ¬ Attachable kernel p s w)
    (h : shmatHelper.attachAt p clock shmflag kernel s (windowAddr w)
      (kernel.shmpgtable.shmSegs s).pages w = .ok (kernel', result)) :
    kernel.shmpgtable.locked = false ∧ result = eNomem ∧ kernel'.shmpgtable.locked = true ∧
      ((kernel'.proc p).shmsegs w).isAttached = true := by
  obtain ⟨hunlocked, houtcome⟩ := attachAt_cases hsane hpos h
  refine ⟨hunlocked, ?_⟩
  rcases houtcome with ⟨st, hpages, -, hresult⟩ | ⟨-, -, hresult, rfl⟩
  · exfalso
    apply hnot
    have hroom := hpages.room
    rw [attachAt_eq hunlocked hw] at h
    obtain ⟨⟨st', ok⟩, hloop, hreturn⟩ := bind_eq_ok.mp h
    cases ok with
    | true =>
      have hmemory := allocshmuvmLoop_hasMemory hloop
      rw [Nat.add_zero] at hmemory
      exact ⟨hunlocked, by omega, by omega, hpages.absent, hmemory⟩
    | false =>
      cases hreturn
      exact absurd hresult (by unfold windowAddr heapLimit eNomem; omega)
  · refine ⟨hresult, rfl, ?_⟩
    simp [Kernel.putAttaching, Kernel.setProc]

end AttachAt

theorem addrSlot_spec {shmaddr : ℤ} (hlow : (heapLimit : ℤ) ≤ shmaddr) (hhigh : shmaddr < kernBase) :
    addrSlot shmaddr < shmMaxSeg ∧
      pgRoundDown (Word.ofInt shmaddr) = windowAddr (addrSlot shmaddr) := by
  obtain ⟨a, rfl⟩ := Int.eq_ofNat_of_zero_le (le_trans (Int.natCast_nonneg heapLimit) hlow)
  have hword : a < Word.size := lt_trans (Int.ofNat_lt.mp hhigh) (by decide)
  unfold addrSlot
  rw [Word.ofInt_natCast hword, pgRoundDown_eq hword]
  unfold windowAddr heapLimit kernBase pgSize shmMaxSeg at *
  omega

theorem inside_window {shmaddr : ℤ} (hlow : (heapLimit : ℤ) ≤ shmaddr) (hhigh : shmaddr < kernBase) :
    shmaddr ≠ 0 ∧ ¬ (Word.ofInt shmaddr > kernBase ∨ shmaddr < heapLimit) := by
  obtain ⟨a, rfl⟩ := Int.eq_ofNat_of_zero_le (le_trans (Int.natCast_nonneg heapLimit) hlow)
  have hlt : a < kernBase := Int.ofNat_lt.mp hhigh
  have hpositive : 0 < heapLimit := by decide
  rw [Word.ofInt_natCast (lt_trans hlt (by decide))]
  omega

theorem givenSlot_windowAddr {w : ℕ} (hw : w < shmMaxSeg) :
    (Word.toInt (windowAddr w) - heapLimit).tdiv pgSize = w := by
  have hoffset : ((windowAddr w : ℕ) : ℤ) - heapLimit = ((w * pgSize : ℕ) : ℤ) := by
    unfold windowAddr
    push_cast
    omega
  rw [toInt_windowAddr hw, hoffset, ← Int.ofNat_tdiv, Nat.mul_div_cancel _ (by decide : 0 < pgSize)]

section Check

variable {shmsegs : ℕ → AttachedShmsegs}

theorem checkUnattached_clear {count i : ℕ} (hfits : i + count ≤ shmMaxSeg)
    (hclear : ∀ j, i ≤ j → j < i + count → (shmsegs j).isAttached = false) :
    checkUnattached shmsegs count i = .ok true := by
  induction count generalizing i with
  | zero => rfl
  | succ count ih =>
    rw [checkUnattached, if_pos (by omega), Int.toNat_natCast, hclear i le_rfl (by omega),
      if_neg (by decide), ← Nat.cast_succ]
    exact ih (by omega) fun j hle hlt ↦ hclear j (by omega) (by omega)

theorem checkUnattached_occupied {count i j : ℕ} (hfits : i + count ≤ shmMaxSeg) (hle : i ≤ j)
    (hlt : j < i + count) (hattached : (shmsegs j).isAttached = true) :
    checkUnattached shmsegs count i = .ok false := by
  induction count generalizing i j with
  | zero =>
    omega
  | succ count ih =>
    rw [checkUnattached, if_pos (by omega), Int.toNat_natCast]
    by_cases hfirst : (shmsegs i).isAttached = true
    · exact if_pos hfirst
    · have hne : i ≠ j := fun heq ↦ hfirst (heq ▸ hattached)
      rw [if_neg hfirst, ← Nat.cast_succ]
      exact ih (by omega) (by omega) (by omega) hattached

end Check

section Shmat

variable {kernel : Kernel} {p s shmflag : ℕ} {clock : Clock} {shmid shmaddr : ℤ}

theorem shmatHelper_invalid (h : shmid < 0 ∨ shmid > kernel.shmpgtable.lastShmSegIndex) :
    shmatHelper kernel p clock shmid shmaddr shmflag = .ok (kernel, eInval) := if_pos h

theorem shmatHelper_removed (hsane : kernel.shmpgtable.Sane)
    (hs : (s : ℤ) ≤ kernel.shmpgtable.lastShmSegIndex)
    (hempty : (kernel.shmpgtable.shmSegs s).pages = 0) :
    shmatHelper kernel p clock s shmaddr shmflag = .ok (kernel, eIdrm) := by
  have hlast := hsane.last_lt
  unfold shmatHelper
  rw [if_neg (by omega), slot_natCast (by omega), ok_bind]
  exact if_pos ((hsane.slots s).toInt_eq_zero.mpr hempty)

section Live

variable (hsane : kernel.shmpgtable.Sane) (hs : (s : ℤ) ≤ kernel.shmpgtable.lastShmSegIndex)
  (hpos : 0 < (kernel.shmpgtable.shmSegs s).pages)

include hsane hs hpos

theorem shmatHelper_live : shmatHelper kernel p clock s shmaddr shmflag =
      if shmaddr = 0 then
        match FirstFit.find (fun i ↦ !((kernel.proc p).shmsegs i).isAttached)
          (kernel.shmpgtable.shmSegs s).pages shmMaxSeg with
        | none => .ok (kernel, eNomem)
        | some w => shmatHelper.attachAt p clock shmflag kernel s (windowAddr w)
            (kernel.shmpgtable.shmSegs s).pages w
      else if Word.ofInt shmaddr > kernBase ∨ shmaddr < heapLimit then .ok (kernel, eInval)
      else if shmflag ≠ shmRnd ∧ shmaddr.tmod pgSize ≠ 0 then .ok (kernel, eInval)
      else (do
        let va := if shmflag = shmRnd then pgRoundDown (Word.ofInt shmaddr) else 0
        let givenSi := (Word.toInt va - heapLimit).tdiv pgSize
        let clear ← checkUnattached (kernel.proc p).shmsegs
          ((kernel.shmpgtable.shmSegs s).pages - givenSi).toNat givenSi
        if clear then
          shmatHelper.attachAt p clock shmflag kernel s va (kernel.shmpgtable.shmSegs s).pages
            givenSi
        else .ok (kernel, eInval)) := by
  have hlast := hsane.last_lt
  have hsize : ¬ Word.toInt (kernel.shmpgtable.shmSegs s).shmSegsz = 0 := fun hzero ↦
    Nat.ne_of_gt hpos ((hsane.slots s).toInt_eq_zero.mp hzero)
  unfold shmatHelper
  rw [if_neg (by omega), slot_natCast (by omega), ok_bind]
  dsimp only
  rw [(hsane.slots s).signedPages, if_neg hsize]
  rfl

theorem shmatHelper_search : shmatHelper kernel p clock s 0 shmflag =
      match FirstFit.find (fun i ↦ !((kernel.proc p).shmsegs i).isAttached)
        (kernel.shmpgtable.shmSegs s).pages shmMaxSeg with
      | none => .ok (kernel, eNomem)
      | some w => shmatHelper.attachAt p clock shmflag kernel s (windowAddr w)
          (kernel.shmpgtable.shmSegs s).pages w := by
  rw [shmatHelper_live hsane hs hpos, if_pos rfl]

theorem shmatHelper_outside (hne : shmaddr ≠ 0)
    (hout : Word.ofInt shmaddr > kernBase ∨ shmaddr < heapLimit) :
    shmatHelper kernel p clock s shmaddr shmflag = .ok (kernel, eInval) := by
  rw [shmatHelper_live hsane hs hpos, if_neg hne, if_pos hout]

theorem shmatHelper_unaligned (hne : shmaddr ≠ 0) (hflag : shmflag ≠ shmRnd)
    (halign : shmaddr.tmod pgSize ≠ 0) :
    shmatHelper kernel p clock s shmaddr shmflag = .ok (kernel, eInval) := by
  by_cases hout : Word.ofInt shmaddr > kernBase ∨ shmaddr < heapLimit
  · exact shmatHelper_outside hsane hs hpos hne hout
  · rw [shmatHelper_live hsane hs hpos, if_neg hne, if_neg hout, if_pos ⟨hflag, halign⟩]

section Inside

variable (hlow : (heapLimit : ℤ) ≤ shmaddr) (hhigh : shmaddr < kernBase)

include hlow hhigh

/-- Without `SHM_RND` the slots are read from a negative index on. -/
theorem shmatHelper_exact (hflag : shmflag ≠ shmRnd) (halign : shmaddr.tmod pgSize = 0) :
    shmatHelper kernel p clock s shmaddr shmflag = .error (.outOfBounds .attachedShmsegs) := by
  obtain ⟨hne, hinside⟩ := inside_window hlow hhigh
  have hnegative := nullSlot_neg
  rw [shmatHelper_live hsane hs hpos, if_neg hne, if_neg hinside,
    if_neg fun h ↦ h.2 halign, if_neg hflag]
  dsimp only
  generalize (Word.toInt 0 - heapLimit).tdiv pgSize = slot at hnegative
  obtain ⟨count, hcount⟩ : ∃ count,
      ((kernel.shmpgtable.shmSegs s).pages - slot).toNat = count + 1 :=
    ⟨((kernel.shmpgtable.shmSegs s).pages - slot).toNat - 1, by omega⟩
  rw [hcount, checkUnattached, if_neg (by omega)]
  rfl

/-- With `SHM_RND` the slots from the given one to the number of pages are checked. -/
theorem shmatHelper_occupied (hflag : shmflag = shmRnd) {j : ℕ} (hle : addrSlot shmaddr ≤ j)
    (hlt : j < (kernel.shmpgtable.shmSegs s).pages)
    (hattached : ((kernel.proc p).shmsegs j).isAttached = true) :
    shmatHelper kernel p clock s shmaddr shmflag = .ok (kernel, eInval) := by
  obtain ⟨hne, hinside⟩ := inside_window hlow hhigh
  obtain ⟨hw, hva⟩ := addrSlot_spec hlow hhigh
  have hmax := (hsane.slots s).pages_le
  rw [shmatHelper_live hsane hs hpos, if_neg hne, if_neg hinside,
    if_neg fun h ↦ h.1 hflag, if_pos hflag]
  dsimp only
  rw [hva, givenSlot_windowAddr hw]
  generalize addrSlot shmaddr = w at hw hle
  have hcount : w + ((kernel.shmpgtable.shmSegs s).pages - (w : ℤ)).toNat =
      (kernel.shmpgtable.shmSegs s).pages := by
    omega
  rw [checkUnattached_occupied (hcount.trans_le hmax) hle (hlt.trans_eq hcount.symm) hattached,
    ok_bind]
  rfl

theorem shmatHelper_given (hflag : shmflag = shmRnd)
    (hclear : ∀ j, addrSlot shmaddr ≤ j → j < (kernel.shmpgtable.shmSegs s).pages →
      ((kernel.proc p).shmsegs j).isAttached = false) :
    shmatHelper kernel p clock s shmaddr shmflag =
      shmatHelper.attachAt p clock shmflag kernel s (windowAddr (addrSlot shmaddr))
        (kernel.shmpgtable.shmSegs s).pages (addrSlot shmaddr) := by
  obtain ⟨hne, hinside⟩ := inside_window hlow hhigh
  obtain ⟨hw, hva⟩ := addrSlot_spec hlow hhigh
  have hmax := (hsane.slots s).pages_le
  rw [shmatHelper_live hsane hs hpos, if_neg hne, if_neg hinside,
    if_neg fun h ↦ h.1 hflag, if_pos hflag]
  dsimp only
  rw [hva, givenSlot_windowAddr hw]
  generalize addrSlot shmaddr = w at hw hclear
  have hfits : w + ((kernel.shmpgtable.shmSegs s).pages - (w : ℤ)).toNat ≤ shmMaxSeg := by
    omega
  rw [checkUnattached_clear hfits fun j hle hlt ↦ hclear j hle (by omega), ok_bind]
  rfl

end Inside

/-- The window slot for `allocshmuvm`: the first room, or the slot of the given address if no
checked slot is attached. -/
@[mk_iff] inductive ChosenSlot (shmsegs : ℕ → AttachedShmsegs) (shmaddr : ℤ) (shmflag count w : ℕ) : Prop
  | search (haddr : shmaddr = 0)
      (hfind : FirstFit.find (fun i ↦ !(shmsegs i).isAttached) count shmMaxSeg = some w) :
      ChosenSlot shmsegs shmaddr shmflag count w
  | given (hlow : (heapLimit : ℤ) ≤ shmaddr) (hhigh : shmaddr < kernBase) (hflag : shmflag = shmRnd)
      (hslot : w = addrSlot shmaddr)
      (hclear : ∀ j, w ≤ j → j < count → (shmsegs j).isAttached = false) :
      ChosenSlot shmsegs shmaddr shmflag count w

theorem shmatHelper_chosen {w : ℕ} (hchosen : ChosenSlot (kernel.proc p).shmsegs shmaddr shmflag
      (kernel.shmpgtable.shmSegs s).pages w) :
    w < shmMaxSeg ∧ shmatHelper kernel p clock s shmaddr shmflag =
      shmatHelper.attachAt p clock shmflag kernel s (windowAddr w)
        (kernel.shmpgtable.shmSegs s).pages w := by
  cases hchosen with
  | search haddr hfind =>
    obtain ⟨⟨hbound, -⟩, -⟩ := FirstFit.find_some hpos hfind
    subst haddr
    rw [shmatHelper_search hsane hs hpos, hfind]
    exact ⟨by omega, rfl⟩
  | given hlow hhigh hflag hslot hclear =>
    subst hslot
    exact ⟨(addrSlot_spec hlow hhigh).1, shmatHelper_given hsane hs hpos hlow hhigh hflag hclear⟩

end Live

end Shmat

/-- The segment at slot `s`, recorded at window slot `w`, can be detached. -/
structure Detachable (kernel : Kernel) (p s w : ℕ) : Prop where
  unlocked : kernel.shmpgtable.locked = false
  slot_lt : s < shmMaxSeg
  recorded : ((kernel.proc p).shmsegs w).shmid = s
  window : w + (kernel.shmpgtable.shmSegs s).pages ≤ shmMaxSeg
  segment : s + (kernel.shmpgtable.shmSegs s).pages ≤ shmMaxSeg
  tables : ∀ offset < (kernel.shmpgtable.shmSegs s).pages,
    (kernel.proc p).pgdir.hasTable (windowAddr (w + offset)) = true

section Shmdt

variable {kernel : Kernel} {p s w : ℕ} {clock : Clock} {shmaddr : ℤ}

theorem Detachable.detachAt (h : Detachable kernel p s w) (hsane : kernel.shmpgtable.Sane) :
    ∃ kernel', detachAt kernel p clock w = .ok (kernel', 0) := by
  obtain ⟨st, hloop⟩ := @shmdtLoop_completes clock (kernel.proc p).pid s w
    (kernel.shmpgtable.shmSegs s).pages 0
    { kernel.attaching p with shmsegs := detachStart (kernel.proc p).shmsegs w } h.window h.segment
    h.tables
  obtain ⟨table, hmark⟩ : ∃ table, st.table.modify s ShmidDs.markDest = .ok table :=
    ⟨_, modify_eq_ok.mpr ⟨s, rfl, h.slot_lt, rfl⟩⟩
  unfold Xv6Shm.detachAt
  dsimp only
  rw [h.recorded, slot_natCast h.slot_lt, ok_bind,
    acquire_eq_ok.mpr ⟨h.unlocked, rfl⟩, ok_bind, (hsane.slots s).signedPages,
    Int.toNat_natCast]
  unfold Kernel.attaching detachStart at hloop
  rw [hloop, ok_bind, hmark, ok_bind]
  exact ⟨_, rfl⟩

theorem detachable_of_detachAt {kernel' : Kernel} {result : ℤ} (hsane : kernel.shmpgtable.Sane)
    (hw : w < shmMaxSeg) (h : detachAt kernel p clock w = .ok (kernel', result)) :
    ∃ s, Detachable kernel p s w := by
  obtain ⟨slot, hslot, h⟩ := bind_eq_ok.mp h
  obtain ⟨s, hshmid, hs, rfl⟩ := slot_eq_ok.mp hslot
  obtain ⟨locked, hacquire, h⟩ := bind_eq_ok.mp h
  obtain ⟨hunlocked, rfl⟩ := acquire_eq_ok.mp hacquire
  rw [(hsane.slots s).signedPages, Int.toNat_natCast, hshmid] at h
  obtain ⟨st, hloop, -⟩ := bind_eq_ok.mp h
  have hroom := (shmdtLoop_ok hloop).room
  exact ⟨s, hunlocked, hs, hshmid, by omega, by omega, shmdtLoop_hasTable hloop⟩

theorem shmdtHelper_below (hlow : shmaddr < heapLimit) :
    shmdtHelper kernel p clock shmaddr = .ok (kernel, eInval) := if_pos (Or.inl hlow)

theorem shmdtHelper_inside (hlow : (heapLimit : ℤ) ≤ shmaddr) (hhigh : shmaddr < kernBase) :
    shmdtHelper kernel p clock shmaddr =
      if ((kernel.proc p).shmsegs (addrSlot shmaddr)).isAttached = false then .ok (kernel, eInval)
      else detachAt kernel p clock (addrSlot shmaddr) := by
  obtain ⟨hw, -⟩ := addrSlot_spec hlow hhigh
  obtain ⟨-, hinside⟩ := inside_window hlow hhigh
  unfold shmdtHelper
  rw [if_neg fun h ↦ hinside h.symm]
  rw [if_pos hw]
  rfl

theorem addrSlot_windowAddr (hw : w < shmMaxSeg) : addrSlot (windowAddr w) = w := by
  unfold addrSlot
  rw [Word.ofInt_natCast (windowAddr_word hw)]
  unfold windowAddr pgSize
  omega

end Shmdt

end Xv6Shm
