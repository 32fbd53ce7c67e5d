import Xv6Shm.Shm.Effects

/-!
# What attaching and detaching do

The page loops of `allocshmuvm` and `shmdtHelper` change the attach counts in the table, the
attachment array of the process and the entries of the window. `AttachedPages` and `DetachedPages`
say what a completed loop has done to each.
-/

namespace Xv6Shm

open Fallible Function ShmPgTable ShmidDs

theorem modifyShmsegs_eq_ok {shmsegs next : ℕ → AttachedShmsegs} {index : ℤ}
    {change : AttachedShmsegs → AttachedShmsegs} :
    modifyShmsegs shmsegs index change = .ok next ↔ ∃ i : ℕ, index = i ∧ i < shmMaxSeg ∧
        next = update shmsegs i (change (shmsegs i)) := by
  unfold modifyShmsegs
  constructor
  · intro h
    split at h
    · rename_i hrange
      cases h
      exact ⟨index.toNat, by omega, by omega, rfl⟩
    · cases h
  · rintro ⟨i, rfl, hi, rfl⟩
    rw [if_pos (by omega)]
    simp

variable {slot pa shmflag s si remaining i w : ℕ} {clock : Clock} {pid : ℤ} {st st' : Attaching}

theorem windowAddr_word (h : slot < shmMaxSeg) : windowAddr slot < Word.size :=
  lt_trans (windowAddr_lt h) (by decide)

theorem heapLimit_le_windowAddr (slot : ℕ) : heapLimit ≤ windowAddr slot := Nat.le_add_right _ _

theorem add_windowAddr {offset : ℕ} (h : slot + offset < shmMaxSeg) :
    Word.add (windowAddr slot) (offset * pgSize) = windowAddr (slot + offset) := by
  have hsum : windowAddr slot + offset * pgSize = windowAddr (slot + offset) := by
    unfold windowAddr
    rw [Nat.add_mul, Nat.add_assoc]
  rw [Word.add_eq]
  · exact hsum
  · rw [hsum]
    exact windowAddr_word h

theorem ofInt_windowAddr (h : slot < shmMaxSeg) :
    Word.ofInt ((slot : ℤ) * pgSize + heapLimit) = windowAddr slot := by
  have hcast : ((slot : ℤ) * pgSize + heapLimit) = (windowAddr slot : ℤ) := by
    unfold windowAddr
    push_cast
    omega
  rw [hcast, Word.ofInt_natCast (windowAddr_word h)]

/-- An address is in one of `count` pages from window slot `w` on, or outside all. -/
theorem window_page_or (w count b : ℕ) :
    (∃ offset < count, b / pgSize = windowAddr (w + offset) / pgSize) ∨
      b / pgSize < heapLimit / pgSize + w ∨ heapLimit / pgSize + (w + count) ≤ b / pgSize := by
  by_cases hin : heapLimit / pgSize + w ≤ b / pgSize ∧ b / pgSize < heapLimit / pgSize + (w + count)
  · obtain ⟨offset, hoffset⟩ := Nat.exists_eq_add_of_le hin.1
    refine Or.inl ⟨offset, by omega, ?_⟩
    rw [windowAddr_page, hoffset, Nat.add_assoc]
  · exact Or.inr (by omega)

/-- What every reachable slot satisfies: its size is zero or between a page and the table, and its
address is that of a physical page below `PHYSTOP`, or null. -/
structure ShmidDs.Sane (slot : ShmidDs) : Prop where
  pages : slot.shmSegsz = 0 ∨ 0 < slot.pages ∧ slot.pages ≤ shmMaxSeg
  aligned : slot.pa % pgSize = 0
  below : slot.pa < physTop

theorem ShmidDs.Sane.of_eq {slot other : ShmidDs} (h : slot.Sane)
    (hsegsz : other.shmSegsz = slot.shmSegsz) (hpa : other.pa = slot.pa) : other.Sane where
  pages := by
    unfold ShmidDs.pages
    rw [hsegsz]
    exact h.pages
  aligned := hpa ▸ h.aligned
  below := hpa ▸ h.below

/-- The entry `allocshmuvm` makes for a page of a segment. -/
def attachEntry (pa shmflag : ℕ) : ℕ := v2p pa ||| attachPerm shmflag ||| pteP

/-- The entry carries the second conversion of the stored address. -/
theorem attachEntry_eq (shmflag : ℕ) (haligned : pa % pgSize = 0) (hbelow : pa < physTop) :
    attachEntry pa shmflag = pa + kernBase + (attachPerm shmflag ||| pteP) := by
  have hword : pa < kernBase := lt_trans hbelow (by decide)
  have hperm : attachPerm shmflag ||| pteP < 2 ^ 12 := by
    unfold attachPerm
    split <;> decide
  have hhigh : (pa + kernBase) % 2 ^ 12 = 0 := by
    unfold pgSize kernBase at *
    omega
  rw [attachEntry, v2p_of_lt hword, Nat.or_assoc]
  exact Word.or_low_eq_add hhigh hperm

theorem attachEntry_spec (shmflag : ℕ) (haligned : pa % pgSize = 0) (hbelow : pa < physTop) :
    isPresent (attachEntry pa shmflag) = true ∧ pteAddr (attachEntry pa shmflag) = v2p pa := by
  have hword : pa < kernBase := lt_trans hbelow (by decide)
  have hperm : attachPerm shmflag ||| pteP < 8 ∧ (attachPerm shmflag ||| pteP) % 2 = 1 := by
    unfold attachPerm
    split <;> decide
  rw [attachEntry_eq shmflag haligned hbelow]
  constructor
  · rw [isPresent_iff]
    unfold pgSize kernBase at *
    omega
  · rw [pteAddr_eq, v2p_of_lt hword]
    · unfold pgSize kernBase at *
      omega
    · unfold physTop at hbelow
      unfold kernBase Word.size
      omega

/-- The loop of `allocshmuvm` has attached `count` pages of the segment at slot `s` from window slot
`w` on. -/
structure AttachedPages (clock : Clock) (pid : ℤ) (shmid : ℤ) (shmflag s w count : ℕ)
    (before after : Attaching) : Prop where
  room : count = 0 ∨ w + count ≤ shmMaxSeg ∧ s + count ≤ shmMaxSeg
  table : after.table = before.table.onPages s count (attached clock pid)
  shmsegs : after.shmsegs = Cells.onRange w count (fun _ _ ↦ ⟨true, shmid⟩) before.shmsegs
  frames : after.vm.frames = before.vm.frames
  absent : ∀ offset < count, isPresent (before.vm.pgdir.pte (windowAddr (w + offset))) = false
  entry : ∀ offset < count, after.vm.pgdir.pte (windowAddr (w + offset)) =
    attachEntry (before.table.shmSegs (s + offset)).pa shmflag
  others : ∀ b < Word.size,
    b / pgSize < heapLimit / pgSize + w ∨ heapLimit / pgSize + (w + count) ≤ b / pgSize →
    after.vm.pgdir.pte b = before.vm.pgdir.pte b

theorem allocshmuvmLoop_succ (hw : si + i < shmMaxSeg) (hs : s + i < shmMaxSeg) :
    allocshmuvmLoop clock pid s (windowAddr si) si shmflag (remaining + 1) i st = (do
      match ← mapPage st.vm (windowAddr (si + i))
        (attachEntry (st.table.shmSegs (s + i)).pa shmflag) with
      | some vm =>
        allocshmuvmLoop clock pid s (windowAddr si) si shmflag remaining (i + 1)
          ⟨st.table.onPages (s + i) 1 (attached clock pid), vm,
            update st.shmsegs (si + i) ⟨true, s⟩⟩
      | none => do
        let (vm, _) ← deallocuvm st.vm (windowAddr (si + i)) (windowAddr si)
        pure (⟨st.table, vm, update st.shmsegs (si + i) ⟨true, s⟩⟩, false)) := by
  have hsegs : modifyShmsegs st.shmsegs (si + i) (fun _ ↦ ⟨true, s⟩) =
      .ok (update st.shmsegs (si + i) ⟨true, s⟩) :=
    modifyShmsegs_eq_ok.mpr ⟨si + i, by push_cast; rfl, hw, rfl⟩
  have hslot : st.table.slot (s + i) = .ok (st.table.shmSegs (s + i)) :=
    slot_eq_ok.mpr ⟨s + i, by push_cast; rfl, hs, rfl⟩
  have hmodify : st.table.modify (s + i) (attached clock pid) =
      .ok (st.table.onPages (s + i) 1 (attached clock pid)) := by
    rw [onPages_one]
    exact modify_eq_ok.mpr ⟨s + i, by push_cast; rfl, hs, rfl⟩
  rw [allocshmuvmLoop, hsegs, ok_bind, hslot, ok_bind]
  dsimp only
  rw [add_windowAddr hw, mappages_page (windowAddr_aligned _) (windowAddr_word hw), bind_assoc]
  apply bind_congr
  intro result
  cases result with
  | none => rfl
  | some vm =>
    dsimp only
    rw [pure_eq_ok, ok_bind, if_pos rfl, hmodify, ok_bind]

theorem allocshmuvmLoop_step {ok : Bool}
    (h : allocshmuvmLoop clock pid s (windowAddr si) si shmflag (remaining + 1) i st =
      .ok (st', ok)) :
    si + i < shmMaxSeg ∧ s + i < shmMaxSeg ∧ ((∃ vm, mapPage st.vm (windowAddr (si + i))
            (attachEntry (st.table.shmSegs (s + i)).pa shmflag) = .ok (some vm) ∧
          allocshmuvmLoop clock pid s (windowAddr si) si shmflag remaining (i + 1)
            ⟨st.table.onPages (s + i) 1 (attached clock pid), vm,
              update st.shmsegs (si + i) ⟨true, s⟩⟩ = .ok (st', ok)) ∨
        (ok = false ∧ st.vm.kmem.freelist = [] ∧ ∃ vm sz,
          deallocuvm st.vm (windowAddr (si + i)) (windowAddr si) = .ok (vm, sz) ∧
          st' = ⟨st.table, vm, update st.shmsegs (si + i) ⟨true, s⟩⟩)) := by
  have hbounds : si + i < shmMaxSeg ∧ s + i < shmMaxSeg := by
    rw [allocshmuvmLoop] at h
    obtain ⟨shmsegs, hsegs, h⟩ := bind_eq_ok.mp h
    obtain ⟨w, hw, hwbound, -⟩ := modifyShmsegs_eq_ok.mp hsegs
    obtain ⟨slot, hslot, -⟩ := bind_eq_ok.mp h
    obtain ⟨t, ht, htbound, -⟩ := slot_eq_ok.mp hslot
    omega
  refine ⟨hbounds.1, hbounds.2, ?_⟩
  rw [allocshmuvmLoop_succ hbounds.1 hbounds.2] at h
  obtain ⟨result, hpage, h⟩ := bind_eq_ok.mp h
  cases result with
  | none =>
    obtain ⟨⟨vm, sz⟩, hdealloc, h⟩ := bind_eq_ok.mp h
    cases h
    obtain ⟨-, -, hfree⟩ | ⟨walked, -, -, hsome⟩ := mapPage_cases hpage
    · exact Or.inr ⟨rfl, hfree, vm, sz, hdealloc, rfl⟩
    · cases hsome
  | some vm => exact Or.inl ⟨vm, hpage, h⟩

theorem AttachedPages.cons {count : ℕ} {vm : Vm} (hw : w < shmMaxSeg) (hs : s < shmMaxSeg) {shmid : ℤ}
    (hpage : mapPage st.vm (windowAddr w) (attachEntry (st.table.shmSegs s).pa shmflag) =
      .ok (some vm))
    (hrest : AttachedPages clock pid shmid shmflag (s + 1) (w + 1) count
      ⟨st.table.onPages s 1 (attached clock pid), vm, update st.shmsegs w ⟨true, shmid⟩⟩ st') :
    AttachedPages clock pid shmid shmflag s w (count + 1) st st' := by
  have hword := windowAddr_word hw
  have hpte (b : ℕ) (hb : b < Word.size) := mapPage_pte hpage hword hb
  have hotherSlot (offset : ℕ) (h : w + 1 + offset < shmMaxSeg) :
      vm.pgdir.pte (windowAddr (w + 1 + offset)) = st.vm.pgdir.pte (windowAddr (w + 1 + offset)) := by
    rw [hpte _ (windowAddr_word h), if_neg]
    rw [windowAddr_page, windowAddr_page]
    omega
  obtain ⟨hroom, htable, hsegs, hframes, habsent, hentry, hothers⟩ := hrest
  have hrange (offset : ℕ) (h : offset < count) : w + 1 + offset < shmMaxSeg := by omega
  constructor
  · omega
  · rw [htable, onPages_one]
    unfold onPages
    rw [Cells.onRange_update s count (fun _ ↦ attached clock pid)
      (fun _ ↦ attached clock pid) st.table.shmSegs fun _ ↦ rfl]
  · rw [hsegs]
    exact Cells.onRange_update w count (fun _ _ ↦ ⟨true, shmid⟩) (fun _ _ ↦ ⟨true, shmid⟩)
      st.shmsegs fun _ ↦ rfl
  · rw [hframes]
    exact mapPage_frames_of_ge hpage (heapLimit_le_windowAddr w) hword
  · intro offset hoffset
    cases offset with
    | zero =>
      obtain ⟨hnone, -⟩ | ⟨walked, -, hfirst, -⟩ := mapPage_cases hpage
      · cases hnone
      · exact hfirst
    | succ offset =>
      have hlater := habsent offset (by omega)
      rw [hotherSlot offset (hrange offset (by omega))] at hlater
      rwa [Nat.add_right_comm, Nat.add_assoc] at hlater
  · intro offset hoffset
    cases offset with
    | zero =>
      rw [Nat.add_zero, Nat.add_zero, hothers _ hword, hpte _ hword, if_pos rfl]
      left
      rw [windowAddr_page]
      omega
    | succ offset =>
      have hlater := hentry offset (by omega)
      rw [onPages_of_not_mem (by omega)] at hlater
      rwa [Nat.add_right_comm w, Nat.add_right_comm s, Nat.add_assoc, Nat.add_assoc] at hlater
  · intro b hb hout
    rw [hothers b hb (by omega), hpte b hb, if_neg]
    rw [windowAddr_page]
    omega

theorem allocshmuvmLoop_ok {remaining i : ℕ} {st st' : Attaching}
    (h : allocshmuvmLoop clock pid s (windowAddr si) si shmflag remaining i st = .ok (st', true)) :
    AttachedPages clock pid s shmflag (s + i) (si + i) remaining st st' := by
  induction remaining generalizing i st st' with
  | zero =>
    cases h
    constructor
    · exact Or.inl rfl
    · rw [onPages_zero]
    · rw [Cells.onRange_zero]
    · rfl
    · intro offset hoffset
      exact absurd hoffset (Nat.not_lt_zero offset)
    · intro offset hoffset
      exact absurd hoffset (Nat.not_lt_zero offset)
    · intro b _ _
      rfl
  | succ remaining ih =>
    obtain ⟨hw, hs, ⟨vm, hpage, hrest⟩ | ⟨hok, -⟩⟩ := allocshmuvmLoop_step h
    · exact AttachedPages.cons hw hs hpage (ih hrest)
    · cases hok

/-- Undoing an attachment with `deallocuvm` fails: the entry of the first page does not hold the
physical address of a frame, so `kfree` panics. -/
theorem deallocuvm_attached {vm : Vm} {oldsz : ℕ} (hw : w < shmMaxSeg)
    (hold : windowAddr w < oldsz) (haligned : pa % pgSize = 0) (hbelow : pa < physTop)
    (hentry : vm.pgdir.pte (windowAddr w) = attachEntry pa shmflag) :
    deallocuvm vm oldsz (windowAddr w) = .error (.panic "kfree") := by
  obtain ⟨hpresent, haddr⟩ := attachEntry_spec shmflag haligned hbelow
  have hkernel : pa < kernBase := lt_trans hbelow (by decide)
  have htable : vm.pgdir.hasTable (windowAddr w) = true := by
    by_contra hnone
    rw [Pgdir.pte_of_not_hasTable (by simpa using hnone)] at hentry
    rw [← hentry] at hpresent
    exact Bool.false_ne_true hpresent
  have hround : pgRoundUp (windowAddr w) = windowAddr w := by
    have hlt := windowAddr_lt hw
    have hpage := windowAddr_aligned w
    rw [pgRoundUp_eq]
    · unfold pgSize at *
      omega
    · unfold kernBase at hlt
      unfold pgSize Word.size
      omega
  have hrefused : vm.kmem.kfree (p2v (v2p pa)) = .error (.panic "kfree") := by
    rw [p2v_v2p (lt_trans hkernel (by decide))]
    exact Kmem.kfree_below (lt_trans hkernel (by decide))
  have hfuel : 2 ^ 20 = (2 ^ 20 - 1) + 1 := by decide
  rw [deallocuvm, if_neg (Nat.not_le.mpr hold), hround, hfuel, deallocuvmLoop, if_pos hold,
    if_pos htable, hentry, if_pos hpresent, haddr, hrefused]
  split <;> rfl

/-- The only way `allocshmuvm` gives up: there was no page for the page table of the first page. One
window slot is marked, nothing else is changed, and the lock stays held. -/
theorem allocshmuvmLoop_giveUp {remaining i : ℕ} {st st' : Attaching}
    (hsane : ∀ k, (st.table.shmSegs k).Sane) (hfirst : i ≠ 0 → si < shmMaxSeg ∧ ∃ pa, pa % pgSize =
      0 ∧ pa < physTop ∧ st.vm.pgdir.pte (windowAddr si) = attachEntry pa shmflag)
    (h : allocshmuvmLoop clock pid s (windowAddr si) si shmflag remaining i st = .ok (st', false)) :
    i = 0 ∧ 0 < remaining ∧ si < shmMaxSeg ∧ st.vm.kmem.freelist = [] ∧ st' = ⟨st.table, st.vm,
      update st.shmsegs si ⟨true, s⟩⟩ := by
  induction remaining generalizing i st st' with
  | zero => cases h
  | succ remaining ih =>
    obtain ⟨hw, hs, ⟨vm, hpage, hrest⟩ | ⟨-, hfree, vm, sz, hdealloc, rfl⟩⟩ :=
      allocshmuvmLoop_step h
    · have hsi : si < shmMaxSeg := by omega
      have hkept (k : ℕ) : ((st.table.onPages (s + i) 1 (attached clock pid)).shmSegs k).Sane :=
        onPages_forall (fun slot hslot ↦ hslot.of_eq rfl rfl) hsane k
      have hnext := ih hkept ?_ hrest
      · exact absurd hnext.1 (Nat.succ_ne_zero i)
      · intro _
        refine ⟨hsi, ?_⟩
        rw [mapPage_pte hpage (windowAddr_word hw) (windowAddr_word hsi), windowAddr_page,
          windowAddr_page]
        by_cases hzero : i = 0
        · subst hzero
          rw [if_pos (by omega)]
          exact ⟨_, (hsane _).aligned, (hsane _).below, rfl⟩
        · rw [if_neg (by omega)]
          exact (hfirst hzero).2
    · by_cases hzero : i = 0
      · subst hzero
        have hsame : vm = st.vm := by
          rw [deallocuvm, if_pos (by simp)] at hdealloc
          cases hdealloc
          rfl
        subst hsame
        exact ⟨rfl, Nat.succ_pos _, hw, hfree, rfl⟩
      · obtain ⟨hsi, pa, haligned, hbelow, hentry⟩ := hfirst hzero
        have hlt : windowAddr si < windowAddr (si + i) := by
          unfold windowAddr pgSize
          omega
        rw [deallocuvm_attached hsi hlt haligned hbelow hentry] at hdealloc
        cases hdealloc

/-- The loop of `shmdtHelper` has detached `count` pages of the segment at slot `s` from window slot
`w` on. -/
structure DetachedPages (clock : Clock) (pid : ℤ) (s w count : ℕ) (before after : Attaching) :
    Prop where
  room : count = 0 ∨ w + count ≤ shmMaxSeg ∧ s + count ≤ shmMaxSeg
  table : after.table = before.table.onPages s count (detached clock pid)
  shmsegs : after.shmsegs =
    Cells.onRange w count (fun _ entry ↦ { entry with isAttached := false }) before.shmsegs
  kmem : after.vm.kmem = before.vm.kmem
  frames : after.vm.pgdir.frames = before.vm.pgdir.frames
  absent : ∀ offset < count, isPresent (after.vm.pgdir.pte (windowAddr (w + offset))) = false
  others : ∀ b < Word.size,
    b / pgSize < heapLimit / pgSize + w ∨ heapLimit / pgSize + (w + count) ≤ b / pgSize →
    after.vm.pgdir.pte b = before.vm.pgdir.pte b

theorem DetachedPages.cons {count : ℕ} {pgdir : Pgdir} (hw : w < shmMaxSeg) (hs : s < shmMaxSeg)
    (hclear : clearmapping st.vm.pgdir (windowAddr w) = .ok pgdir)
    (hrest : DetachedPages clock pid (s + 1) (w + 1) count
      ⟨st.table.onPages s 1 (detached clock pid), ⟨st.vm.kmem, pgdir⟩,
        update st.shmsegs w { st.shmsegs w with isAttached := false }⟩ st') :
    DetachedPages clock pid s w (count + 1) st st' := by
  have hword := windowAddr_word hw
  obtain ⟨htable, rfl⟩ := clearmapping_eq_ok.mp hclear
  obtain ⟨hroom, htab, hsegs, hkmem, hframes, habsent, hothers⟩ := hrest
  constructor
  · omega
  · rw [htab, onPages_one]
    unfold onPages
    rw [Cells.onRange_update s count (fun _ ↦ detached clock pid)
      (fun _ ↦ detached clock pid) st.table.shmSegs fun _ ↦ rfl]
  · rw [hsegs]
    exact Cells.onRange_update w count (fun _ entry ↦ { entry with isAttached := false })
      (fun _ entry ↦ { entry with isAttached := false }) st.shmsegs fun _ ↦ rfl
  · exact hkmem
  · rw [hframes]
    exact Pgdir.frames_setPte_of_ge _ (heapLimit_le_windowAddr w) hword
  · intro offset hoffset
    cases offset with
    | zero =>
      rw [Nat.add_zero, hothers _ hword]
      · rw [Pgdir.pte_setPte_self htable]
        exact isPresent_clear _
      · left
        rw [windowAddr_page]
        omega
    | succ offset =>
      have hlater := habsent offset (by omega)
      rwa [Nat.add_right_comm, Nat.add_assoc] at hlater
  · intro b hb hout
    rw [hothers b hb (by omega)]
    apply Pgdir.pte_setPte_of_ne hword hb
    rw [windowAddr_page]
    omega

theorem shmdtLoop_succ (hw : si + i < shmMaxSeg) (hs : s + i < shmMaxSeg) :
    shmdtLoop clock pid s si (remaining + 1) i st = (do
      let pgdir ← clearmapping st.vm.pgdir (windowAddr (si + i))
      shmdtLoop clock pid s si remaining (i + 1)
        ⟨st.table.onPages (s + i) 1 (detached clock pid), ⟨st.vm.kmem, pgdir⟩,
          update st.shmsegs (si + i) { st.shmsegs (si + i) with isAttached := false }⟩) := by
  have hcast : ((si : ℤ) + i) = ((si + i : ℕ) : ℤ) := by push_cast; rfl
  have hsegs : modifyShmsegs st.shmsegs (si + i) (fun entry ↦ { entry with isAttached := false }) =
      .ok (update st.shmsegs (si + i) { st.shmsegs (si + i) with isAttached := false }) :=
    modifyShmsegs_eq_ok.mpr ⟨si + i, hcast, hw, rfl⟩
  have hmodify : st.table.modify (s + i) (detached clock pid) =
      .ok (st.table.onPages (s + i) 1 (detached clock pid)) := by
    rw [onPages_one]
    exact modify_eq_ok.mpr ⟨s + i, by push_cast; rfl, hs, rfl⟩
  rw [shmdtLoop, hsegs, ok_bind, hmodify, ok_bind, hcast, ofInt_windowAddr hw]

theorem shmdtLoop_ok {remaining i : ℕ} {st st' : Attaching}
    (h : shmdtLoop clock pid s si remaining i st = .ok st') :
    DetachedPages clock pid (s + i) (si + i) remaining st st' := by
  induction remaining generalizing i st st' with
  | zero =>
    cases h
    constructor
    · exact Or.inl rfl
    · rw [onPages_zero]
    · rw [Cells.onRange_zero]
    · rfl
    · rfl
    · intro offset hoffset
      exact absurd hoffset (Nat.not_lt_zero offset)
    · intro b _ _
      rfl
  | succ remaining ih =>
    have hbounds : si + i < shmMaxSeg ∧ s + i < shmMaxSeg := by
      rw [shmdtLoop] at h
      obtain ⟨shmsegs, hsegs, h⟩ := bind_eq_ok.mp h
      obtain ⟨w, hw, hwbound, -⟩ := modifyShmsegs_eq_ok.mp hsegs
      obtain ⟨table, hmodify, -⟩ := bind_eq_ok.mp h
      obtain ⟨t, ht, htbound, -⟩ := modify_eq_ok.mp hmodify
      omega
    rw [shmdtLoop_succ hbounds.1 hbounds.2] at h
    obtain ⟨pgdir, hclear, h⟩ := bind_eq_ok.mp h
    exact DetachedPages.cons hbounds.1 hbounds.2 hclear (ih h)

theorem shmdtLoop_hasTable : ∀ {remaining i : ℕ} {st st' : Attaching},
      shmdtLoop clock pid s si remaining i st = .ok st' →
      ∀ offset < remaining, st.vm.pgdir.hasTable (windowAddr (si + i + offset)) = true := by
  intro remaining
  induction remaining with
  | zero =>
    intro i st st' _ offset hoffset
    exact absurd hoffset (Nat.not_lt_zero offset)
  | succ remaining ih =>
    intro i st st' h offset hoffset
    have hroom := (shmdtLoop_ok h).room
    rw [shmdtLoop_succ (by omega) (by omega)] at h
    obtain ⟨pgdir, hclear, h⟩ := bind_eq_ok.mp h
    obtain ⟨hfirst, rfl⟩ := clearmapping_eq_ok.mp hclear
    cases offset with
    | zero => exact hfirst
    | succ offset =>
      have hlater := ih h offset (Nat.lt_of_succ_lt_succ hoffset)
      rwa [Pgdir.hasTable_setPte, ← Nat.add_assoc si, Nat.add_assoc (si + i), Nat.add_comm 1]
        at hlater

/-- The loop completes if its slots are slots and its pages have page tables. -/
theorem shmdtLoop_completes {clock : Clock} {pid : ℤ} {s si : ℕ} {remaining i : ℕ} {st : Attaching}
    (hw : si + i + remaining ≤ shmMaxSeg) (hs : s + i + remaining ≤ shmMaxSeg)
    (htables : ∀ offset < remaining, st.vm.pgdir.hasTable (windowAddr (si + i + offset)) = true) :
    ∃ st', shmdtLoop clock pid s si remaining i st = .ok st' := by
  induction remaining generalizing i st with
  | zero => exact ⟨st, rfl⟩
  | succ remaining ih =>
    have hfirst : st.vm.pgdir.hasTable (windowAddr (si + i)) = true := htables 0 (Nat.succ_pos _)
    rw [shmdtLoop_succ (by omega) (by omega), clearmapping_eq_ok.mpr ⟨hfirst, rfl⟩, ok_bind]
    apply ih (by omega) (by omega)
    intro offset hoffset
    have hlater := htables (offset + 1) (Nat.succ_lt_succ hoffset)
    rwa [Pgdir.hasTable_setPte, ← Nat.add_assoc si, Nat.add_assoc (si + i), Nat.add_comm 1]

end Xv6Shm
