import Xv6Shm.Lib.Cells
import Xv6Shm.Memory.Uvm

/-!
# Conservation of page frames

Every page of the allocator is on the free list or belongs to an address space: as its directory, as
a page table, or as a private page below `HEAPLIMIT`. Each function of `vm.c` leaves the multiset
`Vm.frames` of all of them as it was, on the error paths too, and leaves the entries between
`HEAPLIMIT` and `KERNBASE`, which belong to shared memory, alone.
-/

namespace Xv6Shm

open Fallible Pgdir Kmem Function

/-- The frame a present entry maps. -/
def pteFrames (pte : ℕ) : Multiset ℕ := if isPresent pte then {p2v (pteAddr pte)} else 0

/-- The page of a page table. -/
def tableFrames : Option PageTable → Multiset ℕ
  | none => 0
  | some table => {table.page}

namespace Pgdir

/-- The private pages below `HEAPLIMIT`. -/
@[irreducible] def userFrames (pgdir : Pgdir) : Multiset ℕ :=
  ∑ page ∈ Finset.range (heapLimit / pgSize), pteFrames (pgdir.pte (page * pgSize))

/-- The directory and its page tables. -/
@[irreducible] def tablePages (pgdir : Pgdir) : Multiset ℕ :=
  {pgdir.page} + ∑ index ∈ Finset.range npdEntries, tableFrames (pgdir.tables index)

def frames (pgdir : Pgdir) : Multiset ℕ := pgdir.tablePages + pgdir.userFrames

end Pgdir

/-- The free pages and those of the address space. -/
def Vm.frames (vm : Vm) : Multiset ℕ := vm.kmem.freelist + vm.pgdir.frames

theorem pteFrames_of_absent {pte : ℕ} (h : isPresent pte = false) : pteFrames pte = 0 := by
  rw [pteFrames, if_neg (by simp [h])]

@[simp] theorem pteFrames_zero : pteFrames 0 = 0 := pteFrames_of_absent isPresent_zero

theorem pteFrames_of_present {pte : ℕ} (h : isPresent pte = true) :
    pteFrames pte = {p2v (pteAddr pte)} := by
  rw [pteFrames, if_pos h]

@[simp] theorem tableFrames_none : tableFrames none = 0 := rfl

@[simp] theorem tableFrames_some (table : PageTable) : tableFrames (some table) = {table.page} := rfl

section Entry

variable {mem perm : ℕ}

theorem pteFrames_entry (hframe : IsFrame mem) (hperm : perm < pgSize) :
    pteFrames (v2p mem ||| perm ||| pteP) = {mem} := by
  rw [pteFrames_of_present (isPresent_entry _), pteAddr_entry hframe.v2p_aligned hperm
    (Word.sub_lt _ _), p2v_v2p hframe.isWord]

end Entry

theorem pdx_lt (va : ℕ) : pdx va < npdEntries := by
  rw [pdx_eq]
  exact Nat.mod_lt _ (by decide)

namespace Pgdir

theorem userFrames_congr {pgdir other : Pgdir}
    (h : ∀ va < heapLimit, other.pte va = pgdir.pte va) : other.userFrames = pgdir.userFrames := by
  unfold userFrames
  apply Finset.sum_congr rfl
  intro page hpage
  rw [Finset.mem_range] at hpage
  have hva : page * pgSize < heapLimit := by
    unfold heapLimit pgSize at *
    omega
  rw [h _ hva]

theorem tablePages_setTable {pgdir : Pgdir} {va page : ℕ} (hnone : pgdir.tables (pdx va) = none) :
    (pgdir.setTable (pdx va) ⟨page, fun _ ↦ 0⟩).tablePages = {page} + pgdir.tablePages := by
  have htables := Cells.sum_exchange (fun index ↦ tableFrames (pgdir.tables index))
    (fun index ↦ tableFrames ((pgdir.setTable (pdx va) ⟨page, fun _ ↦ 0⟩).tables index))
    (Finset.mem_range.mpr (pdx_lt va))
    (fun index _ hne ↦ by simp [setTable, update_of_ne hne])
  simp only [setTable, update_self, hnone, tableFrames_none, tableFrames_some, add_zero] at htables
  unfold tablePages
  simp only [setTable]
  rw [htables]
  abel

theorem frames_setTable {pgdir : Pgdir} {va page : ℕ} (hnone : pgdir.tables (pdx va) = none) :
    (pgdir.setTable (pdx va) ⟨page, fun _ ↦ 0⟩).frames = {page} + pgdir.frames := by
  have huser : (pgdir.setTable (pdx va) ⟨page, fun _ ↦ 0⟩).userFrames = pgdir.userFrames := by
    apply userFrames_congr
    intro a _
    by_cases hpdx : pdx a = pdx va
    · simp [pte, setTable, hpdx, hnone]
    · simp [pte, setTable, update_of_ne hpdx]
  rw [frames, frames, huser, tablePages_setTable hnone, add_assoc]

@[simp] theorem tablePages_setPte (pgdir : Pgdir) (va entry : ℕ) :
    (pgdir.setPte va entry).tablePages = pgdir.tablePages := by
  have htable (index : ℕ) :
      tableFrames ((pgdir.setPte va entry).tables index) = tableFrames (pgdir.tables index) := by
    unfold setPte
    cases hva : pgdir.tables (pdx va) with
    | none => rfl
    | some table =>
      by_cases hindex : index = pdx va
      · simp [setTable, hindex, hva]
      · simp [setTable, update_of_ne hindex]
  unfold tablePages
  simp only [page_setPte, htable]

/-- Overwriting the entry of a page below `HEAPLIMIT` exchanges what it maps. -/
theorem frames_setPte {pgdir : Pgdir} {va : ℕ} (entry : ℕ) (htable : pgdir.hasTable va = true)
    (hva : va < heapLimit) :
    (pgdir.setPte va entry).frames + pteFrames (pgdir.pte va) = pgdir.frames + pteFrames entry := by
  have hword (a : ℕ) (ha : a < heapLimit) : a < Word.size := lt_trans ha (by decide)
  have hpage : va / pgSize < heapLimit / pgSize := by
    unfold heapLimit pgSize at *
    omega
  have hindex : va / pgSize * pgSize / pgSize = va / pgSize :=
    Nat.mul_div_cancel _ (by decide)
  have huser := Cells.sum_exchange (fun page ↦ pteFrames (pgdir.pte (page * pgSize)))
    (fun page ↦ pteFrames ((pgdir.setPte va entry).pte (page * pgSize)))
    (Finset.mem_range.mpr hpage)
    (fun page hmem hne ↦ by
      rw [Finset.mem_range] at hmem
      rw [pte_setPte_of_ne (hword va hva) (hword _ _)]
      · rwa [Nat.mul_div_cancel _ (by decide : 0 < pgSize)]
      · unfold heapLimit pgSize at *
        omega)
  rw [pte_congr hindex, pte_congr hindex, pte_setPte_self htable] at huser
  unfold frames userFrames
  rw [tablePages_setPte, add_assoc, add_assoc, huser]

theorem frames_setPte_of_ge {pgdir : Pgdir} {va : ℕ} (entry : ℕ) (hva : heapLimit ≤ va)
    (hword : va < Word.size) : (pgdir.setPte va entry).frames = pgdir.frames := by
  unfold frames
  rw [tablePages_setPte, userFrames_congr]
  intro a ha
  apply pte_setPte_of_ne hword (lt_trans ha (by decide))
  unfold heapLimit pgSize at *
  omega

end Pgdir

/-- The address lies in the page at `v`. -/
def InPage (v a : ℕ) : Prop := v ≤ a ∧ a < v + pgSize

namespace Pgdir

/-- The same entries between `HEAPLIMIT` and `KERNBASE`. -/
def SameWindow (pgdir other : Pgdir) : Prop :=
  ∀ b, heapLimit ≤ b → b < kernBase → other.pte b = pgdir.pte b

/-- There is no entry between `HEAPLIMIT` and `KERNBASE`. -/
def EmptyWindow (pgdir : Pgdir) : Prop :=
  ∀ b, heapLimit ≤ b → b < kernBase → pgdir.pte b = 0

theorem SameWindow.refl (pgdir : Pgdir) : pgdir.SameWindow pgdir := fun _ _ _ ↦ rfl

theorem SameWindow.trans {pgdir middle other : Pgdir} (hfirst : pgdir.SameWindow middle)
    (hsecond : middle.SameWindow other) : pgdir.SameWindow other := by
  intro b hlow hhigh
  rw [hsecond b hlow hhigh, hfirst b hlow hhigh]

theorem SameWindow.empty {pgdir other : Pgdir} (hsame : pgdir.SameWindow other)
    (hempty : pgdir.EmptyWindow) : other.EmptyWindow := by
  intro b hlow hhigh
  rw [hsame b hlow hhigh, hempty b hlow hhigh]

theorem sameWindow_setPte {pgdir : Pgdir} {va : ℕ} (entry : ℕ) (hword : va < Word.size)
    (hva : va < heapLimit ∨ kernBase ≤ va) : pgdir.SameWindow (pgdir.setPte va entry) := by
  intro b hlow hhigh
  apply pte_setPte_of_ne hword (lt_trans hhigh (by decide))
  unfold heapLimit kernBase pgSize at *
  omega

end Pgdir

namespace Kmem

variable {kmem next : Kmem} {page : ℕ}

theorem freelist_of_kalloc (h : kmem.kalloc = some (page, next)) :
    (kmem.freelist : Multiset ℕ) = {page} + (next.freelist : Multiset ℕ) := by
  rw [(kalloc_eq_some.mp h).1, ← Multiset.cons_coe, Multiset.singleton_add]

theorem freelist_of_kfree (h : kmem.kfree page = .ok next) :
    (next.freelist : Multiset ℕ) = {page} + (kmem.freelist : Multiset ℕ) := by
  rw [kfree_freelist h, ← Multiset.cons_coe, Multiset.singleton_add]

theorem bytes_of_kfree (h : kmem.kfree page = .ok next) {a : ℕ} (ha : ¬ InPage page a) :
    next.bytes a = kmem.bytes a := by
  obtain ⟨hframe, rfl⟩ := kfree_eq_ok.mp h
  exact if_neg ha

end Kmem

/-- A function of `vm.c` that holds the pages `held` has come from `vm` to `next`, where it holds
`held'`: no page is lost, the window is as it was, and only these pages are written. -/
structure Vm.Moves (vm : Vm) (held : Multiset ℕ) (next : Vm) (held' : Multiset ℕ) : Prop where
  frames : next.frames + held' = vm.frames + held
  window : vm.pgdir.SameWindow next.pgdir
  kept : ∀ a, (∀ v ∈ vm.frames + held, ¬ InPage v a) → next.kmem.bytes a = vm.kmem.bytes a

namespace Vm.Moves

variable {vm middle next : Vm} {held held' held'' : Multiset ℕ}

theorem refl (vm : Vm) (held : Multiset ℕ) : vm.Moves held vm held :=
  ⟨rfl, Pgdir.SameWindow.refl _, fun _ _ ↦ rfl⟩

theorem trans (h : vm.Moves held middle held') (h' : middle.Moves held' next held'') :
    vm.Moves held next held'' where
  frames := h'.frames.trans h.frames
  window := h.window.trans h'.window
  kept a ha := by rw [h'.kept a (by rwa [h.frames]), h.kept a ha]

theorem frame (h : vm.Moves held next held') (extra : Multiset ℕ) :
    vm.Moves (held + extra) next (held' + extra) where
  frames := by rw [← add_assoc, ← add_assoc, h.frames]
  window := h.window
  kept a ha := by
    refine h.kept a fun v hv ↦ ha v ?_
    rw [← add_assoc]
    exact Multiset.mem_add.mpr (Or.inl hv)

theorem frames_eq (h : vm.Moves 0 next 0) : next.frames = vm.frames := by
  simpa using h.frames

theorem of_kalloc {kmem filled : Kmem} {mem : ℕ} (h : vm.kmem.kalloc = some (mem, kmem))
    (hlist : filled.freelist = kmem.freelist)
    (hkept : ∀ a, ¬ InPage mem a → filled.bytes a = kmem.bytes a) :
    vm.Moves 0 ⟨filled, vm.pgdir⟩ {mem} where
  frames := by
    unfold Vm.frames
    rw [freelist_of_kalloc h, hlist, add_zero, add_comm, add_assoc]
  window := Pgdir.SameWindow.refl _
  kept a ha := by
    have hmem : mem ∈ vm.frames := by
      rw [Vm.frames, freelist_of_kalloc h]
      simp
    rw [hkept a (ha mem (Multiset.mem_add.mpr (Or.inl hmem))), (kalloc_eq_some.mp h).2]

theorem of_kfree {kmem : Kmem} {mem : ℕ} (h : vm.kmem.kfree mem = .ok kmem) :
    vm.Moves {mem} ⟨kmem, vm.pgdir⟩ 0 where
  frames := by
    unfold Vm.frames
    rw [freelist_of_kfree h]
    abel
  window := Pgdir.SameWindow.refl _
  kept a ha := bytes_of_kfree h
    (ha mem (Multiset.mem_add.mpr (Or.inr (Multiset.mem_singleton_self mem))))

theorem of_setPte {a : ℕ} (entry : ℕ) (htable : vm.pgdir.hasTable a = true) (ha : a < heapLimit) :
    vm.Moves (pteFrames entry) ⟨vm.kmem, vm.pgdir.setPte a entry⟩ (pteFrames (vm.pgdir.pte a)) where
  frames := by
    unfold Vm.frames
    rw [add_assoc, frames_setPte entry htable ha, add_assoc]
  window := sameWindow_setPte entry (lt_trans ha (by decide)) (Or.inl ha)
  kept _ _ := rfl

end Vm.Moves

section Entering

variable {vm next : Vm} {a pte : ℕ}

theorem walkpgdir_moves (h : walkpgdir vm a true = some next) : vm.Moves 0 next 0 := by
  obtain ⟨-, rfl⟩ | ⟨pgtab, kmem, hnone, hkalloc, rfl⟩ := walkpgdir_cases h
  · exact Vm.Moves.refl _ 0
  · have htaken := @Vm.Moves.of_kalloc vm kmem (kmem.memset pgtab 0 pgSize) pgtab hkalloc rfl
      fun _ ha ↦ if_neg ha
    refine ⟨?_, fun b _ _ ↦ walkpgdir_pte h b, htaken.kept⟩
    rw [← htaken.frames, add_zero]
    unfold Vm.frames
    rw [frames_setTable hnone]
    abel

section

variable (h : mapPage vm a pte = .ok (some next))

include h

theorem mapPage_moves (ha : a < heapLimit) : vm.Moves (pteFrames pte) next 0 := by
  obtain ⟨hnone, -⟩ | ⟨walked, hwalk, habsent, hsome⟩ := mapPage_cases h
  · cases hnone
  · cases hsome
    have hset := Vm.Moves.of_setPte pte (walkpgdir_hasTable hwalk) ha
    rw [walkpgdir_pte hwalk, pteFrames_of_absent habsent] at hset
    have hwalked := (walkpgdir_moves hwalk).frame (pteFrames pte)
    rw [zero_add] at hwalked
    exact hwalked.trans hset

theorem mapPage_frames_of_ge (ha : heapLimit ≤ a) (hword : a < Word.size) :
    next.frames = vm.frames := by
  obtain ⟨hnone, -⟩ | ⟨walked, hwalk, -, hsome⟩ := mapPage_cases h
  · cases hnone
  · cases hsome
    rw [← (walkpgdir_moves hwalk).frames_eq]
    unfold Vm.frames
    rw [frames_setPte_of_ge pte ha hword]

theorem mapPage_moves_of_ge (ha : kernBase ≤ a) (hword : a < Word.size) : vm.Moves 0 next 0 := by
  have hframes := mapPage_frames_of_ge h (le_trans (by decide) ha) hword
  obtain ⟨hnone, -⟩ | ⟨walked, hwalk, -, hsome⟩ := mapPage_cases h
  · cases hnone
  · cases hsome
    have hwalked := walkpgdir_moves hwalk
    refine ⟨by rw [hframes], hwalked.window.trans ?_, hwalked.kept⟩
    exact sameWindow_setPte pte hword (Or.inr ha)

end

theorem mappagesLoop_moves {perm : ℕ} {remaining : ℕ} {vm next : Vm} {a pa : ℕ} {ok : Bool}
    (ha : kernBase ≤ a) (hroom : a + remaining * pgSize ≤ Word.size)
    (h : mappagesLoop perm remaining vm a pa = .ok (next, ok)) : vm.Moves 0 next 0 := by
  induction remaining generalizing vm next a pa ok with
  | zero =>
    cases h
    exact Vm.Moves.refl _ 0
  | succ remaining ih =>
    rw [mappagesLoop] at h
    obtain ⟨result, hpage, hrest⟩ := bind_eq_ok.mp h
    have hword : a < Word.size := by
      unfold pgSize at hroom
      omega
    cases result with
    | none =>
      cases hrest
      exact Vm.Moves.refl _ 0
    | some mapped =>
      apply (mapPage_moves_of_ge hpage ha hword).trans
      cases remaining with
      | zero =>
        cases hrest
        exact Vm.Moves.refl _ 0
      | succ remaining =>
        have hnext : Word.add a pgSize = a + pgSize := by
          apply Word.add_eq
          unfold pgSize at *
          omega
        rw [hnext] at hrest
        apply ih _ _ hrest
        · omega
        · unfold pgSize at *
          omega

theorem mappages_moves {va mem perm : ℕ} {ok : Bool} (haligned : va % pgSize = 0)
    (hva : va < heapLimit) (hframe : IsFrame mem) (hperm : perm < pgSize)
    (h : mappages vm va pgSize (v2p mem) perm = .ok (next, ok)) :
    vm.Moves {mem} next (if ok then 0 else {mem}) := by
  rw [mappages_page haligned (lt_trans hva (by decide))] at h
  obtain ⟨result, hpage, hrest⟩ := bind_eq_ok.mp h
  cases result with
  | none =>
    cases hrest
    exact Vm.Moves.refl _ _
  | some mapped =>
    cases hrest
    have hmapped := mapPage_moves hpage hva
    rwa [pteFrames_entry hframe hperm] at hmapped

end Entering

/-- The first page of a row of the table of kernel mappings. -/
def Kmap.start (row : Kmap) : ℕ := pgRoundDown row.virt

/-- The number of pages `mappages` enters for a row. -/
def Kmap.count (row : Kmap) : ℕ :=
  let size := Word.sub row.physEnd row.physStart
  Word.sub (pgRoundDown (Word.sub (Word.add row.virt size) 1)) row.start / pgSize + 1

theorem kmap_rows : ∀ row ∈ kmap, kernBase ≤ row.start ∧
    row.start + row.count * pgSize ≤ Word.size := by
  decide

theorem setupkvmLoop_moves {rows : List Kmap} {vm next : Vm} {ok : Bool}
    (hrows : ∀ row ∈ rows, kernBase ≤ row.start ∧ row.start + row.count * pgSize ≤ Word.size)
    (h : setupkvmLoop rows vm = .ok (next, ok)) : vm.Moves 0 next 0 := by
  induction rows generalizing vm next ok with
  | nil =>
    cases h
    exact Vm.Moves.refl _ 0
  | cons row rows ih =>
    rw [setupkvmLoop] at h
    obtain ⟨⟨mapped, okRow⟩, hmap, hrest⟩ := bind_eq_ok.mp h
    obtain ⟨hstart, hroom⟩ := hrows row List.mem_cons_self
    have hrow : vm.Moves 0 mapped 0 := mappagesLoop_moves hstart hroom hmap
    cases okRow with
    | true =>
      exact hrow.trans (ih (fun other hother ↦ hrows other (List.mem_cons_of_mem row hother)) hrest)
    | false =>
      cases hrest
      exact hrow

namespace Pgdir

/-- What the hardware sees of a page: its entry, if it is present. -/
def translate (pgdir : Pgdir) (va : ℕ) : Option ℕ :=
  if isPresent (pgdir.pte va) then some (pgdir.pte va) else none

variable {pgdir other : Pgdir} {va : ℕ}

theorem translate_of_absent (h : isPresent (pgdir.pte va) = false) : pgdir.translate va = none := by
  rw [translate, if_neg (by simp [h])]

theorem translate_of_present (h : isPresent (pgdir.pte va) = true) :
    pgdir.translate va = some (pgdir.pte va) := by
  rw [translate, if_pos h]

theorem translate_congr (h : other.pte va = pgdir.pte va) :
    other.translate va = pgdir.translate va := by
  rw [translate, translate, h]

theorem isPresent_eq_isSome (pgdir : Pgdir) (va : ℕ) :
    isPresent (pgdir.pte va) = (pgdir.translate va).isSome := by
  unfold translate
  cases isPresent (pgdir.pte va) <;> rfl

theorem isPresent_congr (h : other.translate va = pgdir.translate va) :
    isPresent (other.pte va) = isPresent (pgdir.pte va) := by
  rw [isPresent_eq_isSome, isPresent_eq_isSome, h]

theorem userFrames_of_translate (h : ∀ va < heapLimit, other.translate va = pgdir.translate va) :
    other.userFrames = pgdir.userFrames := by
  unfold userFrames
  apply Finset.sum_congr rfl
  intro page hpage
  rw [Finset.mem_range] at hpage
  have hva : page * pgSize < heapLimit := by
    unfold heapLimit pgSize at *
    omega
  have hsame := h _ hva
  have hpresent := isPresent_congr hsame
  cases hpte : isPresent (pgdir.pte (page * pgSize)) with
  | false => rw [pteFrames_of_absent hpte, pteFrames_of_absent (hpresent.trans hpte)]
  | true =>
    rw [translate_of_present hpte, translate_of_present (hpresent.trans hpte)] at hsame
    rw [Option.some.inj hsame]

end Pgdir

/-- The jump over an absent page table leads to the next directory entry. -/
theorem dealloc_jump {a : ℕ} (ha : a < kernBase) :
    Word.add (Word.sub (pgAddr (pdx a + 1)) pgSize) pgSize = (a / 2 ^ 22 + 1) * 2 ^ 22 := by
  have hpdx : pdx a = a / 2 ^ 22 := by
    rw [pdx_eq]
    unfold kernBase at ha
    omega
  have hsmall : a / 2 ^ 22 < 512 := by
    unfold kernBase at ha
    omega
  rw [hpdx, pgAddr_eq (by omega), Word.sub_eq, Word.add_eq]
  · unfold pgSize
    omega
  · unfold pgSize Word.size
    omega
  · unfold pgSize
    omega
  · unfold Word.size
    omega

/-- The pages that cover the bytes from the first whole page behind `oldsz` to `newsz`. -/
def pagesBetween (oldsz newsz : ℕ) : ℕ := (newsz - pgRoundUp oldsz + (pgSize - 1)) / pgSize

/-- The pages from `a` on are visited one after the other, and those that are present released. -/
def releasePages : ℕ → Vm → ℕ → Except Fault Vm
  | 0, vm, _ => pure vm
  | count + 1, vm, a =>
    if isPresent (vm.pgdir.pte a) then
      if pteAddr (vm.pgdir.pte a) = 0 then .error (.panic "kfree")
      else do
        let kmem ← vm.kmem.kfree (p2v (pteAddr (vm.pgdir.pte a)))
        releasePages count ⟨kmem, vm.pgdir.setPte a 0⟩ (a + pgSize)
    else releasePages count vm (a + pgSize)

section Releasing

variable {vm next : Vm} {oldsz newsz sz fuel count a : ℕ}

theorem releasePages_absent {passed : ℕ}
    (habsent : ∀ k < passed, isPresent (vm.pgdir.pte (a + k * pgSize)) = false) :
    releasePages (passed + count) vm a = releasePages count vm (a + passed * pgSize) := by
  induction passed generalizing a with
  | zero => rw [Nat.zero_add, Nat.zero_mul, Nat.add_zero]
  | succ passed ih =>
    have hfirst := habsent 0 (Nat.succ_pos passed)
    have hnext (k : ℕ) : a + pgSize + k * pgSize = a + (k + 1) * pgSize := by
      rw [Nat.succ_mul, Nat.add_right_comm, Nat.add_assoc]
    rw [Nat.zero_mul, Nat.add_zero] at hfirst
    rw [Nat.succ_add, releasePages, hfirst, if_neg Bool.false_ne_true, ih fun k hk ↦ ?_, hnext]
    rw [hnext]
    exact habsent (k + 1) (Nat.succ_lt_succ hk)

/-- The jump over an absent page table leaves out pages that are not present. -/
theorem deallocuvmLoop_eq (hold : oldsz ≤ kernBase) (haligned : a % pgSize = 0)
    (hroom : oldsz ≤ a + fuel * pgSize) : deallocuvmLoop oldsz fuel vm a =
      releasePages ((oldsz - a + (pgSize - 1)) / pgSize) vm a := by
  have hdone (b : ℕ) (hb : oldsz ≤ b) : (oldsz - b + (pgSize - 1)) / pgSize = 0 := by
    rw [Nat.sub_eq_zero_of_le hb]
    decide
  induction fuel generalizing vm a with
  | zero =>
    rw [Nat.zero_mul, Nat.add_zero] at hroom
    rw [deallocuvmLoop, if_neg (Nat.not_lt.mpr hroom), hdone a hroom, releasePages]
  | succ fuel ih =>
    rw [deallocuvmLoop]
    by_cases ha : a < oldsz
    · have hnext : Word.add a pgSize = a + pgSize := by
        apply Word.add_eq
        unfold pgSize Word.size kernBase at *
        omega
      have hcount : (oldsz - a + (pgSize - 1)) / pgSize =
          (oldsz - (a + pgSize) + (pgSize - 1)) / pgSize + 1 := by
        unfold pgSize
        omega
      have haligned' : (a + pgSize) % pgSize = 0 := by rw [Nat.add_mod_right, haligned]
      have hrest (vm : Vm) := @ih vm (a + pgSize) haligned' (by rw [Nat.succ_mul] at hroom; omega)
      rw [if_pos ha, hnext, dealloc_jump (ha.trans_le hold)]
      by_cases htable : vm.pgdir.hasTable a = true
      · rw [if_pos htable, hcount, releasePages]
        simp only [hrest]
      · -- the pages up to the next directory entry have no page table
        have hpassed : ∀ k, a + k * pgSize < (a / 2 ^ 22 + 1) * 2 ^ 22 →
            isPresent (vm.pgdir.pte (a + k * pgSize)) = false := by
          intro k hk
          have hsame : pdx (a + k * pgSize) = pdx a := by
            rw [pdx_eq, pdx_eq]
            omega
          have hnone : vm.pgdir.hasTable (a + k * pgSize) = false := by
            unfold hasTable at *
            rw [hsame]
            simpa using htable
          rw [pte_of_not_hasTable hnone, isPresent_zero]
        rw [if_neg htable, ih (by unfold pgSize; omega) (by unfold pgSize at *; omega)]
        rcases Nat.lt_or_ge ((a / 2 ^ 22 + 1) * 2 ^ 22) oldsz with hbefore | hbehind
        · have hsplit : (oldsz - a + (pgSize - 1)) / pgSize =
              ((a / 2 ^ 22 + 1) * 2 ^ 22 - a) / pgSize +
                (oldsz - (a / 2 ^ 22 + 1) * 2 ^ 22 + (pgSize - 1)) / pgSize := by
            unfold pgSize at *
            omega
          have hjump : a + ((a / 2 ^ 22 + 1) * 2 ^ 22 - a) / pgSize * pgSize =
              (a / 2 ^ 22 + 1) * 2 ^ 22 := by
            unfold pgSize at *
            omega
          rw [hsplit, releasePages_absent fun k hk ↦ hpassed k (by unfold pgSize at *; omega), hjump]
        · rw [hdone _ hbehind, releasePages, ← Nat.add_zero ((oldsz - a + (pgSize - 1)) / pgSize),
            releasePages_absent fun k hk ↦ hpassed k (by unfold pgSize at *; omega), releasePages]
    · rw [if_neg ha, hdone a (Nat.not_lt.mp ha), releasePages]

theorem pgRoundUp_aligned (h : sz + pgSize ≤ Word.size) : pgRoundUp sz % pgSize = 0 := by
  rw [pgRoundUp_eq h]
  exact Nat.mul_mod_left _ _

theorem pgRoundUp_spec (h : sz ≤ kernBase) :
    pgRoundUp sz % pgSize = 0 ∧ sz ≤ pgRoundUp sz ∧ pgRoundUp sz < sz + pgSize := by
  have hroom : sz + pgSize ≤ Word.size := by
    unfold kernBase at h
    unfold pgSize Word.size
    omega
  refine ⟨pgRoundUp_aligned hroom, ?_⟩
  rw [pgRoundUp_eq hroom]
  unfold pgSize
  omega

theorem pagesBetween_room (hle : newsz ≤ oldsz) (hold : oldsz ≤ kernBase) :
    pgRoundUp newsz + pagesBetween newsz oldsz * pgSize < oldsz + pgSize ∧
      oldsz ≤ pgRoundUp newsz + pagesBetween newsz oldsz * pgSize := by
  obtain ⟨-, hup, hdown⟩ := pgRoundUp_spec (hle.trans hold)
  unfold pagesBetween pgSize at *
  omega

/-- `deallocuvm` visits every page between the sizes. -/
theorem deallocuvm_eq (hold : oldsz ≤ kernBase) (hlt : newsz < oldsz) :
    deallocuvm vm oldsz newsz = (do
      let next ← releasePages (pagesBetween newsz oldsz) vm (pgRoundUp newsz)
      pure (next, newsz)) := by
  obtain ⟨haligned, -, -⟩ := pgRoundUp_spec (hlt.le.trans hold)
  rw [deallocuvm, if_neg (Nat.not_le.mpr hlt), deallocuvmLoop_eq hold haligned]
  · rfl
  · unfold kernBase pgSize at *
    omega

theorem releasePages_cases (h : releasePages (count + 1) vm a = .ok next) :
    (∃ kmem, isPresent (vm.pgdir.pte a) = true ∧ vm.pgdir.hasTable a = true ∧
        vm.kmem.kfree (p2v (pteAddr (vm.pgdir.pte a))) = .ok kmem ∧
        releasePages count ⟨kmem, vm.pgdir.setPte a 0⟩ (a + pgSize) = .ok next) ∨
      isPresent (vm.pgdir.pte a) = false ∧ releasePages count vm (a + pgSize) = .ok next := by
  rw [releasePages] at h
  split at h
  · rename_i hpresent
    split at h
    · cases h
    · obtain ⟨kmem, hkfree, hrest⟩ := bind_eq_ok.mp h
      refine Or.inl ⟨kmem, hpresent, ?_, hkfree, hrest⟩
      by_contra hmissing
      rw [pte_of_not_hasTable (Bool.eq_false_iff.mpr hmissing), isPresent_zero] at hpresent
      cases hpresent
  · rename_i habsent
    exact Or.inr ⟨Bool.eq_false_iff.mpr habsent, h⟩

section

variable (h : releasePages count vm a = .ok next)

include h

theorem releasePages_moves (hbelow : a + count * pgSize < heapLimit + pgSize) :
    vm.Moves 0 next 0 := by
  induction count generalizing vm a with
  | zero =>
    cases h
    exact Vm.Moves.refl _ 0
  | succ count ih =>
    have hrest : a + pgSize + count * pgSize < heapLimit + pgSize := by
      rwa [Nat.add_assoc, Nat.add_comm pgSize, ← Nat.succ_mul]
    obtain ⟨kmem, hpresent, htable, hkfree, h⟩ | ⟨-, h⟩ := releasePages_cases h
    · have hset := Vm.Moves.of_setPte 0 htable (show a < heapLimit by omega)
      rw [pteFrames_zero, pteFrames_of_present hpresent] at hset
      exact hset.trans
        ((@Vm.Moves.of_kfree ⟨vm.kmem, vm.pgdir.setPte a 0⟩ kmem _ hkfree).trans (ih h hrest))
    · exact ih h hrest

theorem releasePages_tablePages : next.pgdir.tablePages = vm.pgdir.tablePages := by
  induction count generalizing vm a with
  | zero =>
    cases h
    rfl
  | succ count ih =>
    obtain ⟨kmem, -, -, -, h⟩ | ⟨-, h⟩ := releasePages_cases h
    · exact (ih h).trans (tablePages_setPte _ _ _)
    · exact ih h

theorem releasePages_pte (hroom : a + count * pgSize ≤ Word.size) {b : ℕ} (hb : b < Word.size) :
    next.pgdir.pte b =
      if (a / pgSize ≤ b / pgSize ∧ b / pgSize < a / pgSize + count) ∧
        isPresent (vm.pgdir.pte b) = true then 0 else vm.pgdir.pte b := by
  induction count generalizing vm a with
  | zero =>
    cases h
    rw [if_neg (by omega)]
  | succ count ih =>
    have hrest : a + pgSize + count * pgSize ≤ Word.size := by
      rwa [Nat.add_assoc, Nat.add_comm pgSize, ← Nat.succ_mul]
    have hword : a < Word.size := lt_of_lt_of_le (Nat.lt_add_of_pos_right (by decide : 0 < pgSize))
      ((Nat.le_add_right _ _).trans hrest)
    have hpage : (a + pgSize) / pgSize = a / pgSize + 1 := Nat.add_div_right a (by decide)
    obtain ⟨kmem, hpresent, htable, -, h⟩ | ⟨habsent, h⟩ := releasePages_cases h
    · rw [ih h hrest, hpage]
      by_cases hsame : b / pgSize = a / pgSize
      · have hcleared : (vm.pgdir.setPte a 0).pte b = 0 := by
          rw [pte_congr hsame]
          exact pte_setPte_self htable 0
        rw [if_neg (by omega), if_pos ⟨by omega, by rwa [pte_congr hsame]⟩]
        exact hcleared
      · rw [pte_setPte_of_ne hword hb hsame 0]
        exact if_congr (and_congr_left fun _ ↦ by omega) rfl rfl
    · rw [ih h hrest, hpage]
      by_cases hsame : b / pgSize = a / pgSize
      · rw [pte_congr hsame, habsent, if_neg (by simp), if_neg (by simp)]
      · exact if_congr (and_congr_left fun _ ↦ by omega) rfl rfl

end

theorem deallocuvm_cases (hold : oldsz ≤ kernBase)
    (h : deallocuvm vm oldsz newsz = .ok (next, sz)) :
    (oldsz ≤ newsz ∧ next = vm ∧ sz = oldsz) ∨ (newsz < oldsz ∧ sz = newsz ∧
      releasePages (pagesBetween newsz oldsz) vm (pgRoundUp newsz) = .ok next) := by
  rcases Nat.lt_or_ge newsz oldsz with hlt | hle
  · rw [deallocuvm_eq hold hlt] at h
    obtain ⟨result, hloop, hrest⟩ := bind_eq_ok.mp h
    cases hrest
    exact Or.inr ⟨hlt, rfl, hloop⟩
  · rw [deallocuvm, if_pos hle] at h
    cases h
    exact Or.inl ⟨hle, rfl, rfl⟩

theorem deallocuvm_moves (hold : oldsz ≤ heapLimit)
    (h : deallocuvm vm oldsz newsz = .ok (next, sz)) : vm.Moves 0 next 0 := by
  obtain ⟨-, rfl, -⟩ | ⟨hlt, -, hloop⟩ := deallocuvm_cases (hold.trans (by decide)) h
  · exact Vm.Moves.refl _ 0
  · have hroom := (pagesBetween_room hlt.le (hold.trans (by decide))).1
    exact releasePages_moves hloop (by omega)

theorem deallocuvm_tablePages (hold : oldsz ≤ kernBase)
    (h : deallocuvm vm oldsz newsz = .ok (next, sz)) :
    next.pgdir.tablePages = vm.pgdir.tablePages := by
  obtain ⟨-, rfl, -⟩ | ⟨-, -, hloop⟩ := deallocuvm_cases hold h
  · rfl
  · exact releasePages_tablePages hloop

theorem deallocuvm_size (hold : oldsz ≤ heapLimit)
    (h : deallocuvm vm oldsz newsz = .ok (next, sz)) : sz = min oldsz newsz := by
  obtain ⟨hle, -, rfl⟩ | ⟨hlt, rfl, -⟩ := deallocuvm_cases (hold.trans (by decide)) h
  · exact (Nat.min_eq_left hle).symm
  · exact (Nat.min_eq_right hlt.le).symm

theorem deallocuvm_pte (hold : oldsz ≤ kernBase) (hlt : newsz < oldsz)
    (h : deallocuvm vm oldsz newsz = .ok (next, sz)) {b : ℕ} (hb : b < Word.size) :
    next.pgdir.pte b =
      if (pgRoundUp newsz ≤ b / pgSize * pgSize ∧ b / pgSize * pgSize < oldsz) ∧
        isPresent (vm.pgdir.pte b) = true then 0 else vm.pgdir.pte b := by
  obtain ⟨hle, -⟩ | ⟨-, -, hloop⟩ := deallocuvm_cases hold h
  · exact absurd hle (Nat.not_le.mpr hlt)
  obtain ⟨haligned, -, -⟩ := pgRoundUp_spec (hlt.le.trans hold)
  have hroom := pagesBetween_room hlt.le hold
  rw [releasePages_pte hloop (by unfold kernBase pgSize Word.size at *; omega) hb]
  refine if_congr (and_congr_left fun _ ↦ ?_) rfl rfl
  unfold pgSize at *
  omega

theorem deallocuvm_translate (hold : oldsz ≤ heapLimit) (hlt : newsz < oldsz)
    (h : deallocuvm vm oldsz newsz = .ok (next, sz)) {b : ℕ} (hb : b < Word.size) :
    next.pgdir.translate b =
      if pgRoundUp newsz ≤ b ∧ b / pgSize * pgSize < oldsz then none
      else vm.pgdir.translate b := by
  have hlimit : oldsz ≤ kernBase := hold.trans (by decide)
  obtain ⟨haligned, -, -⟩ := pgRoundUp_spec (hlt.le.trans hlimit)
  have hpte := deallocuvm_pte hlimit hlt h hb
  split
  · rename_i hin
    have hpage : pgRoundUp newsz ≤ b / pgSize * pgSize ∧ b / pgSize * pgSize < oldsz := by
      unfold pgSize at *
      omega
    apply translate_of_absent
    rw [hpte]
    split
    · exact isPresent_zero
    · rename_i habsent
      exact Bool.eq_false_iff.mpr fun hpresent ↦ habsent ⟨hpage, hpresent⟩
  · rename_i hout
    apply translate_congr
    rw [hpte, if_neg fun hin ↦ hout ⟨?_, hin.1.2⟩]
    exact hin.1.1.trans (Nat.div_mul_le_self b pgSize)

end Releasing

section Freevm

variable {vm : Vm} {kmem : Kmem}

theorem freeTables_freelist {pgdir : Pgdir} {count : ℕ} {next : Kmem}
    (h : freeTables pgdir kmem count = .ok next) :
    ∃ released, released = ∑ index ∈ Finset.range count, tableFrames (pgdir.tables index) ∧
      (next.freelist : Multiset ℕ) = released + (kmem.freelist : Multiset ℕ) ∧ ∀ a, (∀ v ∈ released,
      ¬ InPage v a) → next.bytes a = kmem.bytes a := by
  induction count generalizing next with
  | zero =>
    cases h
    exact ⟨0, by simp, by simp, fun _ _ ↦ rfl⟩
  | succ index ih =>
    rw [freeTables] at h
    obtain ⟨freed, hloop, hrest⟩ := bind_eq_ok.mp h
    obtain ⟨released, hreleased, hlist, hkept⟩ := ih hloop
    rw [Finset.sum_range_succ, ← hreleased]
    cases htable : pgdir.tables index with
    | none =>
      rw [htable] at hrest
      cases hrest
      exact ⟨released, by rw [tableFrames_none, add_zero], hlist, hkept⟩
    | some table =>
      rw [htable] at hrest
      refine ⟨_, rfl, ?_, fun a ha ↦ ?_⟩
      · rw [tableFrames_some, freelist_of_kfree hrest, hlist]
        abel
      · rw [bytes_of_kfree hrest (ha _ (Multiset.mem_add.mpr (Or.inr (by simp)))),
          hkept a fun v hv ↦ ha v (Multiset.mem_add.mpr (Or.inl hv))]

/-- Releasing an address space frees all its pages, each once, and writes nothing else. -/
theorem freevm_freelist (h : freevm vm = .ok kmem) : (kmem.freelist : Multiset ℕ) = vm.frames ∧
      ∀ a, (∀ v ∈ vm.frames, ¬ InPage v a) → kmem.bytes a = vm.kmem.bytes a := by
  obtain ⟨⟨cleared, sz⟩, hdealloc, hrest⟩ := bind_eq_ok.mp h
  obtain ⟨freed, htables, hkfree⟩ := bind_eq_ok.mp hrest
  have hmoves := deallocuvm_moves le_rfl hdealloc
  obtain ⟨released, hreleased, hlist, hkept⟩ := freeTables_freelist htables
  have huser : cleared.pgdir.userFrames = 0 := by
    unfold userFrames
    apply Finset.sum_eq_zero
    intro page hpage
    rw [Finset.mem_range] at hpage
    apply pteFrames_of_absent
    rw [isPresent_eq_isSome, deallocuvm_translate le_rfl (by decide) hdealloc, if_pos]
    · rfl
    · unfold heapLimit pgSize at *
      exact ⟨Nat.zero_le _, by omega⟩
    · unfold heapLimit pgSize Word.size at *
      omega
  have hframes : cleared.frames = (freed.freelist : Multiset ℕ) + {cleared.pgdir.page} := by
    rw [hlist, hreleased]
    unfold Vm.frames frames tablePages
    rw [huser]
    abel
  refine ⟨?_, fun a ha ↦ ?_⟩
  · rw [← hmoves.frames_eq, hframes, freelist_of_kfree hkfree, add_comm]
  · have hkept' := hmoves.kept a (by rwa [add_zero])
    rw [← hmoves.frames_eq, hframes, hlist] at ha
    simp only [Multiset.mem_add, Multiset.mem_singleton] at ha
    rw [← hkept', bytes_of_kfree hkfree (ha _ (Or.inr rfl)),
      hkept a fun v hv ↦ ha v (Or.inl (Or.inl hv))]

end Freevm

/-- The pages of an address space that may not have been built. -/
def builtFrames (pgdir : Option Pgdir) : Multiset ℕ := (pgdir.map frames).getD 0

@[simp] theorem builtFrames_none : builtFrames none = 0 := rfl

@[simp] theorem builtFrames_some (pgdir : Pgdir) : builtFrames (some pgdir) = pgdir.frames := rfl

theorem frames_empty (page : ℕ) : frames ⟨page, fun _ ↦ none⟩ = {page} := by
  have hpte (va : ℕ) : pte ⟨page, fun _ ↦ none⟩ va = 0 := rfl
  unfold frames tablePages userFrames
  simp [hpte]

/-- An address space has been built from free pages, or the pages are free again; nothing else was
written, and the window is empty. -/
structure Kmem.Builds (kmem next : Kmem) (pgdir : Option Pgdir) : Prop where
  freelist : (kmem.freelist : Multiset ℕ) = (next.freelist : Multiset ℕ) + builtFrames pgdir
  kept : ∀ a, (∀ v ∈ kmem.freelist, ¬ InPage v a) → next.bytes a = kmem.bytes a
  window : ∀ built, pgdir = some built → built.EmptyWindow

section Building

variable {kmem next : Kmem} {pgdir : Option Pgdir} {vm : Vm}

theorem Kmem.Builds.of_outcome {ok : Bool} (hframes : vm.frames = (kmem.freelist : Multiset ℕ))
    (hkept : ∀ a, (∀ v ∈ kmem.freelist, ¬ InPage v a) → vm.kmem.bytes a = kmem.bytes a)
    (hwindow : vm.pgdir.EmptyWindow) (h : (if ok then pure (vm.kmem, some vm.pgdir) else do
      let kmem ← freevm vm
      pure (kmem, none)) = Except.ok (next, pgdir)) : kmem.Builds next pgdir := by
  cases ok with
  | true =>
    cases h
    refine ⟨hframes.symm, hkept, fun built hbuilt ↦ ?_⟩
    cases hbuilt
    exact hwindow
  | false =>
    obtain ⟨freed, hfree, hpure⟩ := bind_eq_ok.mp h
    cases hpure
    obtain ⟨hlist, hfreed⟩ := freevm_freelist hfree
    refine ⟨?_, fun a ha ↦ ?_, fun built hbuilt ↦ by cases hbuilt⟩
    · rw [hlist, hframes, builtFrames_none, add_zero]
    · rw [hfreed a (by rwa [hframes]), hkept a ha]

theorem setupkvm_start {page : ℕ} {rest : Kmem} {ok : Bool}
    (hkalloc : kmem.kalloc = some (page, rest))
    (hloop : setupkvmLoop kmap ⟨rest.memset page 0 pgSize, ⟨page, fun _ ↦ none⟩⟩ = .ok (vm, ok)) :
    vm.frames = (kmem.freelist : Multiset ℕ) ∧
      (∀ a, (∀ v ∈ kmem.freelist, ¬ InPage v a) → vm.kmem.bytes a = kmem.bytes a) ∧
      vm.pgdir.EmptyWindow := by
  have hmoves := setupkvmLoop_moves kmap_rows hloop
  have hstart : Vm.frames ⟨rest.memset page 0 pgSize, ⟨page, fun _ ↦ none⟩⟩ =
      (kmem.freelist : Multiset ℕ) := by
    rw [Vm.frames, frames_empty, freelist_of_kalloc hkalloc, memset_freelist, add_comm]
  refine ⟨hmoves.frames_eq.trans hstart, fun a ha ↦ ?_, hmoves.window.empty fun _ _ _ ↦ rfl⟩
  rw [hmoves.kept a (by rwa [add_zero, hstart]), ← (kalloc_eq_some.mp hkalloc).2]
  refine if_neg (ha page ?_)
  rw [(kalloc_eq_some.mp hkalloc).1]
  exact List.mem_cons_self

theorem setupkvm_builds (h : setupkvm kmem = .ok (next, pgdir)) : kmem.Builds next pgdir := by
  unfold setupkvm at h
  cases hkalloc : kmem.kalloc with
  | none =>
    rw [hkalloc] at h
    cases h
    exact ⟨by simp, fun _ _ ↦ rfl, fun built hbuilt ↦ by cases hbuilt⟩
  | some pair =>
    obtain ⟨page, rest⟩ := pair
    rw [hkalloc] at h
    dsimp only at h
    rw [if_neg (by decide)] at h
    obtain ⟨⟨vm, ok⟩, hloop, hrest⟩ := bind_eq_ok.mp h
    obtain ⟨hframes, hkept, hwindow⟩ := setupkvm_start hkalloc hloop
    exact Kmem.Builds.of_outcome hframes hkept hwindow hrest

end Building

theorem next_page {a remaining limit : ℕ} (hlimit : limit < heapLimit) (haligned : a % pgSize = 0)
    (hroom : a + (remaining + 1) * pgSize < limit + pgSize) :
    a < limit ∧ Word.add a pgSize = a + pgSize ∧ (a + pgSize) % pgSize = 0 ∧
      a + pgSize + remaining * pgSize < limit + pgSize := by
  have ha : a < limit := by
    unfold pgSize at hroom
    omega
  refine ⟨ha, Word.add_eq ?_, ?_, ?_⟩
  · unfold heapLimit at hlimit
    unfold pgSize Word.size
    omega
  · rw [Nat.add_mod_right]
    exact haligned
  · rw [Nat.succ_mul] at hroom
    omega

section Filling

variable {vm next : Vm} {a : ℕ} {ok : Bool}

theorem mappages_moves_of_kalloc {kmem filled : Kmem} {mem perm : ℕ}
    (hkalloc : vm.kmem.kalloc = some (mem, kmem))
    (h : mappages ⟨filled, vm.pgdir⟩ a pgSize (v2p mem) perm = .ok (next, ok))
    (hlist : filled.freelist = kmem.freelist)
    (hkept : ∀ a, ¬ InPage mem a → filled.bytes a = kmem.bytes a) (haligned : a % pgSize = 0)
    (ha : a < heapLimit) (hperm : perm < pgSize) :
    vm.Moves 0 next (if ok then 0 else {mem}) :=
  (Vm.Moves.of_kalloc hkalloc hlist hkept).trans
    (mappages_moves haligned ha (isFrame_of_kalloc hkalloc) hperm h)

theorem allocuvmLoop_moves {oldsz newsz : ℕ} (hnew : newsz < heapLimit) {remaining : ℕ}
    {vm next : Vm} {a : ℕ} {ok : Bool} (haligned : a % pgSize = 0)
    (hroom : a + remaining * pgSize < newsz + pgSize)
    (h : allocuvmLoop oldsz newsz remaining vm a = .ok (next, ok)) : vm.Moves 0 next 0 := by
  induction remaining generalizing vm next a ok with
  | zero =>
    cases h
    exact Vm.Moves.refl _ 0
  | succ remaining ih =>
    obtain ⟨ha, hnext, hnextAligned, hnextRoom⟩ := next_page hnew haligned hroom
    rw [allocuvmLoop, hnext] at h
    cases hkalloc : vm.kmem.kalloc with
    | none =>
      rw [hkalloc] at h
      obtain ⟨⟨freed, sz⟩, hdealloc, hpure⟩ := bind_eq_ok.mp h
      cases hpure
      exact deallocuvm_moves hnew.le hdealloc
    | some pair =>
      obtain ⟨mem, kmem⟩ := pair
      rw [hkalloc] at h
      obtain ⟨⟨mapped, okPage⟩, hmap, hrest⟩ := bind_eq_ok.mp h
      have hpage := mappages_moves_of_kalloc hkalloc hmap rfl (fun _ ha ↦ if_neg ha) haligned
        (ha.trans hnew) (by decide)
      cases okPage with
      | true => exact hpage.trans (ih hnextAligned hnextRoom hrest)
      | false =>
        obtain ⟨⟨freed, sz⟩, hdealloc, hlast⟩ := bind_eq_ok.mp hrest
        obtain ⟨kmem', hkfree, hpure⟩ := bind_eq_ok.mp hlast
        cases hpure
        have hfreed := (deallocuvm_moves hnew.le hdealloc).frame {mem}
        rw [zero_add] at hfreed
        exact (hpage.trans hfreed).trans (Vm.Moves.of_kfree hkfree)

theorem allocuvm_moves {oldsz newsz sz : ℕ} (h : allocuvm vm oldsz newsz = .ok (next, sz)) :
    vm.Moves 0 next 0 := by
  unfold allocuvm at h
  split at h
  · cases h
    exact Vm.Moves.refl _ 0
  · rename_i hlimit
    split at h
    · cases h
      exact Vm.Moves.refl _ 0
    · rename_i hgrow
      obtain ⟨⟨grown, ok⟩, hloop, hpure⟩ := bind_eq_ok.mp h
      cases hpure
      have hold : oldsz + pgSize ≤ Word.size := by
        unfold heapLimit pgSize Word.size at *
        omega
      apply allocuvmLoop_moves (Nat.not_le.mp hlimit) (pgRoundUp_aligned hold) _ hloop
      rw [pgRoundUp_eq hold]
      unfold pgSize
      omega

/-- `allocuvm` returns zero, or the larger size if the new one is below `HEAPLIMIT`. -/
theorem allocuvm_size {oldsz newsz sz : ℕ} (h : allocuvm vm oldsz newsz = .ok (next, sz)) :
    sz = 0 ∨ sz = max oldsz newsz ∧ newsz < heapLimit := by
  unfold allocuvm at h
  split at h
  · cases h
    exact Or.inl rfl
  · rename_i hlimit
    split at h
    · rename_i hshrink
      cases h
      exact Or.inr ⟨(Nat.max_eq_left hshrink.le).symm, Nat.not_le.mp hlimit⟩
    · rename_i hgrow
      obtain ⟨⟨grown, ok⟩, hloop, hpure⟩ := bind_eq_ok.mp h
      cases hpure
      split
      · exact Or.inr ⟨(Nat.max_eq_right (Nat.not_lt.mp hgrow)).symm, Nat.not_le.mp hlimit⟩
      · exact Or.inl rfl

theorem pteFlags_lt (pte : ℕ) : pteFlags pte < pgSize :=
  lt_of_le_of_lt Nat.and_le_right (by decide)

theorem copyuvmLoop_moves {parent : Pgdir} {sz : ℕ} (hsz : sz < heapLimit) {remaining : ℕ}
    {vm next : Vm} {i : ℕ} {ok : Bool} (haligned : i % pgSize = 0)
    (hroom : i + remaining * pgSize < sz + pgSize)
    (h : copyuvmLoop parent remaining vm i = .ok (next, ok)) : vm.Moves 0 next 0 := by
  induction remaining generalizing vm next i ok with
  | zero =>
    cases h
    exact Vm.Moves.refl _ 0
  | succ remaining ih =>
    obtain ⟨hi, hnext, hnextAligned, hnextRoom⟩ := next_page hsz haligned hroom
    rw [copyuvmLoop, hnext] at h
    split at h
    · cases h
    · split at h
      · cases h
      · cases hkalloc : vm.kmem.kalloc with
        | none =>
          rw [hkalloc] at h
          cases h
          exact Vm.Moves.refl _ 0
        | some pair =>
          obtain ⟨mem, kmem⟩ := pair
          rw [hkalloc] at h
          obtain ⟨⟨mapped, okPage⟩, hmap, hrest⟩ := bind_eq_ok.mp h
          have hpage := mappages_moves_of_kalloc hkalloc hmap rfl (fun _ ha ↦ if_neg ha) haligned
            (hi.trans hsz) (pteFlags_lt _)
          cases okPage with
          | true => exact hpage.trans (ih hnextAligned hnextRoom hrest)
          | false =>
            obtain ⟨kmem', hkfree, hpure⟩ := bind_eq_ok.mp hrest
            cases hpure
            exact hpage.trans (Vm.Moves.of_kfree hkfree)

theorem copyuvm_room (sz : ℕ) : 0 + (sz + (pgSize - 1)) / pgSize * pgSize < sz + pgSize := by
  unfold pgSize
  omega

/-- `fork` copies the pages below the parent's size and nothing of its window. -/
theorem copyuvm_builds {kmem next : Kmem} {parent : Pgdir} {sz : ℕ} {pgdir : Option Pgdir}
    (hsz : sz < heapLimit) (h : copyuvm kmem parent sz = .ok (next, pgdir)) :
    kmem.Builds next pgdir := by
  obtain ⟨⟨base, empty⟩, hsetup, hrest⟩ := bind_eq_ok.mp h
  have hbase := setupkvm_builds hsetup
  cases empty with
  | none =>
    cases hrest
    exact hbase
  | some d =>
    obtain ⟨⟨copied, ok⟩, hloop, hlast⟩ := bind_eq_ok.mp hrest
    have hmoves := copyuvmLoop_moves hsz (by decide) (copyuvm_room sz) hloop
    have hframes : Vm.frames ⟨base, d⟩ = (kmem.freelist : Multiset ℕ) := by
      rw [hbase.freelist, builtFrames_some, Vm.frames]
    refine Kmem.Builds.of_outcome (hmoves.frames_eq.trans hframes) (fun a ha ↦ ?_)
      (hmoves.window.empty (hbase.window d rfl)) hlast
    rw [hmoves.kept a (by rwa [add_zero, hframes]), hbase.kept a ha]

end Filling

end Xv6Shm
