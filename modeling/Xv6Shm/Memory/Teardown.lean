import Xv6Shm.Memory.Frames

/-!
# Releasing an address space

`freevm` of an address space whose directory, page tables and private pages are pages of the
allocator returns. It only gives pages back, so what it has passed to `kfree` is what the free list
has got in front: the pages of the address space, each once, and nothing that is mapped from
`HEAPLIMIT` on.
-/

namespace Xv6Shm

open Fallible

namespace Pgdir

variable {pgdir : Pgdir} {v : ℕ}

theorem mem_userFrames : v ∈ pgdir.userFrames ↔
      ∃ page < heapLimit / pgSize, v ∈ pteFrames (pgdir.pte (page * pgSize)) := by
  unfold userFrames
  generalize heapLimit / pgSize = bound
  simp only [Multiset.mem_sum, Finset.mem_range]

theorem mem_tablePages : v ∈ pgdir.tablePages ↔
      v = pgdir.page ∨ ∃ index < npdEntries, v ∈ tableFrames (pgdir.tables index) := by
  unfold tablePages
  generalize npdEntries = bound
  simp only [Multiset.mem_add, Multiset.mem_singleton, Multiset.mem_sum, Finset.mem_range]

theorem mem_frames : v ∈ pgdir.frames ↔ v ∈ pgdir.tablePages ∨ v ∈ pgdir.userFrames := by
  rw [frames, Multiset.mem_add]

theorem mem_userFrames_of_present {va : ℕ} (hva : va < heapLimit)
    (hpresent : isPresent (pgdir.pte va) = true) :
    p2v (pteAddr (pgdir.pte va)) ∈ pgdir.userFrames := by
  have hpage : va / pgSize < heapLimit / pgSize := by
    unfold heapLimit pgSize at *
    omega
  have hsame : pgdir.pte (va / pgSize * pgSize) = pgdir.pte va :=
    pte_congr (Nat.mul_div_cancel _ (by decide))
  refine mem_userFrames.mpr ⟨va / pgSize, hpage, ?_⟩
  rw [hsame, pteFrames_of_present hpresent, Multiset.mem_singleton]

theorem mem_frames_of_present {va : ℕ} (hva : va < heapLimit)
    (hpresent : isPresent (pgdir.pte va) = true) : p2v (pteAddr (pgdir.pte va)) ∈ pgdir.frames :=
  mem_frames.mpr (Or.inr (mem_userFrames_of_present hva hpresent))

theorem mem_frames_of_table {index : ℕ} {table : PageTable}
    (hindex : index < npdEntries) (htable : pgdir.tables index = some table) :
    table.page ∈ pgdir.frames := by
  refine mem_frames.mpr (Or.inl (mem_tablePages.mpr (Or.inr ⟨index, hindex, ?_⟩)))
  rw [htable, tableFrames_some, Multiset.mem_singleton]

theorem page_mem_frames (pgdir : Pgdir) : pgdir.page ∈ pgdir.frames :=
  mem_frames.mpr (Or.inl (mem_tablePages.mpr (Or.inl rfl)))

end Pgdir

theorem Kmem.kfree_of_isFrame (kmem : Kmem) {v : ℕ} (h : IsFrame v) :
    ∃ next, kmem.kfree v = .ok next ∧ next.freelist = [v] ++ kmem.freelist :=
  ⟨_, dif_pos h, rfl⟩

theorem IsFrame.pteAddr_ne_zero {pte : ℕ} (h : IsFrame (p2v (pteAddr pte))) : pteAddr pte ≠ 0 := by
  intro hzero
  rw [hzero] at h
  exact absurd h (by decide)

section Releasing

variable {vm next : Vm} {oldsz newsz count a : ℕ}

theorem pte_behind (hroom : a + (count + 1) * pgSize ≤ Word.size) {k : ℕ} (hk : k < count) :
    (vm.pgdir.setPte a 0).pte (a + pgSize + k * pgSize) = vm.pgdir.pte (a + (k + 1) * pgSize) := by
  have hnext : a + pgSize + k * pgSize = a + (k + 1) * pgSize := by
    rw [Nat.succ_mul, Nat.add_right_comm, Nat.add_assoc]
  rw [hnext, Pgdir.pte_setPte_of_ne]
  all_goals
    unfold pgSize Word.size at *
    omega

theorem releasePages_returns (hroom : a + count * pgSize ≤ Word.size)
    (hframes : ∀ k < count, isPresent (vm.pgdir.pte (a + k * pgSize)) = true →
      IsFrame (p2v (pteAddr (vm.pgdir.pte (a + k * pgSize))))) :
    ∃ next released, releasePages count vm a = .ok next ∧
      next.kmem.freelist = released ++ vm.kmem.freelist ∧ (released : Multiset ℕ) =
        ∑ k ∈ Finset.range count, pteFrames (vm.pgdir.pte (a + k * pgSize)) := by
  induction count generalizing vm a with
  | zero => exact ⟨vm, [], rfl, rfl, rfl⟩
  | succ count ih =>
    have hfirst := hframes 0 (Nat.succ_pos count)
    have hrest : a + pgSize + count * pgSize ≤ Word.size := by
      rwa [Nat.add_assoc, Nat.add_comm pgSize, ← Nat.succ_mul]
    rw [Nat.zero_mul, Nat.add_zero] at hfirst
    rw [releasePages, Finset.sum_range_succ', Nat.zero_mul, Nat.add_zero]
    by_cases hpresent : isPresent (vm.pgdir.pte a) = true
    · obtain ⟨kmem, hkfree, hfree⟩ := vm.kmem.kfree_of_isFrame (hfirst hpresent)
      obtain ⟨next, released, hloop, hlist, hreleased⟩ := @ih ⟨kmem, vm.pgdir.setPte a 0⟩ _ hrest
        fun k hk ↦ by
          rw [pte_behind hroom hk]
          exact hframes (k + 1) (Nat.succ_lt_succ hk)
      rw [if_pos hpresent, if_neg (hfirst hpresent).pteAddr_ne_zero, hkfree, ok_bind]
      refine ⟨next, released ++ [p2v (pteAddr (vm.pgdir.pte a))], hloop, ?_, ?_⟩
      · rw [hlist, hfree, List.append_assoc]
      · have hsum := Finset.sum_congr rfl fun k hk ↦
          congrArg pteFrames (@pte_behind vm count a hroom k (Finset.mem_range.mp hk))
        rw [← Multiset.coe_add, hreleased, hsum, pteFrames_of_present hpresent]
        rfl
    · have hnext (k : ℕ) : a + pgSize + k * pgSize = a + (k + 1) * pgSize := by
        rw [Nat.succ_mul, Nat.add_right_comm, Nat.add_assoc]
      have hlater := @ih vm _ hrest
      simp only [hnext] at hlater
      rw [if_neg hpresent, pteFrames_of_absent (Bool.eq_false_iff.mpr hpresent), add_zero]
      exact hlater fun k hk ↦ hframes (k + 1) (Nat.succ_lt_succ hk)

theorem releasePages_isFrame (hroom : a + count * pgSize ≤ Word.size)
    (h : releasePages count vm a = .ok next) {k : ℕ} (hk : k < count)
    (hpresent : isPresent (vm.pgdir.pte (a + k * pgSize)) = true) :
    IsFrame (p2v (pteAddr (vm.pgdir.pte (a + k * pgSize)))) := by
  induction count generalizing vm a k with
  | zero => exact absurd hk (Nat.not_lt_zero k)
  | succ count ih =>
    have hrest : a + pgSize + count * pgSize ≤ Word.size := by
      rwa [Nat.add_assoc, Nat.add_comm pgSize, ← Nat.succ_mul]
    obtain ⟨kmem, -, -, hkfree, h⟩ | ⟨habsent, h⟩ := releasePages_cases h
    · cases k with
      | zero =>
        rw [Nat.zero_mul, Nat.add_zero]
        exact (Kmem.kfree_eq_ok.mp hkfree).1
      | succ k =>
        have hbehind := @pte_behind vm count a hroom k (Nat.lt_of_succ_lt_succ hk)
        rw [← hbehind] at hpresent ⊢
        exact ih hrest h (Nat.lt_of_succ_lt_succ hk) hpresent
    · cases k with
      | zero =>
        rw [Nat.zero_mul, Nat.add_zero, habsent] at hpresent
        cases hpresent
      | succ k =>
        have hnext : a + (k + 1) * pgSize = a + pgSize + k * pgSize := by
          rw [Nat.succ_mul, Nat.add_right_comm, Nat.add_assoc]
        rw [hnext] at hpresent ⊢
        exact ih hrest h (Nat.lt_of_succ_lt_succ hk) hpresent

variable (hold : oldsz ≤ kernBase) (hlt : newsz < oldsz)

include hold hlt

/-- The pages that are visited are those with bytes between the sizes. -/
theorem forall_pagesBetween {holds : ℕ → Prop} :
    (∀ k < pagesBetween newsz oldsz, holds (vm.pgdir.pte (pgRoundUp newsz + k * pgSize))) ↔
      ∀ b, pgRoundUp newsz ≤ b → b < oldsz → holds (vm.pgdir.pte b) := by
  obtain ⟨haligned, -, -⟩ := pgRoundUp_spec (hlt.le.trans hold)
  obtain ⟨hroom, hcovers⟩ := pagesBetween_room hlt.le hold
  constructor
  · intro h b hle hb
    obtain ⟨k, hk, hsame⟩ : ∃ k < pagesBetween newsz oldsz,
        (pgRoundUp newsz + k * pgSize) / pgSize = b / pgSize := by
      refine ⟨b / pgSize - pgRoundUp newsz / pgSize, ?_⟩
      unfold pgSize at *
      omega
    rw [← Pgdir.pte_congr hsame]
    exact h k hk
  · intro h k hk
    have hbelow : pgRoundUp newsz + k * pgSize < oldsz := by
      have hpages := Nat.add_le_add_left (Nat.mul_le_mul_right pgSize hk) (pgRoundUp newsz)
      rw [Nat.succ_mul, ← Nat.add_assoc] at hpages
      exact Nat.lt_of_add_lt_add_right (lt_of_le_of_lt hpages hroom)
    exact h _ (Nat.le_add_right _ _) hbelow

theorem deallocuvm_returns (hframes : ∀ b, pgRoundUp newsz ≤ b → b < oldsz →
      isPresent (vm.pgdir.pte b) = true → IsFrame (p2v (pteAddr (vm.pgdir.pte b)))) :
    ∃ next released, deallocuvm vm oldsz newsz = .ok (next, newsz) ∧
      next.kmem.freelist = released ++ vm.kmem.freelist ∧ (released : Multiset ℕ) =
        ∑ k ∈ Finset.range (pagesBetween newsz oldsz),
          pteFrames (vm.pgdir.pte (pgRoundUp newsz + k * pgSize)) := by
  have hroom := (pagesBetween_room hlt.le hold).1
  obtain ⟨next, released, hloop, hreleased⟩ := releasePages_returns
    (by unfold kernBase pgSize Word.size at *; omega)
    ((@forall_pagesBetween vm oldsz newsz hold hlt fun pte ↦ isPresent pte = true →
      IsFrame (p2v (pteAddr pte))).mpr hframes)
  refine ⟨next, released, ?_, hreleased⟩
  rw [deallocuvm_eq hold hlt, hloop]
  rfl

theorem deallocuvm_returns_iff : (∃ next, deallocuvm vm oldsz newsz = .ok (next, newsz)) ↔
      ∀ b, pgRoundUp newsz ≤ b → b < oldsz → isPresent (vm.pgdir.pte b) = true →
        IsFrame (p2v (pteAddr (vm.pgdir.pte b))) := by
  have hroom := (pagesBetween_room hlt.le hold).1
  constructor
  · rintro ⟨next, h⟩
    obtain ⟨hle, -⟩ | ⟨-, -, hloop⟩ := deallocuvm_cases hold h
    · exact absurd hle (Nat.not_le.mpr hlt)
    · exact (@forall_pagesBetween vm oldsz newsz hold hlt fun pte ↦ isPresent pte = true →
        IsFrame (p2v (pteAddr pte))).mp fun k ↦ releasePages_isFrame
          (by unfold kernBase pgSize Word.size at *; omega) hloop
  · intro hframes
    obtain ⟨next, -, h, -⟩ := deallocuvm_returns hold hlt hframes
    exact ⟨next, h⟩

/-- Leaving out absent page tables is the same as visiting every page. The call returns exactly if
the present pages between the sizes are pages of the allocator; then it has released these, each one
once, and cleared their entries and no others. -/
theorem deallocuvm_visits_every_page (vm : Vm) : deallocuvm vm oldsz newsz = (do
      let next ← releasePages (pagesBetween newsz oldsz) vm (pgRoundUp newsz)
      pure (next, newsz)) ∧
    ((∃ next, deallocuvm vm oldsz newsz = .ok (next, newsz)) ↔
      ∀ b, pgRoundUp newsz ≤ b → b < oldsz → isPresent (vm.pgdir.pte b) = true →
        IsFrame (p2v (pteAddr (vm.pgdir.pte b)))) ∧
    ∀ next, deallocuvm vm oldsz newsz = .ok (next, newsz) →
      (∃ released, next.kmem.freelist = released ++ vm.kmem.freelist ∧ (released : Multiset ℕ) =
        ∑ k ∈ Finset.range (pagesBetween newsz oldsz),
          pteFrames (vm.pgdir.pte (pgRoundUp newsz + k * pgSize))) ∧
      ∀ b < Word.size, next.pgdir.pte b =
        if (pgRoundUp newsz ≤ b / pgSize * pgSize ∧ b / pgSize * pgSize < oldsz) ∧
          isPresent (vm.pgdir.pte b) = true then 0 else vm.pgdir.pte b := by
  refine ⟨deallocuvm_eq hold hlt, deallocuvm_returns_iff hold hlt, fun next h ↦ ⟨?_, ?_⟩⟩
  · obtain ⟨next', released, h', hreleased⟩ := deallocuvm_returns hold hlt
      ((deallocuvm_returns_iff hold hlt).mp ⟨next, h⟩)
    cases h.symm.trans h'
    exact ⟨released, hreleased⟩
  · exact fun b hb ↦ deallocuvm_pte hold hlt h hb

end Releasing

/-- An address space with one page, whose entry is `pte`. -/
def onePageVm (pte : ℕ) : Vm where
  kmem := ⟨[], fun _ ↦ 0, by decide⟩
  pgdir := ⟨0x80402000, fun index ↦
    if index = 0 then some ⟨0x80401000, fun page ↦ if page = 0 then pte else 0⟩ else none⟩

theorem deallocuvm_visits_one_page :
    ∃ next, deallocuvm (onePageVm 0x400007) 4096 0 = .ok (next, 0) ∧ next.pgdir.pte 0 = 0 := by
  obtain ⟨-, -, hreturned⟩ := @deallocuvm_visits_every_page 4096 0 (by decide) (by decide)
    (onePageVm 0x400007)
  obtain ⟨next, h⟩ : ∃ next, deallocuvm (onePageVm 0x400007) 4096 0 = .ok (next, 0) := by
    decide +kernel
  exact ⟨next, h, (hreturned next h).2 0 (by decide)⟩

/-- Physical page 0 is not released. -/
theorem deallocuvm_page_zero : deallocuvm (onePageVm 1) 4096 0 = .error (.panic "kfree") := by
  rw [deallocuvm_eq (by decide) (by decide)]
  rfl

theorem freeTables_returns {pgdir : Pgdir} (hframes : ∀ v ∈ pgdir.frames, IsFrame v) (kmem : Kmem) :
    ∀ {count : ℕ}, count ≤ npdEntries → ∃ next released,
      freeTables pgdir kmem count = .ok next ∧ next.freelist = released ++ kmem.freelist := by
  intro count
  induction count with
  | zero => exact fun _ ↦ ⟨kmem, [], rfl, rfl⟩
  | succ index ih =>
    intro hcount
    obtain ⟨next, released, hloop, hreleased⟩ := ih (by omega)
    rw [freeTables, hloop, ok_bind]
    cases htable : pgdir.tables index with
    | none => exact ⟨next, released, rfl, hreleased⟩
    | some table =>
      obtain ⟨last, hkfree, hfree⟩ := next.kfree_of_isFrame
        (hframes _ (Pgdir.mem_frames_of_table hcount htable))
      refine ⟨last, [table.page] ++ released, hkfree, ?_⟩
      rw [hfree, hreleased, List.append_assoc]

/-- `freevm` frees the private pages, the page tables and the directory. -/
theorem freevm_returns {vm : Vm} (hframes : ∀ v ∈ vm.pgdir.frames, IsFrame v) :
    ∃ kmem released, freevm vm = .ok kmem ∧ kmem.freelist = released ++ vm.kmem.freelist ∧
      (released : Multiset ℕ) = vm.pgdir.userFrames + vm.pgdir.tablePages := by
  obtain ⟨cleared, first, hdealloc, hfirst, -⟩ := @deallocuvm_returns vm heapLimit 0 (by decide)
    (by decide) fun b _ hb hpresent ↦ hframes _ (Pgdir.mem_frames_of_present hb hpresent)
  have hcleared : ∀ v ∈ cleared.pgdir.frames, IsFrame v := by
    intro v hv
    have hmem : v ∈ vm.frames := by
      rw [← (deallocuvm_moves le_rfl hdealloc).frames_eq, Vm.frames, Multiset.mem_add]
      exact Or.inr hv
    rw [Vm.frames, Multiset.mem_add] at hmem
    exact hmem.elim (vm.kmem.isFrame v) (hframes v)
  obtain ⟨middle, second, htables, hsecond⟩ := freeTables_returns hcleared cleared.kmem le_rfl
  obtain ⟨kmem, hkfree, hlast⟩ := middle.kfree_of_isFrame (hcleared _ cleared.pgdir.page_mem_frames)
  have hfreevm : freevm vm = .ok kmem := by
    unfold freevm
    rw [hdealloc, ok_bind]
    dsimp only
    rw [htables, ok_bind]
    exact hkfree
  have hlist : kmem.freelist = ([cleared.pgdir.page] ++ second ++ first) ++ vm.kmem.freelist := by
    rw [hlast, hsecond, hfirst]
    simp only [List.append_assoc]
  refine ⟨kmem, _, hfreevm, hlist, ?_⟩
  have hfreelist := (freevm_freelist hfreevm).1
  rw [hlist, ← Multiset.coe_add, Vm.frames, Pgdir.frames, add_comm] at hfreelist
  rw [add_left_cancel hfreelist, add_comm]

end Xv6Shm
