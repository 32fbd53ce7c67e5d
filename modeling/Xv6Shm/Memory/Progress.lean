import Xv6Shm.Memory.Contents

/-!
# New address spaces can be built

`setupkvm` maps the rows of `kmap` one behind the other, so it never meets a mapped page, and always
returns. It takes pages for the directory and the page tables of the kernel half only; with a free
page for each it succeeds. It leaves the user half empty.
-/

namespace Xv6Shm

open Fallible

/-- The directory entries of the kernel half that have no page table. -/
def Pgdir.missing (pgdir : Pgdir) : Finset ℕ :=
  (Finset.Ico 512 npdEntries).filter fun index ↦ (pgdir.tables index).isNone = true

/-- Nothing is mapped below the kernel half, nor from the page `first` on. -/
def Vm.Unmapped (vm : Vm) (first : ℕ) : Prop :=
  ∀ b < Word.size, b < kernBase ∨ first ≤ b / pgSize → isPresent (vm.pgdir.pte b) = false

/-- There is a free page for each missing page table of the kernel half. -/
def Vm.Supplied (vm : Vm) : Prop := vm.pgdir.missing.card ≤ vm.kmem.freelist.length

/-- The pages up to `first` have been mapped, or the free pages have run out. -/
structure Vm.Maps (vm : Vm) (first : ℕ) (next : Vm) (ok : Bool) : Prop where
  unmapped : ok = true → next.Unmapped first
  supplied : vm.Supplied → ok = true ∧ next.Supplied

variable {vm : Vm} {va : ℕ}

theorem Vm.Unmapped.mono {first later : ℕ} (h : vm.Unmapped first) (hle : first ≤ later) :
    vm.Unmapped later :=
  fun b hb hlater ↦ h b hb (hlater.imp id hle.trans)

theorem Pgdir.missing_setPte (pgdir : Pgdir) (va pte : ℕ) :
    (pgdir.setPte va pte).missing = pgdir.missing := by
  apply Finset.filter_congr
  intro index _
  unfold setPte
  cases htable : pgdir.tables (pdx va) with
  | none => rfl
  | some table =>
    by_cases hindex : index = pdx va
    · rw [hindex, htable]
      simp [setTable]
    · simp [setTable, Function.update_of_ne hindex]

theorem Pgdir.missing_setTable (pgdir : Pgdir) (index : ℕ) (table : PageTable) :
    (pgdir.setTable index table).missing = pgdir.missing.erase index := by
  ext other
  unfold missing setTable
  by_cases hother : other = index
  · simp [hother]
  · simp [hother]

theorem mem_missing {pgdir : Pgdir} (hva : va < Word.size) (hhalf : kernBase ≤ va)
    (hnone : pgdir.tables (pdx va) = none) : pdx va ∈ pgdir.missing := by
  unfold Pgdir.missing
  rw [Finset.mem_filter, Finset.mem_Ico, hnone, pdx_eq]
  unfold Word.size kernBase npdEntries at *
  exact ⟨by omega, rfl⟩

theorem walkpgdir_missing {next : Vm} (hva : va < Word.size) (hhalf : kernBase ≤ va)
    (h : walkpgdir vm va true = some next) (hpages : vm.Supplied) : next.Supplied := by
  obtain ⟨-, rfl⟩ | ⟨pgtab, kmem, hnone, hkalloc, rfl⟩ := walkpgdir_cases h
  · exact hpages
  · unfold Vm.Supplied at *
    rw [(Kmem.kalloc_eq_some.mp hkalloc).1, List.length_cons] at hpages
    rw [Pgdir.missing_setTable, Finset.card_erase_of_mem (mem_missing hva hhalf hnone),
      Kmem.memset_freelist]
    omega

theorem mapPage_maps {a : ℕ} (h : vm.Unmapped (a / pgSize)) (ha : a < Word.size)
    (hhalf : kernBase ≤ a) (pte : ℕ) :
    ∃ result, mapPage vm a pte = .ok result ∧
      vm.Maps (a / pgSize + 1) (result.getD vm) result.isSome := by
  rcases mapPage_of_absent pte (h a ha (Or.inr le_rfl)) with ⟨hnone, hmissing, hempty⟩ | ⟨next, hmap⟩
  · refine ⟨none, hnone, fun hok ↦ (by cases hok), fun hpages ↦ ?_⟩
    unfold Pgdir.hasTable at hmissing
    have hpos := Finset.card_pos.mpr ⟨_, mem_missing ha hhalf (by simpa using hmissing)⟩
    rw [Vm.Supplied, hempty, List.length_nil] at hpages
    omega
  · refine ⟨some next, hmap, fun _ b hb hlater ↦ ?_, fun hpages ↦ ⟨rfl, ?_⟩⟩
    · dsimp only [Option.getD]
      rw [mapPage_pte hmap ha hb, if_neg (by unfold kernBase pgSize at *; omega)]
      exact h b hb (hlater.imp id fun hle ↦ by omega)
    · obtain ⟨hnone, -⟩ | ⟨walked, hwalk, -, hsome⟩ := mapPage_cases hmap
      · cases hnone
      · cases hsome
        have hwalked := walkpgdir_missing ha hhalf hwalk hpages
        unfold Vm.Supplied at hwalked ⊢
        dsimp only [Option.getD]
        rwa [Pgdir.missing_setPte]

theorem mappagesLoop_maps (perm : ℕ) : ∀ {remaining : ℕ} {vm : Vm} {a : ℕ} (pa : ℕ),
    vm.Unmapped (a / pgSize) → kernBase ≤ a → 0 < remaining →
    a + remaining * pgSize ≤ Word.size →
    ∃ next ok, mappagesLoop perm remaining vm a pa = .ok (next, ok) ∧
      vm.Maps (a / pgSize + remaining) next ok := by
  intro remaining
  induction remaining with
  | zero =>
    intro vm a pa _ _ hpos
    exact absurd hpos (Nat.lt_irrefl 0)
  | succ remaining ih =>
    intro vm a pa h hhalf _ hroom
    have ha : a < Word.size := by
      unfold pgSize at hroom
      omega
    obtain ⟨result, hmap, hmaps⟩ := mapPage_maps h ha hhalf (pa ||| perm ||| pteP)
    rw [mappagesLoop, hmap, ok_bind]
    cases result with
    | none => exact ⟨vm, false, rfl, fun hok ↦ (by cases hok), hmaps.supplied⟩
    | some mapped =>
      cases remaining with
      | zero => exact ⟨mapped, true, rfl, hmaps⟩
      | succ remaining =>
        have hnext : Word.add a pgSize = a + pgSize := by
          apply Word.add_eq
          unfold pgSize at *
          omega
        have hpage : (a + pgSize) / pgSize = a / pgSize + 1 := Nat.add_div_right a (by decide)
        rw [hnext]
        obtain ⟨next, ok, hloop, hrest⟩ := ih (a := a + pgSize) (Word.add pa pgSize)
          (by rw [hpage]; exact hmaps.unmapped rfl) (by omega) (Nat.succ_pos _)
          (by unfold pgSize at *; omega)
        refine ⟨next, ok, hloop, fun hok ↦ (hrest.unmapped hok).mono ?_, fun hpages ↦ ?_⟩
        · rw [hpage]
          omega
        · exact hrest.supplied (hmaps.supplied hpages).2

theorem mappages_maps {size count : ℕ} (h : vm.Unmapped (va / pgSize))
    (hhalf : kernBase ≤ va) (haligned : va % pgSize = 0) (hsize : size = count * pgSize)
    (hpos : 0 < count) (hroom : va + size ≤ Word.size) (pa perm : ℕ) :
    ∃ next ok, mappages vm va size pa perm = .ok (next, ok) ∧
      vm.Maps (va / pgSize + count) next ok := by
  have hva : va < Word.size := by
    unfold pgSize at hsize
    omega
  have hfirst : pgRoundDown va = va := by
    rw [pgRoundDown_eq hva]
    exact Nat.div_mul_cancel (Nat.dvd_of_mod_eq_zero haligned)
  have hlast : pgRoundDown (Word.sub (Word.add va size) 1) = va + (count - 1) * pgSize := by
    rw [pgRoundDown_eq (Word.sub_lt _ _)]
    unfold Word.sub Word.add Word.size pgSize at *
    omega
  have hcount : Word.sub (va + (count - 1) * pgSize) va / pgSize + 1 = count := by
    rw [Word.sub_eq (Nat.le_add_right _ _) (by unfold pgSize at *; omega), Nat.add_sub_cancel_left,
      Nat.mul_div_cancel _ (by decide)]
    omega
  unfold mappages
  dsimp only
  rw [hfirst, hlast, hcount]
  exact mappagesLoop_maps perm pa h hhalf hpos (hsize ▸ hroom)

/-- The size of a row. -/
def Kmap.size (row : Kmap) : ℕ := Word.sub row.physEnd row.physStart

/-- The rows are pages of the kernel half, one behind the other from `first` on. -/
def Stacked : ℕ → List Kmap → Prop
  | _, [] => True
  | first, row :: rest =>
    (first ≤ row.virt / pgSize ∧ kernBase ≤ row.virt ∧ row.virt % pgSize = 0 ∧
      row.size % pgSize = 0 ∧ 0 < row.size / pgSize ∧ row.virt + row.size ≤ Word.size) ∧
      Stacked (row.virt / pgSize + row.size / pgSize) rest

theorem kmap_stacked : Stacked 0 kmap := by
  unfold kmap Stacked Stacked Stacked Stacked Stacked
  decide

theorem setupkvmLoop_maps {rows : List Kmap} {vm : Vm} {first : ℕ} (h : vm.Unmapped first)
    (hstacked : Stacked first rows) :
    ∃ next ok, setupkvmLoop rows vm = .ok (next, ok) ∧ vm.Maps (Word.size / pgSize) next ok := by
  induction rows generalizing vm first with
  | nil =>
    refine ⟨vm, true, rfl, fun _ b hb hlater ↦ h b hb (hlater.imp id fun hle ↦ ?_), fun h ↦ ⟨rfl, h⟩⟩
    unfold Word.size pgSize at *
    omega
  | cons row rest ih =>
    obtain ⟨⟨hfirst, hhalf, haligned, hsize, hpos, hroom⟩, hrest⟩ := hstacked
    obtain ⟨mapped, ok, hmap, hmaps⟩ := mappages_maps (h.mono hfirst) hhalf haligned
      (Nat.div_mul_cancel (Nat.dvd_of_mod_eq_zero hsize)).symm hpos hroom row.physStart row.perm
    unfold Kmap.size at hmap
    rw [setupkvmLoop, hmap, ok_bind]
    cases ok with
    | false => exact ⟨mapped, false, rfl, fun hok ↦ (by cases hok), hmaps.supplied⟩
    | true =>
      obtain ⟨next, ok, hloop, hnext⟩ := ih (hmaps.unmapped rfl) hrest
      exact ⟨next, ok, hloop, hnext.unmapped, fun hpages ↦ hnext.supplied (hmaps.supplied hpages).2⟩

/-- `setupkvm` returns. The user half is empty, and a page for the directory and one for each page
table of the kernel half are enough. -/
theorem setupkvm_returns (kmem : Kmem) : ∃ next built, setupkvm kmem = .ok (next, built) ∧
    (∀ pgdir, built = some pgdir → ∀ b < kernBase, isPresent (pgdir.pte b) = false) ∧
    (513 ≤ kmem.freelist.length → built.isSome = true) := by
  unfold setupkvm
  cases hkalloc : kmem.kalloc with
  | none =>
    refine ⟨kmem, none, rfl, fun _ hnone ↦ (by cases hnone), fun h ↦ ?_⟩
    rw [Kmem.kalloc_eq_none.mp hkalloc, List.length_nil] at h
    omega
  | some pair =>
    obtain ⟨page, rest⟩ := pair
    dsimp only
    rw [if_neg (by decide), (Kmem.kalloc_eq_some.mp hkalloc).1, List.length_cons]
    obtain ⟨vm, ok, hloop, hmaps⟩ := @setupkvmLoop_maps kmap
      ⟨rest.memset page 0 pgSize, ⟨page, fun _ ↦ none⟩⟩ 0 (fun b _ _ ↦ by simp [Pgdir.pte]) kmap_stacked
    rw [hloop, ok_bind]
    cases ok with
    | true =>
      refine ⟨vm.kmem, some vm.pgdir, rfl, fun pgdir hpgdir b hb ↦ ?_, fun _ ↦ rfl⟩
      cases hpgdir
      exact hmaps.unmapped rfl b (lt_trans hb (by decide)) (Or.inl hb)
    | false =>
      have hframes (v : ℕ) (hv : v ∈ vm.pgdir.frames) : IsFrame v := by
        apply kmem.isFrame v
        rw [← Multiset.mem_coe, ← (setupkvm_start hkalloc hloop).1]
        exact Multiset.mem_add.mpr (Or.inr hv)
      obtain ⟨freed, -, hfree, -⟩ := freevm_returns hframes
      refine ⟨freed, none, by rw [hfree]; rfl, fun _ hnone ↦ (by cases hnone), fun h ↦ ?_⟩
      have hcard := Finset.card_filter_le (Finset.Ico 512 npdEntries) fun _ ↦
        (none : Option PageTable).isNone = true
      rw [Nat.card_Ico] at hcard
      unfold npdEntries at hcard
      have hpages : Vm.Supplied ⟨rest.memset page 0 pgSize, ⟨page, fun _ ↦ none⟩⟩ :=
        hcard.trans (by rw [Kmem.memset_freelist]; omega)
      cases (hmaps.supplied hpages).1

theorem copyuvm_progress {kmem : Kmem} (parent : Pgdir) (h : 513 ≤ kmem.freelist.length) :
    ∃ next pgdir, copyuvm kmem parent 0 = .ok (next, some pgdir) := by
  obtain ⟨next, built, hsetup, -, hbuilt⟩ := setupkvm_returns kmem
  obtain ⟨pgdir, rfl⟩ := Option.isSome_iff_exists.mp (hbuilt h)
  refine ⟨next, pgdir, ?_⟩
  unfold copyuvm
  rw [hsetup, ok_bind]
  rfl

end Xv6Shm
