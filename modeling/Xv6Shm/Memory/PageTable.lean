import Xv6Shm.Memory.Kalloc

/-!
# Page directories

`walkpgdir`, `mappages`, `clearpteu` and `clearmapping` of `vm.c`. A directory entry that is present
always points to a page table of its own with all permissions, so a directory is the page it
occupies and, for each index, the page table there, if any. The lemmas say what each function does
to the entry of every virtual page. Pages are compared by number.
-/

namespace Xv6Shm

open Fallible Function

structure PageTable where
  page : ℕ
  ptes : ℕ → ℕ

structure Pgdir where
  page : ℕ
  tables : ℕ → Option PageTable

namespace Pgdir

/-- The entry of the page of `va`; zero without a page table. -/
def pte (pgdir : Pgdir) (va : ℕ) : ℕ :=
  match pgdir.tables (pdx va) with
  | none => 0
  | some table => table.ptes (ptx va)

/-- The page of `va` has a page table. -/
def hasTable (pgdir : Pgdir) (va : ℕ) : Bool := (pgdir.tables (pdx va)).isSome

def setTable (pgdir : Pgdir) (index : ℕ) (table : PageTable) : Pgdir :=
  { pgdir with tables := update pgdir.tables index (some table) }

/-- Overwrite the entry of the page of `va` in its page table. -/
def setPte (pgdir : Pgdir) (va pte : ℕ) : Pgdir :=
  match pgdir.tables (pdx va) with
  | none => pgdir
  | some table =>
    pgdir.setTable (pdx va) { table with ptes := update table.ptes (ptx va) pte }

variable {pgdir : Pgdir} {va a : ℕ}

theorem hasTable_iff : pgdir.hasTable va = true ↔ ∃ table, pgdir.tables (pdx va) = some table := by
  exact Option.isSome_iff_exists

theorem pte_of_not_hasTable (h : pgdir.hasTable va = false) : pgdir.pte va = 0 := by
  unfold hasTable at h
  unfold pte
  rw [Option.isSome_eq_false_iff, Option.isNone_iff_eq_none] at h
  rw [h]

@[simp] theorem hasTable_setPte (pgdir : Pgdir) (va pte a : ℕ) :
    (pgdir.setPte va pte).hasTable a = pgdir.hasTable a := by
  unfold setPte hasTable
  cases htable : pgdir.tables (pdx va) with
  | none => rfl
  | some table =>
    by_cases hindex : pdx a = pdx va
    · simp [setTable, hindex, htable]
    · simp [setTable, update_of_ne hindex]

@[simp] theorem page_setPte (pgdir : Pgdir) (va pte : ℕ) :
    (pgdir.setPte va pte).page = pgdir.page := by
  unfold setPte
  cases pgdir.tables (pdx va) <;> rfl

theorem pte_setPte_self (h : pgdir.hasTable va = true) (pte : ℕ) :
    (pgdir.setPte va pte).pte va = pte := by
  obtain ⟨table, htable⟩ := hasTable_iff.mp h
  unfold setPte Pgdir.pte
  rw [htable]
  simp [setTable]

theorem pte_congr {b : ℕ} (h : a / pgSize = b / pgSize) : pgdir.pte a = pgdir.pte b := by
  have hpdx : pdx a = pdx b := by
    rw [pdx_eq, pdx_eq]
    unfold pgSize at h
    omega
  have hptx : ptx a = ptx b := by
    rw [ptx_eq, ptx_eq]
    unfold pgSize at h
    omega
  unfold pte
  rw [hpdx, hptx]

theorem hasTable_congr {b : ℕ} (h : a / pgSize = b / pgSize) :
    pgdir.hasTable a = pgdir.hasTable b := by
  have hpdx : pdx a = pdx b := by
    rw [pdx_eq, pdx_eq]
    unfold pgSize at h
    omega
  unfold hasTable
  rw [hpdx]

theorem pte_setPte_of_ne (hva : va < Word.size) (ha : a < Word.size)
    (hpage : a / pgSize ≠ va / pgSize) (pte : ℕ) : (pgdir.setPte va pte).pte a = pgdir.pte a := by
  unfold setPte
  cases htable : pgdir.tables (pdx va) with
  | none => rfl
  | some table =>
    by_cases hpdx : pdx a = pdx va
    · have hptx : ptx a ≠ ptx va := fun hptx ↦ hpage (page_eq_of_index_eq ha hva hpdx hptx)
      simp [setTable, Pgdir.pte, hpdx, htable, update_of_ne hptx]
    · simp [setTable, Pgdir.pte, update_of_ne hpdx]

end Pgdir

/-- The allocator together with the directory a function of `vm.c` works on. -/
structure Vm where
  kmem : Kmem
  pgdir : Pgdir

/-- Find the page table of `va`, or create an empty one if `alloc` is set; `none` where the source
returns a null pointer. -/
def walkpgdir (vm : Vm) (va : ℕ) (alloc : Bool) : Option Vm :=
  match vm.pgdir.tables (pdx va) with
  | some _ => some vm
  | none =>
    if alloc then
      match vm.kmem.kalloc with
      | none => none
      | some (pgtab, kmem) =>
        some { kmem := kmem.memset pgtab 0 pgSize
               pgdir := vm.pgdir.setTable (pdx va) { page := pgtab, ptes := fun _ ↦ 0 } }
    else none

variable {vm next : Vm} {va a pte perm : ℕ}

section

variable (h : walkpgdir vm va true = some next)

include h

/-- A walk that may allocate does nothing, or turns the first free page into an empty page table. -/
theorem walkpgdir_cases : (vm.pgdir.hasTable va = true ∧ next = vm) ∨
      ∃ pgtab kmem, vm.pgdir.tables (pdx va) = none ∧ vm.kmem.kalloc = some (pgtab, kmem) ∧
        next = ⟨kmem.memset pgtab 0 pgSize,
          vm.pgdir.setTable (pdx va) { page := pgtab, ptes := fun _ ↦ 0 }⟩ := by
  unfold walkpgdir at h
  cases htable : vm.pgdir.tables (pdx va) with
  | some table =>
    rw [htable] at h
    cases h
    exact Or.inl ⟨Pgdir.hasTable_iff.mpr ⟨table, htable⟩, rfl⟩
  | none =>
    rw [htable] at h
    cases hkalloc : vm.kmem.kalloc with
    | none =>
      rw [hkalloc] at h
      cases h
    | some pair =>
      rw [hkalloc] at h
      cases h
      exact Or.inr ⟨pair.1, pair.2, rfl, rfl, rfl⟩

theorem walkpgdir_hasTable : next.pgdir.hasTable va = true := by
  obtain ⟨htable, rfl⟩ | ⟨pgtab, kmem, -, -, rfl⟩ := walkpgdir_cases h
  · exact htable
  · simp [Pgdir.hasTable, Pgdir.setTable]

theorem walkpgdir_pte (a : ℕ) : next.pgdir.pte a = vm.pgdir.pte a := by
  obtain ⟨-, rfl⟩ | ⟨pgtab, kmem, hnone, -, rfl⟩ := walkpgdir_cases h
  · rfl
  · by_cases hpdx : pdx a = pdx va
    · simp [Pgdir.pte, Pgdir.setTable, hpdx, hnone]
    · simp [Pgdir.pte, Pgdir.setTable, update_of_ne hpdx]

end

theorem walkpgdir_eq_none (h : walkpgdir vm va true = none) :
    vm.pgdir.tables (pdx va) = none ∧ vm.kmem.freelist = [] := by
  unfold walkpgdir at h
  cases htable : vm.pgdir.tables (pdx va) with
  | some table =>
    rw [htable] at h
    cases h
  | none =>
    rw [htable] at h
    cases hkalloc : vm.kmem.kalloc with
    | none => exact ⟨rfl, Kmem.kalloc_eq_none.mp hkalloc⟩
    | some pair =>
      rw [hkalloc] at h
      cases h

/-- The body of the loop of `mappages`: enter `pte` for the page of `a`, which must not be mapped;
`none` where the source returns -1. -/
def mapPage (vm : Vm) (a pte : ℕ) : Except Fault (Option Vm) :=
  match walkpgdir vm a true with
  | none => pure none
  | some vm =>
    if isPresent (vm.pgdir.pte a) then .error (.panic "remap")
    else pure (some { vm with pgdir := vm.pgdir.setPte a pte })

/-- The loop of `mappages`; the flag is false where the source returns -1. -/
def mappagesLoop (perm : ℕ) : ℕ → Vm → ℕ → ℕ → Except Fault (Vm × Bool)
  | 0, vm, _, _ => pure (vm, true)
  | remaining + 1, vm, a, pa => do
    match ← mapPage vm a (pa ||| perm ||| pteP) with
    | none => pure (vm, false)
    | some vm => mappagesLoop perm remaining vm (Word.add a pgSize) (Word.add pa pgSize)

/-- Map the pages of `[va, va + size)` to the physical pages from `pa` on. -/
def mappages (vm : Vm) (va size pa perm : ℕ) : Except Fault (Vm × Bool) :=
  let a := pgRoundDown va
  let last := pgRoundDown (Word.sub (Word.add va size) 1)
  mappagesLoop perm (Word.sub last a / pgSize + 1) vm a pa

/-- Clear the user bit of a page. -/
def clearpteu (pgdir : Pgdir) (uva : ℕ) : Except Fault Pgdir :=
  if pgdir.hasTable uva then
    pure (pgdir.setPte uva (pgdir.pte uva &&& (Word.size - 1 - pteU)))
  else .error (.panic "clearpteu")

/-- Clear the present bit of a page. -/
def clearmapping (pgdir : Pgdir) (uva : ℕ) : Except Fault Pgdir :=
  if pgdir.hasTable uva then
    pure (pgdir.setPte uva (pgdir.pte uva &&& (Word.size - 1 - pteP)))
  else .error (.panic "clearmapping")

theorem mapPage_cases {result : Option Vm} (h : mapPage vm a pte = .ok result) :
    (result = none ∧ vm.pgdir.tables (pdx a) = none ∧ vm.kmem.freelist = []) ∨
      ∃ walked, walkpgdir vm a true = some walked ∧ isPresent (vm.pgdir.pte a) = false ∧
        result = some { walked with pgdir := walked.pgdir.setPte a pte } := by
  unfold mapPage at h
  cases hwalk : walkpgdir vm a true with
  | none =>
    rw [hwalk] at h
    cases h
    exact Or.inl ⟨rfl, walkpgdir_eq_none hwalk⟩
  | some walked =>
    rw [hwalk] at h
    dsimp only at h
    split at h
    · cases h
    · rename_i habsent
      cases h
      rw [walkpgdir_pte hwalk] at habsent
      exact Or.inr ⟨walked, rfl, by simpa using habsent, rfl⟩

theorem mapPage_pte {b : ℕ} (h : mapPage vm a pte = .ok (some next))
    (ha : a < Word.size) (hb : b < Word.size) :
    next.pgdir.pte b = if b / pgSize = a / pgSize then pte else vm.pgdir.pte b := by
  obtain ⟨hnone, -⟩ | ⟨walked, hwalk, -, hsome⟩ := mapPage_cases h
  · cases hnone
  · cases hsome
    split
    · rename_i hpage
      rw [Pgdir.pte_congr hpage]
      exact Pgdir.pte_setPte_self (walkpgdir_hasTable hwalk) pte
    · rename_i hpage
      rw [Pgdir.pte_setPte_of_ne ha hb hpage, walkpgdir_pte hwalk]

/-- An unmapped page can be mapped, unless there is no page for its page table. -/
theorem mapPage_of_absent {vm : Vm} {a : ℕ} (pte : ℕ)
    (habsent : isPresent (vm.pgdir.pte a) = false) :
    (mapPage vm a pte = .ok none ∧ vm.pgdir.hasTable a = false ∧ vm.kmem.freelist = []) ∨
      ∃ next, mapPage vm a pte = .ok (some next) := by
  cases hwalk : walkpgdir vm a true with
  | none =>
    obtain ⟨hnone, hempty⟩ := walkpgdir_eq_none hwalk
    left
    refine ⟨?_, ?_, hempty⟩
    · unfold mapPage
      rw [hwalk]
      rfl
    · unfold Pgdir.hasTable
      rw [hnone]
      rfl
  | some walked =>
    right
    refine ⟨{ walked with pgdir := walked.pgdir.setPte a pte }, ?_⟩
    unfold mapPage
    rw [hwalk]
    dsimp only
    rw [walkpgdir_pte hwalk, habsent]
    rfl

/-- The entry of page `b` once `count` pages from `a` on are mapped to `pa` on. -/
def mappedPte (pgdir : Pgdir) (a pa perm count b : ℕ) : ℕ :=
  if a / pgSize ≤ b / pgSize ∧ b / pgSize < a / pgSize + count then
    Word.add pa ((b / pgSize - a / pgSize) * pgSize) ||| perm ||| pteP
  else pgdir.pte b

@[simp] theorem mappedPte_zero (pgdir : Pgdir) (a pa perm b : ℕ) :
    mappedPte pgdir a pa perm 0 b = pgdir.pte b := by
  rw [mappedPte, if_neg (by omega)]

theorem mappedPte_succ {pgdir mapped : Pgdir} {pa count b : ℕ} (hpa : pa < Word.size)
    (hroom : a + (count + 1) * pgSize ≤ Word.size)
    (hmapped : mapped.pte b = if b / pgSize = a / pgSize then pa ||| perm ||| pteP
      else pgdir.pte b) :
    mappedPte mapped (Word.add a pgSize) (Word.add pa pgSize) perm count b =
      mappedPte pgdir a pa perm (count + 1) b := by
  have hfirst : Word.add pa (0 * pgSize) = pa := by
    rw [Nat.zero_mul, Word.add, Nat.add_zero, Nat.mod_eq_of_lt hpa]
  cases count with
  | zero =>
    rw [mappedPte_zero, hmapped, mappedPte]
    by_cases hsame : b / pgSize = a / pgSize
    · rw [if_pos hsame, if_pos (by omega), hsame, Nat.sub_self, hfirst]
    · rw [if_neg hsame, if_neg (by omega)]
  | succ count =>
    have hnext : Word.add a pgSize = a + pgSize := by
      apply Word.add_eq
      unfold pgSize at *
      omega
    have hnextPage : (a + pgSize) / pgSize = a / pgSize + 1 := Nat.add_div_right a (by decide)
    rw [mappedPte, mappedPte, hnext, hnextPage, hmapped]
    by_cases hsame : b / pgSize = a / pgSize
    · rw [if_neg (by omega), if_pos hsame, if_pos (by omega), hsame, Nat.sub_self, hfirst]
    · by_cases hin : a / pgSize + 1 ≤ b / pgSize ∧ b / pgSize < a / pgSize + 1 + (count + 1)
      · have hoffset : b / pgSize - a / pgSize = b / pgSize - (a / pgSize + 1) + 1 := by omega
        have hadd (offset : ℕ) : Word.add (Word.add pa pgSize) (offset * pgSize) =
            Word.add pa ((offset + 1) * pgSize) := by
          unfold Word.add pgSize Word.size
          omega
        rw [if_pos hin, if_pos (by omega), hoffset, hadd]
      · rw [if_neg hin, if_neg hsame, if_neg (by omega)]

/-- `mappages` enters a prefix of its unmapped pages, all if it succeeds, and changes no other
entry. -/
theorem mappagesLoop_enters {remaining : ℕ} {vm : Vm} {a pa : ℕ} (ha : a < Word.size)
    (hroom : a + remaining * pgSize ≤ Word.size) (hpa : pa < Word.size)
    (habsent : ∀ b < Word.size, a / pgSize ≤ b / pgSize → b / pgSize < a / pgSize + remaining →
      isPresent (vm.pgdir.pte b) = false) :
    ∃ next ok count, mappagesLoop perm remaining vm a pa = .ok (next, ok) ∧ count ≤ remaining ∧
      (ok = true ↔ count = remaining) ∧ ∀ b < Word.size, next.pgdir.pte b =
        mappedPte vm.pgdir a pa perm count b := by
  induction remaining generalizing vm a pa with
  | zero => exact ⟨vm, true, 0, rfl, le_rfl, by simp, fun b _ ↦ (mappedPte_zero _ _ _ _ _).symm⟩
  | succ remaining ih =>
    rw [mappagesLoop]
    rcases mapPage_of_absent (pa ||| perm ||| pteP) (habsent a ha le_rfl (by omega)) with
      ⟨hpage, -⟩ | ⟨mapped, hpage⟩
    · rw [hpage, ok_bind]
      exact ⟨vm, false, 0, rfl, Nat.zero_le _, by simp, fun b _ ↦ (mappedPte_zero _ _ _ _ _).symm⟩
    · have hroom' : Word.add a pgSize + remaining * pgSize ≤ Word.size := by
        unfold Word.add pgSize Word.size at *
        omega
      have hrest (b : ℕ) (hb : b < Word.size) (hfrom : Word.add a pgSize / pgSize ≤ b / pgSize)
          (hto : b / pgSize < Word.add a pgSize / pgSize + remaining) :
          isPresent (mapped.pgdir.pte b) = false := by
        have hnext : Word.add a pgSize / pgSize = a / pgSize + 1 := by
          unfold Word.add pgSize Word.size at *
          omega
        rw [mapPage_pte hpage ha hb, if_neg (by omega)]
        exact habsent b hb (by omega) (by omega)
      obtain ⟨next, ok, count, hloop, hle, hok, hpte⟩ :=
        ih (Word.add_lt _ _) hroom' (Word.add_lt pa pgSize) hrest
      rw [hpage, ok_bind]
      refine ⟨next, ok, count + 1, hloop, Nat.succ_le_succ hle,
        by rw [hok, Nat.add_right_cancel_iff], ?_⟩
      intro b hb
      have hcount :=
        (Nat.add_le_add_left (Nat.mul_le_mul_right pgSize (Nat.succ_le_succ hle)) a).trans hroom
      rw [hpte b hb]
      exact mappedPte_succ hpa hcount (mapPage_pte hpage ha hb)

/-- The range of `mappages` may end at the top of the address space. -/
theorem mappages_enters (vm : Vm) {va size pa perm : ℕ} (hsize : 1 ≤ size)
    (hrange : va + size ≤ Word.size) (hpa : pa < Word.size) (haligned : pa % pgSize = 0)
    (hperm : perm < pgSize) (habsent : ∀ b < Word.size, va / pgSize ≤ b / pgSize →
      b / pgSize ≤ (va + size - 1) / pgSize → isPresent (vm.pgdir.pte b) = false) :
    ∃ next ok count, mappages vm va size pa perm = .ok (next, ok) ∧
      count ≤ (va + size - 1) / pgSize - va / pgSize + 1 ∧
      (ok = true ↔ count = (va + size - 1) / pgSize - va / pgSize + 1) ∧
      (∀ j < count, ∀ b < Word.size, b / pgSize = va / pgSize + j →
        isPresent (next.pgdir.pte b) = true ∧
        pteAddr (next.pgdir.pte b) = Word.add pa (j * pgSize) ∧
        pteFlags (next.pgdir.pte b) = perm ||| pteP) ∧
      ∀ b < Word.size, b / pgSize < va / pgSize ∨ va / pgSize + count ≤ b / pgSize →
        next.pgdir.pte b = vm.pgdir.pte b := by
  have hva : va < Word.size := by omega
  have hfirst := pgRoundDown_eq hva
  have hlast : pgRoundDown (Word.sub (Word.add va size) 1) = (va + size - 1) / pgSize * pgSize := by
    have hend : Word.sub (Word.add va size) 1 = va + size - 1 := by
      unfold Word.sub Word.add Word.size at *
      omega
    rw [hend, pgRoundDown_eq (by omega)]
  have hpages : Word.sub ((va + size - 1) / pgSize * pgSize) (va / pgSize * pgSize) / pgSize =
      (va + size - 1) / pgSize - va / pgSize := by
    rw [Word.sub_eq] <;> unfold pgSize Word.size at * <;> omega
  have hpage : va / pgSize * pgSize / pgSize = va / pgSize := Nat.mul_div_cancel _ (by decide)
  obtain ⟨next, ok, count, hloop, hle, hok, hpte⟩ := @mappagesLoop_enters perm
    ((va + size - 1) / pgSize - va / pgSize + 1) vm (va / pgSize * pgSize) pa
    (by unfold pgSize; omega) (by unfold pgSize Word.size at *; omega) hpa fun b hb hfrom hto ↦
      habsent b hb (by omega) (by unfold pgSize at *; omega)
  refine ⟨next, ok, count, ?_, hle, hok, fun j hj b hb hb' ↦ ?_, fun b hb hout ↦ ?_⟩
  · unfold mappages
    dsimp only
    rw [hfirst, hlast, hpages]
    exact hloop
  · have hsum : Word.add pa (j * pgSize) % pgSize = 0 := by
      unfold Word.add pgSize Word.size at *
      omega
    rw [hpte b hb, mappedPte, hpage, if_pos (by omega), hb', Nat.add_sub_cancel_left]
    exact ⟨isPresent_entry _, pteAddr_entry hsum hperm (Word.add_lt _ _), pteFlags_entry hsum hperm⟩
  · rw [hpte b hb, mappedPte, hpage, if_neg (by omega)]

/-- The last two pages, in an empty directory. -/
theorem mappages_enters_last_pages :
    let vm : Vm := ⟨⟨[0x80400000], fun _ ↦ 0, by decide⟩, ⟨0x80402000, fun _ ↦ none⟩⟩
    ∃ next, mappages vm 0xFFFFE000 0x2000 0xFFFFE000 pteW = .ok (next, true) ∧
      pteAddr (next.pgdir.pte 0xFFFFF000) = 0xFFFFF000 := by
  intro vm
  obtain ⟨next, ok, count, hcall, -, hok, hentered, -⟩ := @mappages_enters vm 0xFFFFE000 0x2000
    0xFFFFE000 pteW (by decide) (by decide) (by decide) (by decide) (by decide)
    fun _ _ _ _ ↦ isPresent_zero
  obtain ⟨_, hcall'⟩ : ∃ next, mappages vm 0xFFFFE000 0x2000 0xFFFFE000 pteW = .ok (next, true) := by
    decide +kernel
  cases hcall.symm.trans hcall'
  have hall : 1 < count := by
    rw [hok.mp rfl]
    decide
  exact ⟨next, hcall, (hentered 1 hall 0xFFFFF000 (by decide) (by decide)).2.1⟩

theorem mappages_page {pa : ℕ} (haligned : va % pgSize = 0) (hva : va < Word.size) :
    mappages vm va pgSize pa perm = (do
      match ← mapPage vm va (pa ||| perm ||| pteP) with
      | none => pure (vm, false)
      | some vm => pure (vm, true)) := by
  have hfirst : pgRoundDown va = va := by
    rw [pgRoundDown_eq hva]
    exact Nat.div_mul_cancel (Nat.dvd_of_mod_eq_zero haligned)
  have hlast : pgRoundDown (Word.sub (Word.add va pgSize) 1) = va := by
    rw [pgRoundDown_eq (Word.sub_lt _ _)]
    unfold Word.sub Word.add Word.size pgSize at *
    omega
  have hpages : Word.sub va va / pgSize + 1 = 1 := by
    rw [Word.sub_eq le_rfl hva, Nat.sub_self, Nat.zero_div]
  unfold mappages
  dsimp only
  rw [hfirst, hlast, hpages]
  simp only [mappagesLoop]

theorem clearmapping_eq_ok {pgdir next : Pgdir} {uva : ℕ} :
    clearmapping pgdir uva = .ok next ↔ pgdir.hasTable uva = true ∧
        next = pgdir.setPte uva (pgdir.pte uva &&& (Word.size - 1 - pteP)) := by
  unfold clearmapping
  split
  · rename_i htable
    simp [htable, eq_comm]
  · rename_i htable
    simp [htable]

theorem isPresent_clear (pte : ℕ) : isPresent (pte &&& (Word.size - 1 - pteP)) = false := by
  unfold isPresent
  rw [Nat.land_assoc]
  simp [Word.size, pteP]

end Xv6Shm
