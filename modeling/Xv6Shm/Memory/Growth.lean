import Xv6Shm.Memory.Contents

/-!
# Growing and shrinking an address space

`allocuvm` takes a page for each page of the new size and for each missing page table. If the free
pages run out, it undoes what it has done and keeps the page tables. `deallocuvm` gives back the
pages between two sizes; it returns exactly if these are pages of the allocator.
-/

namespace Xv6Shm

open Fallible Pgdir Kmem

namespace Pgdir

variable {pgdir : Pgdir}

/-- The entries `ptes` stand from the page of `a` on; all others are the same. -/
def Entered (pgdir : Pgdir) (a : ℕ) (ptes : List ℕ) (next : Pgdir) : Prop :=
  ∀ b < Word.size, next.pte b =
    if a / pgSize ≤ b / pgSize ∧ b / pgSize < a / pgSize + ptes.length then
      ptes.getD (b / pgSize - a / pgSize) 0
    else pgdir.pte b

theorem Entered.nil (pgdir : Pgdir) (a : ℕ) : pgdir.Entered a [] pgdir := by
  intro b _
  rw [if_neg (by simp)]

theorem Entered.snoc {middle next : Pgdir} {a pte : ℕ} {ptes : List ℕ}
    (h : pgdir.Entered a ptes middle) (hentry : ∀ b < Word.size, next.pte b =
      if b / pgSize = (a + ptes.length * pgSize) / pgSize then pte else middle.pte b) :
    pgdir.Entered a (ptes ++ [pte]) next := by
  intro b hb
  have hpage : (a + ptes.length * pgSize) / pgSize = a / pgSize + ptes.length :=
    Nat.add_mul_div_right a ptes.length (by decide)
  rw [hentry b hb, h b hb, hpage, List.length_append, List.length_singleton]
  by_cases hnew : b / pgSize = a / pgSize + ptes.length
  · rw [if_pos hnew, if_pos (by omega), hnew, Nat.add_sub_cancel_left,
      List.getD_append_right _ _ _ _ le_rfl, Nat.sub_self]
    rfl
  · rw [if_neg hnew]
    by_cases hold : a / pgSize ≤ b / pgSize ∧ b / pgSize < a / pgSize + ptes.length
    · rw [if_pos hold, if_pos (by omega), List.getD_append _ _ _ _ (by omega)]
    · rw [if_neg hold, if_neg (by omega)]

/-- The page tables that the pages from `a` on need and that do not exist. -/
def absentTables (pgdir : Pgdir) (a count : ℕ) : Finset ℕ :=
  ((Finset.range count).image fun k ↦ pdx (a + k * pgSize)).filter
    fun index ↦ (pgdir.tables index).isNone = true

theorem mem_absentTables {a count index : ℕ} : index ∈ pgdir.absentTables a count ↔
      ∃ k < count, pdx (a + k * pgSize) = index ∧ pgdir.hasTable (a + k * pgSize) = false := by
  unfold absentTables hasTable
  simp only [Finset.mem_filter, Finset.mem_image, Finset.mem_range, Option.isNone_iff_eq_none,
    Option.isSome_eq_false_iff]
  constructor
  · rintro ⟨⟨k, hk, rfl⟩, hnone⟩
    exact ⟨k, hk, rfl, hnone⟩
  · rintro ⟨k, hk, rfl, hnone⟩
    exact ⟨⟨k, hk, rfl⟩, hnone⟩

theorem absentTables_zero (pgdir : Pgdir) (a : ℕ) : (pgdir.absentTables a 0).card = 0 := rfl

end Pgdir

theorem MapsPage.absentTables {vm next : Vm} {a pte count : ℕ} {tables : List ℕ}
    (h : MapsPage vm a pte tables next) :
    (vm.pgdir.absentTables a (count + 1)).card =
      tables.length + (next.pgdir.absentTables (a + pgSize) count).card := by
  have hnext (k : ℕ) : a + (k + 1) * pgSize = a + pgSize + k * pgSize := by
    rw [Nat.succ_mul, Nat.add_right_comm, Nat.add_assoc]
  have hlater (index : ℕ) : index ∈ next.pgdir.absentTables (a + pgSize) count ↔
      index ≠ pdx a ∧ ∃ k < count, pdx (a + (k + 1) * pgSize) = index ∧
        vm.pgdir.hasTable (a + (k + 1) * pgSize) = false := by
    rw [mem_absentTables]
    constructor
    · rintro ⟨k, hk, hindex, hmissing⟩
      rw [← Bool.not_eq_true, h.hasTable, not_or, ← hnext] at hmissing
      rw [← hnext] at hindex
      exact ⟨hindex ▸ hmissing.2, k, hk, hindex, Bool.not_eq_true _ ▸ hmissing.1⟩
    · rintro ⟨hne, k, hk, hindex, hmissing⟩
      refine ⟨k, hk, hnext k ▸ hindex, ?_⟩
      rw [← Bool.not_eq_true, h.hasTable, not_or, ← hnext, hmissing]
      exact ⟨Bool.false_ne_true, hindex ▸ hne⟩
  have hall (index : ℕ) : index ∈ vm.pgdir.absentTables a (count + 1) ↔
      (index = pdx a ∧ vm.pgdir.hasTable a = false) ∨
        index ∈ next.pgdir.absentTables (a + pgSize) count := by
    rw [hlater, mem_absentTables]
    constructor
    · rintro ⟨k, hk, hindex, hmissing⟩
      by_cases hfirst : index = pdx a
      · refine Or.inl ⟨hfirst, ?_⟩
        unfold Pgdir.hasTable at *
        rwa [← hfirst, ← hindex]
      · cases k with
        | zero =>
          rw [Nat.zero_mul, Nat.add_zero] at hindex
          exact absurd hindex.symm hfirst
        | succ k => exact Or.inr ⟨hfirst, k, by omega, hindex, hmissing⟩
    · rintro (⟨rfl, hmissing⟩ | ⟨-, k, hk, hindex, hmissing⟩)
      · exact ⟨0, Nat.succ_pos count, by rw [Nat.zero_mul, Nat.add_zero],
          by rwa [Nat.zero_mul, Nat.add_zero]⟩
      · exact ⟨k + 1, by omega, hindex, hmissing⟩
  rw [h.length]
  by_cases htable : vm.pgdir.hasTable a = true
  · rw [if_pos htable, Nat.zero_add]
    congr 1
    ext index
    rw [hall, htable]
    simp
  · have hmissing := Bool.not_eq_true _ ▸ htable
    rw [if_neg htable, Nat.add_comm 1, ← Finset.card_insert_of_notMem fun hmem ↦
      ((hlater (pdx a)).mp hmem).1 rfl]
    congr 1
    ext index
    rw [hall, Finset.mem_insert, hmissing]
    simp

/-- The entry that `allocuvm` makes for a page. -/
def userEntry (mem : ℕ) : ℕ := v2p mem ||| (pteW ||| pteU) ||| pteP

@[simp] theorem isPresent_userEntry (mem : ℕ) : isPresent (userEntry mem) = true :=
  isPresent_entry _

theorem p2v_userEntry {mem : ℕ} (hframe : IsFrame mem) : p2v (pteAddr (userEntry mem)) = mem := by
  rw [userEntry, pteAddr_entry hframe.v2p_aligned (by decide) (Word.sub_lt _ _),
    p2v_v2p hframe.isWord]

/-- The pages `frames` came off the free list and were zeroed and entered from `a` on; others have
become page tables. -/
structure Vm.Grown (vm : Vm) (a : ℕ) (frames : List ℕ) (next : Vm) : Prop where
  entered : vm.pgdir.Entered a (frames.map userEntry) next.pgdir
  taken : ∃ taken, frames.Sublist taken ∧ vm.kmem.Zeroes next.kmem taken ∧
    next.pgdir.tablePages + (frames : Multiset ℕ) = (taken : Multiset ℕ) + vm.pgdir.tablePages
  conserved : next.frames = vm.frames

/-- The hardware sees what it saw, and the pages that are not page tables are free. -/
structure Vm.Restored (vm next : Vm) : Prop where
  translate : ∀ b < Word.size, next.pgdir.translate b = vm.pgdir.translate b
  userFrames : next.pgdir.userFrames = vm.pgdir.userFrames
  tables : vm.pgdir.tablePages ≤ next.pgdir.tablePages
  freelist : (next.kmem.freelist : Multiset ℕ) + next.pgdir.tablePages =
    (vm.kmem.freelist : Multiset ℕ) + vm.pgdir.tablePages

namespace Vm

variable {vm next : Vm} {a : ℕ} {frames : List ℕ}

theorem Restored.refl (vm : Vm) : vm.Restored vm := ⟨fun _ _ ↦ rfl, rfl, le_rfl, rfl⟩

/-- Where the hardware sees the same, frames are conserved if free pages are. -/
theorem Restored.of_frames
    (htranslate : ∀ b < Word.size, next.pgdir.translate b = vm.pgdir.translate b)
    (htables : vm.pgdir.tablePages ≤ next.pgdir.tablePages)
    (hframes : next.frames = vm.frames) : vm.Restored next := by
  have huser := Pgdir.userFrames_of_translate fun va hva ↦ htranslate va (lt_trans hva (by decide))
  refine ⟨htranslate, huser, htables, ?_⟩
  unfold Vm.frames Pgdir.frames at hframes
  rw [huser, ← add_assoc, ← add_assoc] at hframes
  exact add_right_cancel hframes

theorem Grown.nil (vm : Vm) (a : ℕ) : vm.Grown a [] vm :=
  ⟨Pgdir.Entered.nil vm.pgdir a, ⟨[], List.Sublist.refl [], Kmem.Zeroes.refl vm.kmem, by simp⟩, rfl⟩

theorem frames_of_kalloc {kmem filled : Kmem} {mem : ℕ} (hkalloc : vm.kmem.kalloc = some (mem, kmem))
    (hfilled : filled.freelist = kmem.freelist) :
    vm.frames = {mem} + Vm.frames ⟨filled, vm.pgdir⟩ := by
  unfold Vm.frames
  rw [freelist_of_kalloc hkalloc, hfilled, add_assoc]

variable (h : vm.Grown a frames next)

include h

theorem Grown.isFrame : ∀ v ∈ frames, IsFrame v := by
  obtain ⟨taken, hsub, hzeroes, -⟩ := h.taken
  exact fun v hv ↦ hzeroes.isFrame v (hsub.subset hv)

theorem Grown.zero : ∀ v ∈ frames, ∀ x, InPage v x → next.kmem.bytes x = 0 := by
  obtain ⟨taken, hsub, hzeroes, -⟩ := h.taken
  exact fun v hv ↦ hzeroes.zero v (hsub.subset hv)

theorem Grown.nodup (hnodup : vm.kmem.freelist.Nodup) :
    frames.Nodup := by
  obtain ⟨taken, hsub, hzeroes, -⟩ := h.taken
  rw [hzeroes.freelist] at hnodup
  exact hnodup.of_append_left.sublist hsub

theorem Grown.freelist :
    (frames : Multiset ℕ) + ((next.kmem.freelist : Multiset ℕ) + next.pgdir.tablePages) =
      (vm.kmem.freelist : Multiset ℕ) + vm.pgdir.tablePages := by
  obtain ⟨taken, -, hzeroes, hpages⟩ := h.taken
  rw [hzeroes.freelist, ← Multiset.coe_add, add_right_comm, ← hpages]
  abel

theorem Grown.tables : vm.pgdir.tablePages ≤ next.pgdir.tablePages := by
  obtain ⟨taken, hsub, -, hpages⟩ := h.taken
  have htaken := Multiset.coe_le.mpr hsub.subperm
  apply le_of_add_le_add_right (a := (frames : Multiset ℕ))
  calc vm.pgdir.tablePages + (frames : Multiset ℕ) ≤ vm.pgdir.tablePages + taken :=
      add_le_add_right htaken _
    _ = next.pgdir.tablePages + (frames : Multiset ℕ) := by rw [hpages, add_comm]

theorem Grown.snoc {kmem : Kmem} {mem : ℕ} {last : Vm} {tables : List ℕ}
    (hkalloc : next.kmem.kalloc = some (mem, kmem))
    (hmaps : MapsPage ⟨kmem.memset mem 0 pgSize, next.pgdir⟩ (a + frames.length * pgSize)
      (userEntry mem) tables last)
    (hframes : last.frames = Vm.frames ⟨kmem.memset mem 0 pgSize, next.pgdir⟩ + {mem}) :
    vm.Grown a (frames ++ [mem]) last := by
  obtain ⟨taken, hsub, hzeroes, hpages⟩ := h.taken
  constructor
  · rw [List.map_append]
    apply h.entered.snoc
    rw [List.length_map]
    exact hmaps.entry
  · refine ⟨taken ++ [mem] ++ tables, ?_, ?_, ?_⟩
    · exact (hsub.append (List.Sublist.refl [mem])).trans (List.sublist_append_left _ tables)
    · exact (hzeroes.trans (Kmem.Zeroes.of_kalloc hkalloc)).trans hmaps.zeroes
    · rw [hmaps.pages, ← Multiset.coe_add, ← Multiset.coe_add, ← Multiset.coe_add]
      calc
        (tables : Multiset ℕ) + next.pgdir.tablePages + ((frames : Multiset ℕ) + ([mem] : List ℕ)) =
            (next.pgdir.tablePages + (frames : Multiset ℕ)) + ([mem] : List ℕ) + tables := by abel
        _ = (taken : Multiset ℕ) + vm.pgdir.tablePages + ([mem] : List ℕ) + tables := by rw [hpages]
        _ = (taken : Multiset ℕ) + ([mem] : List ℕ) + tables + vm.pgdir.tablePages := by abel
  · rw [hframes, ← h.conserved, frames_of_kalloc hkalloc (memset_freelist _ _ _ _), add_comm]

end Vm

section Undo

variable {start pgdir : Pgdir} {oldsz newsz : ℕ} {frames : List ℕ}

theorem Pgdir.Entered.isFrame_of_present {a b : ℕ}
    (hentered : start.Entered a (frames.map userEntry) pgdir) (hframes : ∀ v ∈ frames, IsFrame v)
    (hb : b < Word.size) (habsent : isPresent (start.pte b) = false)
    (hpresent : isPresent (pgdir.pte b) = true) : IsFrame (p2v (pteAddr (pgdir.pte b))) := by
  rw [hentered b hb] at hpresent ⊢
  split at hpresent
  · rename_i hin
    rw [List.length_map] at hin
    rw [List.length_map, if_pos hin]
    have hlt : b / pgSize - a / pgSize < frames.length := by omega
    rw [List.getD_eq_getElem _ _ (by rwa [List.length_map]), List.getElem_map,
      p2v_userEntry (hframes _ (List.getElem_mem hlt))]
    exact hframes _ (List.getElem_mem hlt)
  · rw [habsent] at hpresent
    cases hpresent

theorem deallocuvm_entered (kmem : Kmem) (hle : oldsz ≤ newsz) (hnew : newsz < heapLimit)
    (habsent : ∀ b, pgRoundUp oldsz ≤ b → b < heapLimit → isPresent (start.pte b) = false)
    (hentered : start.Entered (pgRoundUp oldsz) (frames.map userEntry) pgdir)
    (hframes : ∀ v ∈ frames, IsFrame v)
    (hroom : pgRoundUp oldsz + frames.length * pgSize < newsz + pgSize) :
    ∃ final, deallocuvm ⟨kmem, pgdir⟩ newsz oldsz = .ok (final, oldsz) ∧
      (∀ b < Word.size, final.pgdir.translate b = start.translate b) ∧
      final.pgdir.tablePages = pgdir.tablePages ∧ final.frames = Vm.frames ⟨kmem, pgdir⟩ := by
  obtain ⟨haligned, hup, hdown⟩ := pgRoundUp_spec ((hle.trans hnew.le).trans (by decide))
  have hlimit : newsz < Word.size := lt_trans hnew (by decide)
  by_cases heq : oldsz = newsz
  · have hnone : frames = [] := by
      apply List.length_eq_zero_iff.mp
      unfold pgSize at hroom
      omega
    rw [hnone] at hentered
    refine ⟨⟨kmem, pgdir⟩, ?_, fun b hb ↦ translate_congr ?_, rfl, rfl⟩
    · rw [deallocuvm, if_pos (by omega), heq]
      rfl
    · rw [hentered b hb, if_neg (by simp)]
  · obtain ⟨final, released, hcall, -⟩ := @deallocuvm_returns ⟨kmem, pgdir⟩ newsz oldsz
      (hnew.le.trans (by decide)) (by omega) fun b hab hb ↦
        hentered.isFrame_of_present hframes (lt_trans hb hlimit) (habsent b hab (lt_trans hb hnew))
    refine ⟨final, hcall, fun b hb ↦ ?_, deallocuvm_tablePages (hnew.le.trans (by decide)) hcall,
      (deallocuvm_moves hnew.le hcall).frames_eq⟩
    rw [deallocuvm_translate hnew.le (by omega) hcall hb]
    split
    · rename_i hin
      have hstart := habsent b hin.1 (by unfold heapLimit pgSize at *; omega)
      rw [translate_of_absent hstart]
    · apply translate_congr
      rw [hentered b hb, List.length_map, if_neg (by unfold pgSize at *; omega)]

end Undo

section Loop

variable {oldsz newsz : ℕ}

theorem add_pages_lt {first done remaining limit : ℕ}
    (h : first + (done + (remaining + 1)) * pgSize < limit + pgSize) :
    first + done * pgSize < limit := by
  have hpages : (done + (remaining + 1)) * pgSize =
      done * pgSize + remaining * pgSize + pgSize := by
    rw [Nat.add_mul, Nat.succ_mul, Nat.add_assoc]
  omega

/-- An iteration of `allocuvm` on an unmapped page: there is no free page, or the only one is needed
twice, or the page is entered. -/
theorem allocuvmLoop_step {remaining a : ℕ} {vm : Vm} (haligned : a % pgSize = 0)
    (ha : a < heapLimit) (habsent : isPresent (vm.pgdir.pte a) = false) :
    (vm.kmem.freelist = [] ∧ allocuvmLoop oldsz newsz (remaining + 1) vm a = (do
        let cut ← deallocuvm vm newsz oldsz
        pure (cut.1, false))) ∨
      (∃ mem kmem, vm.kmem.kalloc = some (mem, kmem) ∧ kmem.freelist = [] ∧
        vm.pgdir.hasTable a = false ∧ allocuvmLoop oldsz newsz (remaining + 1) vm a = (do
          let cut ← deallocuvm ⟨kmem.memset mem 0 pgSize, vm.pgdir⟩ newsz oldsz
          let kmem ← cut.1.kmem.kfree mem
          pure (⟨kmem, cut.1.pgdir⟩, false))) ∨
      ∃ mem kmem mapped, vm.kmem.kalloc = some (mem, kmem) ∧
        mapPage ⟨kmem.memset mem 0 pgSize, vm.pgdir⟩ a (userEntry mem) = .ok (some mapped) ∧
        allocuvmLoop oldsz newsz (remaining + 1) vm a =
          allocuvmLoop oldsz newsz remaining mapped (a + pgSize) := by
  have hword : a < Word.size := lt_trans ha (by decide)
  have hnext : Word.add a pgSize = a + pgSize := by
    apply Word.add_eq
    unfold heapLimit pgSize Word.size at *
    omega
  cases hkalloc : vm.kmem.kalloc with
  | none =>
    refine Or.inl ⟨kalloc_eq_none.mp hkalloc, ?_⟩
    rw [allocuvmLoop, hkalloc]
  | some pair =>
    obtain ⟨mem, kmem⟩ := pair
    have hloop : allocuvmLoop oldsz newsz (remaining + 1) vm a = (do
        let mapped ← mappages ⟨kmem.memset mem 0 pgSize, vm.pgdir⟩ a pgSize (v2p mem)
          (pteW ||| pteU)
        if mapped.2 then allocuvmLoop oldsz newsz remaining mapped.1 (a + pgSize)
        else do
          let cut ← deallocuvm mapped.1 newsz oldsz
          let kmem ← cut.1.kmem.kfree mem
          pure (⟨kmem, cut.1.pgdir⟩, false)) := by
      rw [allocuvmLoop, hkalloc, hnext]
    rw [mappages_page haligned hword] at hloop
    right
    rcases @mapPage_of_absent ⟨kmem.memset mem 0 pgSize, vm.pgdir⟩ a (userEntry mem) habsent with
      ⟨hnone, hmissing, hempty⟩ | ⟨mapped, hmap⟩
    · left
      refine ⟨mem, kmem, rfl, hempty, hmissing, ?_⟩
      rw [hloop, show v2p mem ||| (pteW ||| pteU) ||| pteP = userEntry mem from rfl, hnone]
      rfl
    · right
      refine ⟨mem, kmem, mapped, rfl, hmap, ?_⟩
      rw [hloop, show v2p mem ||| (pteW ||| pteU) ||| pteP = userEntry mem from rfl, hmap]
      rfl

/-- The loop enters all pages if there is a page for each and for each missing page table, and
otherwise gives back what it has taken. -/
theorem allocuvmLoop_outcome {start : Vm} (hle : oldsz ≤ newsz) (hnew : newsz < heapLimit)
    (habsent : ∀ b, pgRoundUp oldsz ≤ b → b < heapLimit → isPresent (start.pgdir.pte b) = false)
    {remaining : ℕ} {frames : List ℕ} {vm : Vm} (hgrown : start.Grown (pgRoundUp oldsz) frames vm)
    (hroom : pgRoundUp oldsz + (frames.length + remaining) * pgSize < newsz + pgSize) :
    ∃ next ok, allocuvmLoop oldsz newsz remaining vm (pgRoundUp oldsz + frames.length * pgSize) =
      .ok (next, ok) ∧ (ok = true ↔ remaining + (vm.pgdir.absentTables (pgRoundUp oldsz +
      frames.length * pgSize) remaining).card ≤ vm.kmem.freelist.length) ∧ (ok = true → ∃ more,
      more.length = remaining ∧ start.Grown (pgRoundUp oldsz) (frames ++ more) next) ∧ (ok = false →
      start.Restored next) := by
  obtain ⟨hfirst, -, -⟩ := pgRoundUp_spec ((hle.trans hnew.le).trans (by decide))
  induction remaining generalizing frames vm with
  | zero =>
    refine ⟨vm, true, rfl, ?_, fun _ ↦ ⟨[], rfl, (List.append_nil frames).symm ▸ hgrown⟩, ?_⟩
    · rw [absentTables_zero]
      simp
    · intro hfalse
      cases hfalse
  | succ remaining ih =>
    have hbelow := add_pages_lt hroom
    have hroom' := Nat.lt_add_right pgSize hbelow
    have haligned : (pgRoundUp oldsz + frames.length * pgSize) % pgSize = 0 := by
      rw [Nat.add_mul_mod_self_right]
      exact hfirst
    have hword : pgRoundUp oldsz + frames.length * pgSize < Word.size :=
      lt_trans (hbelow.trans hnew) (by decide)
    have hunmapped : isPresent (vm.pgdir.pte (pgRoundUp oldsz + frames.length * pgSize)) =
        false := by
      rw [hgrown.entered _ hword, Nat.add_mul_div_right _ _ (by decide : 0 < pgSize),
        List.length_map, if_neg (by omega)]
      exact habsent _ (Nat.le_add_right _ _) (hbelow.trans hnew)
    obtain ⟨hempty, hloop⟩ | ⟨mem, kmem, hkalloc, hempty, hmissing, hloop⟩ |
        ⟨mem, kmem, mapped, hkalloc, hmap, hloop⟩ :=
      @allocuvmLoop_step oldsz newsz remaining _ vm haligned (hbelow.trans hnew) hunmapped
    · obtain ⟨final, hdealloc, htranslate, htables, hframes⟩ := deallocuvm_entered vm.kmem hle hnew
        habsent hgrown.entered hgrown.isFrame hroom'
      refine ⟨final, false, ?_, iff_of_false Bool.false_ne_true ?_, fun h ↦ (by cases h), fun _ ↦ ?_⟩
      · rw [hloop, hdealloc]
        rfl
      · rw [hempty, List.length_nil]
        omega
      · exact Vm.Restored.of_frames htranslate (hgrown.tables.trans_eq htables.symm)
          (hframes.trans hgrown.conserved)
    · obtain ⟨final, hdealloc, htranslate, htables, hframes⟩ := deallocuvm_entered
        (kmem.memset mem 0 pgSize) hle hnew habsent hgrown.entered hgrown.isFrame hroom'
      obtain ⟨freed, hkfree, hfree⟩ := final.kmem.kfree_of_isFrame (isFrame_of_kalloc hkalloc)
      refine ⟨⟨freed, final.pgdir⟩, false, ?_, iff_of_false Bool.false_ne_true ?_,
        fun h ↦ (by cases h), fun _ ↦ ?_⟩
      · rw [hloop, hdealloc, ok_bind]
        rw [hkfree]
        rfl
      · have hcard : 0 < (vm.pgdir.absentTables (pgRoundUp oldsz + frames.length * pgSize)
            (remaining + 1)).card := by
          apply Finset.card_pos.mpr
          refine ⟨_, mem_absentTables.mpr ⟨0, Nat.succ_pos _, rfl, ?_⟩⟩
          rwa [Nat.zero_mul, Nat.add_zero]
        rw [(kalloc_eq_some.mp hkalloc).1, hempty]
        simp only [List.length_cons, List.length_nil]
        omega
      · refine @Vm.Restored.of_frames start ⟨freed, final.pgdir⟩ htranslate
          (hgrown.tables.trans_eq htables.symm) ?_
        rw [← hgrown.conserved, Vm.frames_of_kalloc hkalloc (memset_freelist _ _ _ _), ← hframes]
        unfold Vm.frames
        rw [freelist_of_kfree hkfree, add_assoc]
    · obtain ⟨tables, hmaps⟩ := mapPage_mapsPage hword hmap
      have hframes := (mapPage_moves hmap (hbelow.trans hnew)).frames
      have hmem : pteFrames (userEntry mem) = {mem} :=
        pteFrames_entry (isFrame_of_kalloc hkalloc) (by decide)
      rw [hmem, add_zero] at hframes
      have hlength : (frames ++ [mem]).length = frames.length + 1 := by simp
      have hcount : (frames ++ [mem]).length + remaining = frames.length + (remaining + 1) := by
        omega
      have hnext : pgRoundUp oldsz + frames.length * pgSize + pgSize =
          pgRoundUp oldsz + (frames ++ [mem]).length * pgSize := by
        rw [hlength, Nat.succ_mul, Nat.add_assoc]
      obtain ⟨next, ok, hrest, hok, hdone, hfailed⟩ :=
        ih (hgrown.snoc hkalloc hmaps hframes) (hcount.symm ▸ hroom)
      refine ⟨next, ok, ?_, ?_, fun h ↦ ?_, hfailed⟩
      · rw [hloop, hnext]
        exact hrest
      · have hfree : vm.kmem.freelist.length = 1 + tables.length + mapped.kmem.freelist.length := by
          rw [(kalloc_eq_some.mp hkalloc).1, List.length_cons,
            ← memset_freelist kmem mem 0 pgSize, hmaps.zeroes.freelist, List.length_append]
          omega
        have hcard := @MapsPage.absentTables _ _ _ _ remaining _ hmaps
        rw [hok, hfree, hcard, ← hnext]
        omega
      · obtain ⟨more, hmore, hgrown'⟩ := hdone h
        refine ⟨mem :: more, by rw [List.length_cons, hmore], ?_⟩
        rwa [List.append_assoc, List.singleton_append] at hgrown'

end Loop

/-- The free pages that growing takes: the pages and their page tables. -/
def Pgdir.growthDemand (pgdir : Pgdir) (oldsz newsz : ℕ) : ℕ :=
  pagesBetween oldsz newsz + (pgdir.absentTables (pgRoundUp oldsz) (pagesBetween oldsz newsz)).card

section Allocuvm

variable {vm : Vm} {oldsz newsz : ℕ}

theorem allocuvm_outcome (hle : oldsz ≤ newsz) (hnew : newsz < heapLimit)
    (habsent : ∀ b, pgRoundUp oldsz ≤ b → b < heapLimit → isPresent (vm.pgdir.pte b) = false) :
    ∃ next ok, allocuvm vm oldsz newsz = .ok (next, if ok then newsz else 0) ∧
      (ok = true ↔ vm.pgdir.growthDemand oldsz newsz ≤ vm.kmem.freelist.length) ∧
      (ok = true → ∃ frames, frames.length = pagesBetween oldsz newsz ∧
        vm.Grown (pgRoundUp oldsz) frames next) ∧
      (ok = false → vm.Restored next) := by
  have hroom := (pagesBetween_room hle (hnew.le.trans (by decide))).1
  obtain ⟨next, ok, hloop, hok, hdone, hfailed⟩ := allocuvmLoop_outcome hle hnew habsent
    (Vm.Grown.nil vm (pgRoundUp oldsz)) (show _ + (0 + pagesBetween oldsz newsz) * pgSize < _ by
      rwa [Nat.zero_add])
  rw [List.length_nil, Nat.zero_mul, Nat.add_zero] at hloop hok
  refine ⟨next, ok, ?_, hok, hdone, hfailed⟩
  unfold allocuvm
  rw [if_neg (Nat.not_le.mpr hnew), if_neg (Nat.not_lt.mpr hle)]
  dsimp only
  rw [show (newsz - pgRoundUp oldsz + (pgSize - 1)) / pgSize = pagesBetween oldsz newsz from rfl,
    hloop]
  rfl

/-- The pages up to `newsz` have been added, each with a zeroed frame of its own, and can be taken
away again. -/
structure Vm.GrowsTo (vm : Vm) (oldsz newsz : ℕ) (frames : List ℕ) (next : Vm) : Prop where
  length : frames.length = pagesBetween oldsz newsz
  added : ∀ b, pgRoundUp oldsz ≤ b → b / pgSize * pgSize < newsz →
    next.pgdir.translate b =
      some (userEntry (frames.getD (b / pgSize - pgRoundUp oldsz / pgSize) 0))
  others : ∀ b < Word.size, b < pgRoundUp oldsz ∨ newsz ≤ b / pgSize * pgSize →
    next.pgdir.translate b = vm.pgdir.translate b
  own : vm.kmem.freelist.Nodup → frames.Nodup
  taken : (frames : Multiset ℕ) + ((next.kmem.freelist : Multiset ℕ) + next.pgdir.tablePages) =
    (vm.kmem.freelist : Multiset ℕ) + vm.pgdir.tablePages
  mapped : ∀ v ∈ frames, IsFrame v ∧ p2v (pteAddr (userEntry v)) = v
  zero : ∀ v ∈ frames, ∀ a, InPage v a → next.kmem.bytes a = 0
  undo : ∃ final, deallocuvm next newsz oldsz = .ok (final, oldsz) ∧ vm.Restored final

theorem Vm.GrowsTo.frame_mem {next : Vm} {frames : List ℕ} {b : ℕ} (hle : oldsz ≤ newsz)
    (hnew : newsz < heapLimit) (h : vm.GrowsTo oldsz newsz frames next)
    (hb : pgRoundUp oldsz ≤ b) (hbelow : b / pgSize * pgSize < newsz) :
    frames.getD (b / pgSize - pgRoundUp oldsz / pgSize) 0 ∈ frames := by
  obtain ⟨haligned, -, -⟩ := pgRoundUp_spec ((hle.trans hnew.le).trans (by decide))
  obtain ⟨-, hcovers⟩ := pagesBetween_room hle (hnew.le.trans (by decide))
  have hlt : b / pgSize - pgRoundUp oldsz / pgSize < frames.length := by
    rw [h.length]
    unfold pgSize at *
    omega
  rw [List.getD_eq_getElem _ _ hlt]
  exact List.getElem_mem hlt

theorem Vm.Grown.growsTo {next : Vm} {frames : List ℕ} (hle : oldsz ≤ newsz)
    (hnew : newsz < heapLimit)
    (habsent : ∀ b, pgRoundUp oldsz ≤ b → b < heapLimit → isPresent (vm.pgdir.pte b) = false)
    (hlength : frames.length = pagesBetween oldsz newsz)
    (h : vm.Grown (pgRoundUp oldsz) frames next) : vm.GrowsTo oldsz newsz frames next := by
  obtain ⟨haligned, -, -⟩ := pgRoundUp_spec ((hle.trans hnew.le).trans (by decide))
  obtain ⟨hroom, hcovers⟩ := pagesBetween_room hle (hnew.le.trans (by decide))
  have hin (b : ℕ) : (pgRoundUp oldsz / pgSize ≤ b / pgSize ∧
      b / pgSize < pgRoundUp oldsz / pgSize + frames.length) ↔
        pgRoundUp oldsz ≤ b ∧ b / pgSize * pgSize < newsz := by
    rw [hlength]
    unfold pgSize at *
    omega
  refine ⟨hlength, fun b hb hbelow ↦ ?_, fun b hb hout ↦ ?_, h.nodup, h.freelist,
    fun v hv ↦ ⟨h.isFrame v hv, p2v_userEntry (h.isFrame v hv)⟩, h.zero, ?_⟩
  · have hpage := (hin b).mpr ⟨hb, hbelow⟩
    have hword : b < Word.size := by
      unfold heapLimit pgSize Word.size at *
      omega
    have hentry := h.entered b hword
    rw [List.length_map, if_pos hpage, List.getD_eq_getElem _ _ (by rw [List.length_map]; omega),
      List.getElem_map, ← List.getD_eq_getElem _ 0] at hentry
    rw [translate_of_present (by rw [hentry]; exact isPresent_userEntry _), hentry]
  · apply translate_congr
    rw [h.entered b hb, List.length_map, if_neg fun hpage ↦ ?_]
    have hbetween := (hin b).mp hpage
    omega
  · obtain ⟨final, hdealloc, htranslate, htables, hframes⟩ := deallocuvm_entered next.kmem hle hnew
      habsent h.entered h.isFrame (hlength.symm ▸ hroom)
    exact ⟨final, hdealloc, Vm.Restored.of_frames htranslate (h.tables.trans_eq htables.symm)
      (hframes.trans h.conserved)⟩

/-- `allocuvm` returns: zero, with everything as before and the user pages free again; or a larger
size, with exactly the pages up to there added. -/
theorem allocuvm_all_or_nothing (vm : Vm) (oldsz newsz : ℕ)
    (habsent : ∀ b, pgRoundUp oldsz ≤ b → b < heapLimit → isPresent (vm.pgdir.pte b) = false) :
    ∃ next size, allocuvm vm oldsz newsz = .ok (next, size) ∧
      (size = 0 ∧ vm.Restored next ∨ newsz ≤ oldsz ∧ size = oldsz ∧ next = vm ∨
        oldsz < newsz ∧ size = newsz ∧ ∃ frames, vm.GrowsTo oldsz newsz frames next) := by
  by_cases hlimit : newsz < heapLimit
  · rcases Nat.lt_trichotomy oldsz newsz with hless | rfl | hmore
    · obtain ⟨next, ok, hcall, -, hdone, hfailed⟩ := allocuvm_outcome hless.le hlimit habsent
      cases ok with
      | true =>
        obtain ⟨frames, hlength, hgrown⟩ := hdone rfl
        exact ⟨next, newsz, hcall, Or.inr (Or.inr ⟨hless, rfl, frames,
          hgrown.growsTo hless.le hlimit habsent hlength⟩)⟩
      | false => exact ⟨next, 0, hcall, Or.inl ⟨rfl, hfailed rfl⟩⟩
    · obtain ⟨-, hup, -⟩ := pgRoundUp_spec (hlimit.le.trans (by decide))
      have hnone : (oldsz - pgRoundUp oldsz + (pgSize - 1)) / pgSize = 0 := by
        rw [Nat.sub_eq_zero_of_le hup]
        decide
      refine ⟨vm, oldsz, ?_, Or.inr (Or.inl ⟨le_rfl, rfl, rfl⟩)⟩
      unfold allocuvm
      rw [if_neg (by omega), if_neg (by omega)]
      dsimp only
      rw [hnone]
      rfl
    · refine ⟨vm, oldsz, ?_, Or.inr (Or.inl ⟨hmore.le, rfl, rfl⟩)⟩
      unfold allocuvm
      rw [if_neg (by omega), if_pos hmore]
      rfl
  · refine ⟨vm, 0, ?_, Or.inl ⟨rfl, Vm.Restored.refl vm⟩⟩
    unfold allocuvm
    rw [if_pos (by omega)]
    rfl

end Allocuvm

/-- An empty address space with two free pages. -/
def smallVm : Vm where
  kmem := ⟨[0x80400000, 0x80401000], fun _ ↦ 0, by decide⟩
  pgdir := ⟨0x80402000, fun _ ↦ none⟩

/-- One page and its page table. -/
theorem allocuvm_first_page : ∃ next frames, allocuvm smallVm 0 4096 = .ok (next, 4096) ∧
    smallVm.GrowsTo 0 4096 frames next := by
  obtain ⟨next, size, hcall, hcases⟩ := allocuvm_all_or_nothing smallVm 0 4096
    fun _ _ _ ↦ isPresent_zero
  obtain ⟨_, hcall'⟩ : ∃ next, allocuvm smallVm 0 4096 = .ok (next, 4096) := by
    decide +kernel
  cases hcall.symm.trans hcall'
  obtain ⟨hzero, -⟩ | ⟨hless, -⟩ | ⟨-, -, frames, hgrows⟩ := hcases
  · cases hzero
  · exact absurd hless (by decide)
  · exact ⟨next, frames, hcall, hgrows⟩

end Xv6Shm
