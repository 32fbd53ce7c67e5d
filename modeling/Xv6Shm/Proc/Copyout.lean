import Xv6Shm.Memory.Growth
import Xv6Shm.Proc.Exec

/-!
# Copying to user memory

`copyout` splits its range at page boundaries. It stores what storing byte by byte would store, each
where the page table puts its address, and stops at the first page that is not there or not for the
user. But `uva2ka` reads the entry of a page without asking whether there is a page table, and for a
page at the physical address of `KERNBASE` it returns the null pointer.
-/

namespace Xv6Shm

open Fallible Function Pgdir

theorem Kmem.write_cons (kmem : Kmem) (start : ℕ) (byte : UInt8) (rest : List UInt8) :
    (kmem.write start (byte :: rest)).bytes =
      (({ kmem with bytes := update kmem.bytes start byte } : Kmem).write (start + 1) rest).bytes := by
  funext a
  unfold write
  dsimp only
  rcases lt_trichotomy a start with hlt | rfl | hgt
  · rw [if_neg (by omega), if_neg (by omega), update_of_ne hlt.ne]
  · rw [if_pos le_rfl, if_neg (by omega), Nat.sub_self, update_self]
    rfl
  · rw [if_pos hgt.le, if_pos (Nat.succ_le_of_lt hgt), update_of_ne hgt.ne',
      show a - start = a - (start + 1) + 1 by omega, List.getElem?_cons_succ]

namespace Pgdir

/-- The page of the address is present and user-accessible. -/
def Accessible (pgdir : Pgdir) (va : ℕ) : Prop :=
  isPresent (pgdir.pte va) = true ∧ pgdir.pte va &&& pteU ≠ 0

/-- The page of the address is one that `uva2ka` finds. -/
def Reached (pgdir : Pgdir) (va : ℕ) : Prop :=
  pgdir.Accessible va ∧ p2v (pteAddr (pgdir.pte va)) ≠ 0

instance (pgdir : Pgdir) (va : ℕ) : Decidable (pgdir.Accessible va) :=
  inferInstanceAs (Decidable (_ ∧ _))

instance (pgdir : Pgdir) (va : ℕ) : Decidable (pgdir.Reached va) :=
  inferInstanceAs (Decidable (_ ∧ _))

/-- The kernel address of the byte at a user address. -/
def byteAddr (pgdir : Pgdir) (va : ℕ) : ℕ := p2v (pteAddr (pgdir.pte va)) + va % pgSize

/-- Memory after a string was stored byte by byte from `va` on. -/
def store (pgdir : Pgdir) : List UInt8 → ℕ → (ℕ → UInt8) → ℕ → UInt8
  | [], _, bytes => bytes
  | byte :: rest, va, bytes =>
    pgdir.store rest (Word.add va 1) (update bytes (pgdir.byteAddr va) byte)

variable {pgdir : Pgdir} {va : ℕ}

theorem store_append (first second : List UInt8) (hva : va < Word.size) (bytes : ℕ → UInt8) :
    pgdir.store (first ++ second) va bytes =
      pgdir.store second (Word.add va first.length) (pgdir.store first va bytes) := by
  induction first generalizing va bytes with
  | nil => rw [List.length_nil, Word.add_eq hva, List.nil_append, store, Nat.add_zero]
  | cons byte rest ih =>
    rw [List.cons_append, store, ih (Word.add_lt _ _), Word.add_add, List.length_cons,
      Nat.add_comm rest.length 1, store]

theorem add_in_page (hva : va < Word.size) {i : ℕ} (hi : va % pgSize + i < pgSize) :
    Word.add va i = va + i := by
  apply Word.add_eq
  unfold Word.size pgSize at *
  omega

theorem write_eq_store {content : List UInt8} (hva : va < Word.size)
    (hpage : va % pgSize + content.length ≤ pgSize) (kmem : Kmem) :
    (kmem.write (pgdir.byteAddr va) content).bytes = pgdir.store content va kmem.bytes := by
  induction content generalizing va kmem with
  | nil =>
    funext a
    simp [Kmem.write, store]
  | cons byte rest ih =>
    rw [Kmem.write_cons, store]
    cases rest with
    | nil =>
      funext a
      simp [Kmem.write, store]
    | cons next rest =>
      rw [List.length_cons, List.length_cons] at hpage
      have hsame : (va + 1) / pgSize = va / pgSize := by
        unfold pgSize at *
        omega
      have hnext : pgdir.byteAddr (va + 1) = pgdir.byteAddr va + 1 := by
        unfold byteAddr
        rw [pte_congr hsame]
        unfold pgSize at *
        omega
      have hlast : va + 1 < Word.size ∧ (va + 1) % pgSize + (rest.length + 1) ≤ pgSize := by
        unfold Word.size pgSize at *
        omega
      rw [add_in_page hva (by omega), ← hnext, ih hlast.1 hlast.2]

end Pgdir

section Copyout

variable {pgdir : Pgdir} {kmem : Kmem} {va : ℕ} {content : List UInt8}

theorem uva2ka_eq (hva : va < Word.size) : uva2ka pgdir (pgRoundDown va) =
      if pgdir.hasTable va then .ok (if pgdir.Accessible va then p2v (pteAddr (pgdir.pte va)) else 0)
      else .error .nullPointer := by
  have hsame : pgRoundDown va / pgSize = va / pgSize := by
    rw [pgRoundDown_eq hva, Nat.mul_div_cancel _ (by decide)]
  unfold uva2ka Accessible
  rw [hasTable_congr hsame, pte_congr hsame]
  cases pgdir.hasTable va with
  | false => rfl
  | true =>
    rw [if_neg Bool.noConfusion, if_pos rfl]
    by_cases hpresent : isPresent (pgdir.pte va) = true
    · by_cases huser : pgdir.pte va &&& pteU = 0 <;> simp [hpresent, huser]
    · simp [hpresent]

/-- A round: the page is not found, or the bytes up to its end are stored, or all are. -/
theorem copyoutLoop_step {fuel : ℕ} (hva : va < Word.size) (hne : content ≠ []) :
    (¬ pgdir.Reached va ∧ copyoutLoop pgdir (fuel + 1) kmem va content =
      if pgdir.hasTable va then .ok (kmem, false) else .error .nullPointer) ∨
    ∃ count next, 0 < count ∧ count ≤ content.length ∧
      (∀ i < count, pgdir.Reached (Word.add va i)) ∧
      (count < content.length → next = Word.add va count) ∧
      copyoutLoop pgdir (fuel + 1) kmem va content = copyoutLoop pgdir fuel
        { kmem with bytes := pgdir.store (content.take count) va kmem.bytes } next
        (content.drop count) := by
  have hoffset : va - pgRoundDown va = va % pgSize := by
    rw [pgRoundDown_eq hva]
    unfold pgSize
    omega
  have hloop : copyoutLoop pgdir (fuel + 1) kmem va content =
      uva2ka pgdir (pgRoundDown va) >>= fun pa0 ↦ if pa0 = 0 then .ok (kmem, false)
      else copyoutLoop pgdir fuel (kmem.write (pa0 + va % pgSize)
          (content.take (min (pgSize - va % pgSize) content.length)))
        (Word.add (pgRoundDown va) pgSize)
        (content.drop (min (pgSize - va % pgSize) content.length)) := by
    rw [copyoutLoop, if_neg hne]
    dsimp only
    rw [hoffset]
    rfl
  rw [hloop, uva2ka_eq hva]
  by_cases hreached : pgdir.Reached va
  · have htable : pgdir.hasTable va = true := by
      by_contra hnone
      rw [Bool.not_eq_true] at hnone
      have habsent := hreached.1.1
      rw [pte_of_not_hasTable hnone] at habsent
      cases habsent
    have hmod : va % pgSize < pgSize := Nat.mod_lt _ (by decide)
    have hlength := List.length_pos_iff.mpr hne
    refine Or.inr ⟨min (pgSize - va % pgSize) content.length, Word.add (pgRoundDown va) pgSize,
      by omega, Nat.min_le_right _ _, fun i hi ↦ ?_, fun hmore ↦ ?_, ?_⟩
    · rw [add_in_page hva (by omega)]
      have hsame : (va + i) / pgSize = va / pgSize := by
        unfold pgSize at *
        omega
      unfold Reached Accessible at *
      rwa [pte_congr hsame]
    · rw [pgRoundDown_eq hva]
      unfold Word.add pgSize at *
      congr 1
      omega
    · rw [if_pos htable, ok_bind, if_pos hreached.1, if_neg hreached.2,
        ← write_eq_store hva (by rw [List.length_take]; omega)]
      rfl
  · refine Or.inl ⟨hreached, ?_⟩
    cases pgdir.hasTable va with
    | false => rfl
    | true =>
      have hnull : (if pgdir.Accessible va then p2v (pteAddr (pgdir.pte va)) else 0) = 0 := by
        split
        · rename_i haccessible
          exact not_not.mp fun hsome ↦ hreached ⟨haccessible, hsome⟩
        · rfl
      rw [if_pos rfl, ok_bind, hnull, if_pos rfl, if_pos rfl]

/-- The loop stores all bytes, or stops at an address whose page is not found. -/
theorem copyoutLoop_cases {fuel : ℕ} (hfuel : content.length ≤ fuel) (hva : va < Word.size) :
    (∀ i < content.length, pgdir.Reached (Word.add va i)) ∧ copyoutLoop pgdir fuel kmem va content =
        .ok ({ kmem with bytes := pgdir.store content va kmem.bytes }, true) ∨
    ∃ i < content.length, (∀ j < i, pgdir.Reached (Word.add va j)) ∧
      ¬ pgdir.Reached (Word.add va i) ∧ ∃ next, copyoutLoop pgdir fuel kmem va content =
        if pgdir.hasTable (Word.add va i) then .ok (next, false) else .error .nullPointer := by
  induction fuel generalizing content va kmem with
  | zero =>
    have hnil : content = [] := List.eq_nil_of_length_eq_zero (by omega)
    subst hnil
    exact Or.inl ⟨fun i hi ↦ absurd hi (Nat.not_lt_zero i), rfl⟩
  | succ fuel ih =>
    by_cases hne : content = []
    · subst hne
      exact Or.inl ⟨fun i hi ↦ absurd hi (Nat.not_lt_zero i), rfl⟩
    have hself : Word.add va 0 = va := Word.add_eq hva
    rcases @copyoutLoop_step pgdir kmem va content fuel hva hne with ⟨hstop, hloop⟩ |
      ⟨count, next, hpos, hle, hreached, hnext, hloop⟩
    · refine Or.inr ⟨0, List.length_pos_iff.mpr hne, fun j hj ↦ absurd hj (Nat.not_lt_zero j), ?_⟩
      rw [hself]
      exact ⟨hstop, kmem, hloop⟩
    rw [hloop]
    have hstore : pgdir.store (content.drop count) (Word.add va count)
        (pgdir.store (content.take count) va kmem.bytes) = pgdir.store content va kmem.bytes := by
      have happend := @store_append pgdir va (content.take count) (content.drop count) hva
        kmem.bytes
      rw [List.take_append_drop, List.length_take, Nat.min_eq_left hle] at happend
      exact happend.symm
    by_cases hmore : count < content.length
    · rw [hnext hmore]
      have hrest : (content.drop count).length = content.length - count := List.length_drop
      rcases @ih { kmem with bytes := pgdir.store (content.take count) va kmem.bytes } _
        (content.drop count) (by omega) (Word.add_lt va count) with
        ⟨hall, hok⟩ | ⟨i, hi, hbefore, hstop, next, hend⟩
      · rw [hok, hstore]
        refine Or.inl ⟨fun i hi ↦ ?_, rfl⟩
        by_cases hlt : i < count
        · exact hreached i hlt
        · have hthere := hall (i - count) (by omega)
          rwa [Word.add_add, Nat.add_sub_cancel' (not_lt.mp hlt)] at hthere
      · rw [Word.add_add] at hstop hend
        refine Or.inr ⟨count + i, by omega, fun j hj ↦ ?_, hstop, next, hend⟩
        by_cases hlt : j < count
        · exact hreached j hlt
        · have hthere := hbefore (j - count) (by omega)
          rwa [Word.add_add, Nat.add_sub_cancel' (not_lt.mp hlt)] at hthere
    · have hall : count = content.length := by omega
      subst hall
      rw [List.drop_length, List.take_length]
      refine Or.inl ⟨hreached, ?_⟩
      cases fuel with
      | zero => rfl
      | succ fuel => rfl

/-- If all pages of the range are present and user-accessible, `copyout` has stored the bytes and
nothing else; otherwise it has returned -1. -/
def CopiesOut (pgdir : Pgdir) (kmem : Kmem) (va : ℕ) (content : List UInt8)
    (outcome : Except Fault (Kmem × Bool)) : Prop :=
  ((∀ i < content.length, pgdir.Accessible (Word.add va i)) →
    outcome = .ok ({ kmem with bytes := pgdir.store content va kmem.bytes }, true)) ∧
  ((∃ i < content.length, ¬ pgdir.Accessible (Word.add va i)) → ∃ next, outcome = .ok (next, false))

/-- `copyout` does what it should exactly if the first address whose page it does not find, if any,
has a page table, and some page of the range is no user page. -/
theorem copyout_exact_iff (hva : va < Word.size) :
    CopiesOut pgdir kmem va content (copyout kmem pgdir va content) ↔
      ∀ i < content.length, (∀ j < i, pgdir.Reached (Word.add va j)) →
        ¬ pgdir.Reached (Word.add va i) → pgdir.hasTable (Word.add va i) = true ∧
          ∃ j < content.length, ¬ pgdir.Accessible (Word.add va j) := by
  unfold copyout
  rcases @copyoutLoop_cases pgdir kmem va content _ le_rfl hva with ⟨hall, hok⟩ |
    ⟨i, hi, hbefore, hstop, next, hend⟩
  · rw [hok]
    refine iff_of_true ⟨fun _ ↦ rfl, ?_⟩ fun i hi _ hnot ↦ absurd (hall i hi) hnot
    rintro ⟨i, hi, hnot⟩
    exact absurd (hall i hi).1 hnot
  · rw [hend]
    constructor
    · rintro ⟨hstored, hrefused⟩ k hk hreached hnot
      -- there is only one first address
      obtain rfl : k = i := by
        rcases lt_trichotomy k i with hlt | rfl | hgt
        · exact absurd (hbefore k hlt) hnot
        · rfl
        · exact absurd (hreached i hgt) hstop
      by_cases hsome : ∃ j < content.length, ¬ pgdir.Accessible (Word.add va j)
      · refine ⟨?_, hsome⟩
        by_contra htable
        obtain ⟨next', hcall⟩ := hrefused hsome
        rw [if_neg htable] at hcall
        cases hcall
      · push Not at hsome
        have hcall := hstored hsome
        split at hcall <;> cases hcall
    · intro hcondition
      obtain ⟨htable, j, hj, hnot⟩ := hcondition i hi hbefore hstop
      rw [if_pos htable]
      exact ⟨fun hall ↦ absurd (hall j hj) hnot, fun _ ↦ ⟨next, rfl⟩⟩

/-- Without a page table there is no entry to read. -/
theorem copyout_reads_missing_table :
    copyout smallVm.kmem smallVm.pgdir 0 [7] = .error .nullPointer ∧
      ¬ smallVm.pgdir.Accessible (Word.add 0 0) :=
  ⟨rfl, by decide⟩

/-- Two bytes are stored in the only page of a process. -/
theorem copyout_exact_first_page : ∃ vm, allocuvm smallVm 0 4096 = .ok (vm, 4096) ∧
    CopiesOut vm.pgdir vm.kmem 0 [7, 8] (copyout vm.kmem vm.pgdir 0 [7, 8]) := by
  obtain ⟨vm, hcall, hreached⟩ : ∃ vm, allocuvm smallVm 0 4096 = .ok (vm, 4096) ∧
      ∀ i < 2, vm.pgdir.Reached (Word.add 0 i) := by
    decide +kernel
  exact ⟨vm, hcall, (copyout_exact_iff (by decide)).mpr fun i hi _ hnot ↦
    absurd (hreached i hi) hnot⟩

end Copyout

end Xv6Shm
