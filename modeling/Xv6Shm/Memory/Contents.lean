import Xv6Shm.Memory.Teardown

/-!
# What the functions of vm.c write

A page from the free list is filled at once, with zeros or with a copy, and nothing else is written
while an address space is built; pages that are given back are filled with junk. The relations say
which pages a function has taken or given back and that no other byte has changed.
-/

namespace Xv6Shm

open Fallible

/-- The pages `taken` come off the free list, and nothing else is written. -/
structure Kmem.Takes (kmem next : Kmem) (taken : List ℕ) : Prop where
  freelist : kmem.freelist = taken ++ next.freelist
  kept : ∀ a, (∀ v ∈ taken, ¬ InPage v a) → next.bytes a = kmem.bytes a

/-- The pages taken are filled with zeros. -/
structure Kmem.Zeroes (kmem next : Kmem) (taken : List ℕ) : Prop extends kmem.Takes next taken where
  zero : ∀ v ∈ taken, ∀ a, InPage v a → next.bytes a = 0

namespace Kmem

variable {kmem middle next : Kmem} {taken others : List ℕ}

theorem Takes.refl (kmem : Kmem) : kmem.Takes kmem [] := ⟨rfl, fun _ _ ↦ rfl⟩

theorem Takes.trans (h : kmem.Takes middle taken) (h' : middle.Takes next others) :
    kmem.Takes next (taken ++ others) where
  freelist := by rw [h.freelist, h'.freelist, List.append_assoc]
  kept a ha := by
    rw [h'.kept a fun v hv ↦ ha v (List.mem_append_right _ hv),
      h.kept a fun v hv ↦ ha v (List.mem_append_left _ hv)]

theorem Takes.isFrame (h : kmem.Takes next taken) : ∀ v ∈ taken, IsFrame v := by
  intro v hv
  apply kmem.isFrame
  rw [h.freelist]
  exact List.mem_append_left _ hv

theorem Zeroes.refl (kmem : Kmem) : kmem.Zeroes kmem [] :=
  ⟨Takes.refl kmem, fun _ hv ↦ absurd hv List.not_mem_nil⟩

theorem Zeroes.trans (h : kmem.Zeroes middle taken) (h' : middle.Zeroes next others) :
    kmem.Zeroes next (taken ++ others) where
  toTakes := h.toTakes.trans h'.toTakes
  zero v hv a ha := by
    by_cases hlater : ∃ w ∈ others, InPage w a
    · obtain ⟨w, hw, hwa⟩ := hlater
      exact h'.zero w hw a hwa
    · rw [h'.kept a fun w hw hwa ↦ hlater ⟨w, hw, hwa⟩]
      rcases List.mem_append.mp hv with hfirst | hsecond
      · exact h.zero v hfirst a ha
      · exact absurd ⟨v, hsecond, ha⟩ hlater

theorem Takes.of_kalloc {rest : Kmem} {v : ℕ} (h : kmem.kalloc = some (v, rest))
    (hlist : next.freelist = rest.freelist)
    (hkept : ∀ a, ¬ InPage v a → next.bytes a = rest.bytes a) : kmem.Takes next [v] where
  freelist := by rw [(kalloc_eq_some.mp h).1, hlist, List.singleton_append]
  kept a ha := by rw [hkept a (ha v (List.mem_singleton_self v)), (kalloc_eq_some.mp h).2]

theorem Zeroes.of_kalloc {rest : Kmem} {v : ℕ} (h : kmem.kalloc = some (v, rest)) :
    kmem.Zeroes (rest.memset v 0 pgSize) [v] where
  toTakes := Takes.of_kalloc h rfl fun _ ha ↦ if_neg ha
  zero w hw a ha := by
    rw [List.mem_singleton.mp hw] at ha
    exact if_pos ha

end Kmem

/-- The entry `pte` has been made for the page of `a`, with the page tables `tables` from the free
list. -/
structure MapsPage (vm : Vm) (a pte : ℕ) (tables : List ℕ) (next : Vm) : Prop where
  entry : ∀ b < Word.size,
    next.pgdir.pte b = if b / pgSize = a / pgSize then pte else vm.pgdir.pte b
  zeroes : vm.kmem.Zeroes next.kmem tables
  pages : next.pgdir.tablePages = (tables : Multiset ℕ) + vm.pgdir.tablePages
  length : tables.length = if vm.pgdir.hasTable a = true then 0 else 1
  hasTable : ∀ b, next.pgdir.hasTable b = true ↔ vm.pgdir.hasTable b = true ∨ pdx b = pdx a

theorem walkpgdir_hasTable_iff {vm next : Vm} {a : ℕ} (h : walkpgdir vm a true = some next) (b : ℕ) :
    next.pgdir.hasTable b = true ↔ vm.pgdir.hasTable b = true ∨ pdx b = pdx a := by
  obtain ⟨htable, rfl⟩ | ⟨pgtab, kmem, -, -, rfl⟩ := walkpgdir_cases h
  · constructor
    · exact Or.inl
    · rintro (hb | hb)
      · exact hb
      · unfold Pgdir.hasTable at *
        rwa [hb]
  · unfold Pgdir.hasTable Pgdir.setTable
    by_cases hb : pdx b = pdx a
    · simp [hb]
    · simp [hb]

theorem mapPage_mapsPage {vm next : Vm} {a pte : ℕ} (ha : a < Word.size)
    (h : mapPage vm a pte = .ok (some next)) : ∃ tables, MapsPage vm a pte tables next := by
  have hentry (b : ℕ) (hb : b < Word.size) := mapPage_pte h ha hb
  obtain ⟨hnone, -⟩ | ⟨walked, hwalk, -, hsome⟩ := mapPage_cases h
  · cases hnone
  cases hsome
  have hhas (b : ℕ) : (walked.pgdir.setPte a pte).hasTable b = true ↔
      vm.pgdir.hasTable b = true ∨ pdx b = pdx a := by
    rw [Pgdir.hasTable_setPte]
    exact walkpgdir_hasTable_iff hwalk b
  obtain ⟨htable, rfl⟩ | ⟨pgtab, kmem, hnone, hkalloc, rfl⟩ := walkpgdir_cases hwalk
  · refine ⟨[], hentry, Kmem.Zeroes.refl _, ?_, ?_, hhas⟩
    · rw [Pgdir.tablePages_setPte, Multiset.coe_nil, zero_add]
    · rw [if_pos htable, List.length_nil]
  · refine ⟨[pgtab], hentry, Kmem.Zeroes.of_kalloc hkalloc, ?_, ?_, hhas⟩
    · rw [Pgdir.tablePages_setPte, Pgdir.tablePages_setTable hnone, Multiset.coe_singleton]
    · have hmissing : ¬ vm.pgdir.hasTable a = true := by
        unfold Pgdir.hasTable
        rw [hnone]
        decide
      rw [if_neg hmissing, List.length_singleton]

end Xv6Shm
