import Xv6Shm.Memory.PageTable

/-!
# User address spaces

The functions of `vm.c` that build, grow, shrink, copy and release the address space of a process.
Each returns the allocator with its result, because a failing call has taken and given back pages. A
null page directory or a zero size is a case of the result.
-/

namespace Xv6Shm

open Fallible

/-- The loop of `deallocuvm` at `a`. An absent page table is skipped to the next directory entry. -/
def deallocuvmLoop (oldsz : ℕ) : ℕ → Vm → ℕ → Except Fault Vm
  | 0, vm, a => if a < oldsz then .error .blocked else pure vm
  | fuel + 1, vm, a =>
    if a < oldsz then
      if vm.pgdir.hasTable a then
        if isPresent (vm.pgdir.pte a) then
          if pteAddr (vm.pgdir.pte a) = 0 then .error (.panic "kfree")
          else do
            let kmem ← vm.kmem.kfree (p2v (pteAddr (vm.pgdir.pte a)))
            deallocuvmLoop oldsz fuel ⟨kmem, vm.pgdir.setPte a 0⟩ (Word.add a pgSize)
        else deallocuvmLoop oldsz fuel vm (Word.add a pgSize)
      else
        deallocuvmLoop oldsz fuel vm (Word.add (Word.sub (pgAddr (pdx a + 1)) pgSize) pgSize)
    else pure vm

/-- Release the user pages between the sizes and return the new size. Each iteration passes at least
one of the `2 ^ 20` pages. -/
def deallocuvm (vm : Vm) (oldsz newsz : ℕ) : Except Fault (Vm × ℕ) :=
  if newsz ≥ oldsz then pure (vm, oldsz)
  else do
    let vm ← deallocuvmLoop oldsz (2 ^ 20) vm (pgRoundUp newsz)
    pure (vm, newsz)

/-- Release the page tables of a directory, in the order of their entries. -/
def freeTables (pgdir : Pgdir) (kmem : Kmem) : ℕ → Except Fault Kmem
  | 0 => pure kmem
  | index + 1 => do
    let kmem ← freeTables pgdir kmem index
    match pgdir.tables index with
    | none => pure kmem
    | some table => kmem.kfree table.page

/-- Release a page directory with its page tables and the private user pages. -/
def freevm (vm : Vm) : Except Fault Kmem := do
  let (vm, _) ← deallocuvm vm heapLimit 0
  let kmem ← freeTables vm.pgdir vm.kmem npdEntries
  kmem.kfree vm.pgdir.page

/-- One row of the table of kernel mappings. -/
structure Kmap where
  virt : ℕ
  physStart : ℕ
  physEnd : ℕ
  perm : ℕ

def kmap : List Kmap :=
  [⟨kernBase, 0, extMem, pteW⟩, ⟨kernLink, v2p kernLink, v2p kernData, 0⟩,
   ⟨kernData, v2p kernData, physTop, pteW⟩,
   ⟨devSpace, devSpace, 0, pteW⟩]

def setupkvmLoop : List Kmap → Vm → Except Fault (Vm × Bool)
  | [], vm => pure (vm, true)
  | k :: rest, vm => do
    let (vm, ok) ← mappages vm k.virt (Word.sub k.physEnd k.physStart) k.physStart k.perm
    if ok then setupkvmLoop rest vm else pure (vm, false)

/-- Set up the kernel part of a new page table. -/
def setupkvm (kmem : Kmem) : Except Fault (Kmem × Option Pgdir) :=
  match kmem.kalloc with
  | none => pure (kmem, none)
  | some (page, kmem) =>
    if p2v physTop > devSpace then .error (.panic "PHYSTOP too high")
    else do
      let empty : Vm := ⟨kmem.memset page 0 pgSize, ⟨page, fun _ ↦ none⟩⟩
      let (vm, ok) ← setupkvmLoop kmap empty
      if ok then pure (vm.kmem, some vm.pgdir)
      else do
        let kmem ← freevm vm
        pure (kmem, none)

/-- The loop of `allocuvm` over the pages still to be added from `a` on. -/
def allocuvmLoop (oldsz newsz : ℕ) : ℕ → Vm → ℕ → Except Fault (Vm × Bool)
  | 0, vm, _ => pure (vm, true)
  | remaining + 1, vm, a =>
    match vm.kmem.kalloc with
    | none => do
      let (vm, _) ← deallocuvm vm newsz oldsz
      pure (vm, false)
    | some (mem, kmem) => do
      let (vm, ok) ← mappages ⟨kmem.memset mem 0 pgSize, vm.pgdir⟩ a pgSize (v2p mem) (pteW ||| pteU)
      if ok then allocuvmLoop oldsz newsz remaining vm (Word.add a pgSize)
      else do
        let (vm, _) ← deallocuvm vm newsz oldsz
        let kmem ← vm.kmem.kfree mem
        pure (⟨kmem, vm.pgdir⟩, false)

/-- Grow from `oldsz` to `newsz`; returns the new size, or zero on an error. -/
def allocuvm (vm : Vm) (oldsz newsz : ℕ) : Except Fault (Vm × ℕ) :=
  if newsz ≥ heapLimit then pure (vm, 0)
  else if newsz < oldsz then pure (vm, oldsz)
  else do
    let a := pgRoundUp oldsz
    let (vm, ok) ← allocuvmLoop oldsz newsz ((newsz - a + (pgSize - 1)) / pgSize) vm a
    pure (vm, if ok then newsz else 0)

/-- The loop of `copyuvm` over the pages still to be copied from `i` on. -/
def copyuvmLoop (parent : Pgdir) : ℕ → Vm → ℕ → Except Fault (Vm × Bool)
  | 0, vm, _ => pure (vm, true)
  | remaining + 1, vm, i =>
    if parent.hasTable i = false then .error (.panic "copyuvm: pte should exist")
    else if isPresent (parent.pte i) = false then .error (.panic "copyuvm: page not present")
    else
      match vm.kmem.kalloc with
      | none => pure (vm, false)
      | some (mem, kmem) => do
        let kmem := kmem.memmove mem (p2v (pteAddr (parent.pte i))) pgSize
        let (vm, ok) ← mappages ⟨kmem, vm.pgdir⟩ i pgSize (v2p mem) (pteFlags (parent.pte i))
        if ok then copyuvmLoop parent remaining vm (Word.add i pgSize)
        else do
          let kmem ← vm.kmem.kfree mem
          pure (⟨kmem, vm.pgdir⟩, false)

/-- Copy the pages below `sz` of a parent's page table for a child. -/
def copyuvm (kmem : Kmem) (parent : Pgdir) (sz : ℕ) : Except Fault (Kmem × Option Pgdir) := do
  match ← setupkvm kmem with
  | (kmem, none) => pure (kmem, none)
  | (kmem, some d) =>
    let (vm, ok) ← copyuvmLoop parent ((sz + (pgSize - 1)) / pgSize) ⟨kmem, d⟩ 0
    if ok then pure (vm.kmem, some vm.pgdir)
    else do
      let kmem ← freevm vm
      pure (kmem, none)

end Xv6Shm
