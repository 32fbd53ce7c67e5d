import Xv6Shm.Lib.Word

/-!
# Memory layout and address macros

The constants and address macros of `memlayout.h`, `mmu.h` and `param.h`. Addresses and page-table
entries are unsigned words. The link-time symbols `data` and `end` have the values that the
repository's `kernel.sym` gives them.
-/

namespace Xv6Shm

def extMem : ℕ := 0x100000
def physTop : ℕ := 0xE000000
def devSpace : ℕ := 0xFE000000
def kernBase : ℕ := 0x80000000
def kernLink : ℕ := kernBase + extMem

/-- Heaps end here; the pages from here to `kernBase` are for shared memory. -/
def heapLimit : ℕ := 0x7F000000
def shmMaxSeg : ℕ := 4096
def shmMin : ℕ := 1024
def maxSegSize : ℕ := 16 * 1024 * 1024

def pgSize : ℕ := 4096
def npdEntries : ℕ := 1024

def pteP : ℕ := 0x001
def pteW : ℕ := 0x002
def pteU : ℕ := 0x004

def nProc : ℕ := 64
def nOfile : ℕ := 16
def maxArg : ℕ := 32

/-- The start of the kernel's data section. -/
def kernData : ℕ := 0x80109000

/-- The first address after the kernel image. -/
def kernEnd : ℕ := 0x8033e550

/-- `V2P`: the physical address of a kernel virtual address. -/
def v2p (a : ℕ) : ℕ := Word.sub a kernBase

/-- `P2V`: the kernel virtual address of a physical address. -/
def p2v (a : ℕ) : ℕ := Word.add a kernBase

def pgRoundUp (sz : ℕ) : ℕ := Word.add sz (pgSize - 1) &&& Word.highMask 12
def pgRoundDown (a : ℕ) : ℕ := a &&& Word.highMask 12

/-- Page directory index. -/
def pdx (va : ℕ) : ℕ := (va >>> 22) &&& 0x3FF

/-- Page table index. -/
def ptx (va : ℕ) : ℕ := (va >>> 12) &&& 0x3FF

/-- `PGADDR(d, 0, 0)`: the first address that directory entry `d` covers. -/
def pgAddr (d : ℕ) : ℕ := (d <<< 22) % Word.size

def pteAddr (pte : ℕ) : ℕ := pte &&& Word.highMask 12
def pteFlags (pte : ℕ) : ℕ := pte &&& 0xFFF

/-- The `PTE_P` bit of an entry. -/
def isPresent (pte : ℕ) : Bool := pte &&& pteP != 0

variable {a : ℕ}

theorem p2v_v2p (h : a < Word.size) : p2v (v2p a) = a := by
  unfold p2v v2p Word.add Word.sub Word.size kernBase at *
  omega

/-- The kernel half is half of all addresses, so converting twice is the identity. -/
theorem v2p_v2p (h : a < Word.size) : v2p (v2p a) = a := by
  unfold v2p Word.sub Word.size kernBase at *
  omega

theorem v2p_of_lt (h : a < kernBase) : v2p a = a + kernBase := by
  unfold v2p Word.sub Word.size kernBase at *
  omega

theorem v2p_of_ge (hge : kernBase ≤ a) (h : a < Word.size) : v2p a = a - kernBase :=
  Word.sub_eq hge h

theorem pdx_eq (va : ℕ) : pdx va = va / 2 ^ 22 % 1024 := by
  unfold pdx
  rw [Nat.shiftRight_eq_div_pow]
  exact Nat.and_two_pow_sub_one_eq_mod (va / 2 ^ 22) 10

theorem ptx_eq (va : ℕ) : ptx va = va / 2 ^ 12 % 1024 := by
  unfold ptx
  rw [Nat.shiftRight_eq_div_pow]
  exact Nat.and_two_pow_sub_one_eq_mod (va / 2 ^ 12) 10

theorem pgRoundDown_eq (h : a < Word.size) : pgRoundDown a = a / pgSize * pgSize :=
  Word.and_highMask (by decide) h

theorem pgRoundUp_eq {sz : ℕ} (h : sz + pgSize ≤ Word.size) :
    pgRoundUp sz = (sz + (pgSize - 1)) / pgSize * pgSize := by
  unfold pgRoundUp
  rw [Word.and_highMask (by decide) (Word.add_lt _ _), Word.add_eq]
  · rfl
  · unfold pgSize at *
    omega

theorem pgAddr_eq {d : ℕ} (h : d < 1024) : pgAddr d = d * 2 ^ 22 := by
  unfold pgAddr
  rw [Nat.shiftLeft_eq, Nat.mod_eq_of_lt]
  unfold Word.size
  omega

theorem pteAddr_eq {pte : ℕ} (h : pte < Word.size) : pteAddr pte = pte / pgSize * pgSize :=
  Word.and_highMask (by decide) h

theorem isPresent_iff {pte : ℕ} : isPresent pte = true ↔ pte % 2 = 1 := by
  unfold isPresent pteP
  rw [Nat.and_one_is_mod, bne_iff_ne]
  omega

@[simp] theorem isPresent_zero : isPresent 0 = false := rfl

theorem isPresent_entry (entry : ℕ) : isPresent (entry ||| pteP) = true := by
  rw [isPresent_iff, ← Nat.and_one_is_mod, Nat.and_or_distrib_right, Nat.and_one_is_mod]
  rcases Nat.mod_two_eq_zero_or_one entry with hbit | hbit <;> rw [hbit] <;> rfl

section Entry

variable {pa perm : ℕ} (haligned : pa % pgSize = 0) (hperm : perm < pgSize)

include haligned hperm

theorem entry_eq_add : pa ||| perm ||| pteP = pa + (perm ||| pteP) ∧ perm ||| pteP < pgSize := by
  have hflags : perm ||| pteP < 2 ^ 12 := Nat.or_lt_two_pow hperm (by decide)
  rw [Nat.or_assoc]
  exact ⟨Word.or_low_eq_add haligned hflags, hflags⟩

theorem pteAddr_entry (hpa : pa < Word.size) : pteAddr (pa ||| perm ||| pteP) = pa := by
  obtain ⟨hentry, hflags⟩ := entry_eq_add haligned hperm
  rw [hentry, pteAddr_eq] <;> unfold pgSize Word.size at * <;> omega

theorem pteFlags_entry : pteFlags (pa ||| perm ||| pteP) = perm ||| pteP := by
  obtain ⟨hentry, hflags⟩ := entry_eq_add haligned hperm
  rw [hentry, pteFlags, Nat.and_two_pow_sub_one_eq_mod _ 12]
  unfold pgSize at *
  omega

end Entry

theorem page_eq_of_index_eq {b : ℕ} (ha : a < Word.size) (hb : b < Word.size)
    (hpdx : pdx a = pdx b) (hptx : ptx a = ptx b) : a / pgSize = b / pgSize := by
  rw [pdx_eq, pdx_eq] at hpdx
  rw [ptx_eq, ptx_eq] at hptx
  unfold Word.size pgSize at *
  omega

end Xv6Shm
