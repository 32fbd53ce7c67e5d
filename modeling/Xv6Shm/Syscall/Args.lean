import Xv6Shm.Lib.Traced
import Xv6Shm.Memory.Layout

/-!
# System call arguments

The functions of `syscall.c` that fetch arguments from the memory of the caller. Their events are
the user bytes that the kernel reads or writes. A string is the address and the length that
`fetchstr` finds, because the source keeps a pointer into user memory.
-/

namespace Xv6Shm

open Traced

/-- The calling process, as far as its arguments concern it. -/
structure Caller where
  sz : ℕ
  esp : ℕ
  byte : ℕ → UInt8
  /-- The open descriptors. -/
  ofile : ℕ → Bool

/-- An access of `length` user bytes from `start` on. -/
structure Access where
  start : ℕ
  length : ℕ
deriving DecidableEq, Repr

/-- All bytes of the access belong to a process of size `sz`. -/
def Access.Inside (sz : ℕ) (access : Access) : Prop :=
  ∀ i < access.length, Word.add access.start i < sz

instance (sz : ℕ) (access : Access) : Decidable (access.Inside sz) := by
  unfold Access.Inside
  infer_instance

/-- How a system call ends without a result of its own. -/
inductive Stop where
  | returns (code : ℤ)
  | blocks
deriving DecidableEq, Repr

abbrev UserAccess := Traced Access Stop

/-- A nul-terminated string in user memory. -/
structure UserString where
  start : ℕ
  length : ℕ

namespace Caller

variable (caller : Caller)

/-- The word at an address. -/
def word (addr : ℕ) : ℕ :=
  (caller.byte addr).toNat + 2 ^ 8 * (caller.byte (Word.add addr 1)).toNat +
    2 ^ 16 * (caller.byte (Word.add addr 2)).toNat + 2 ^ 24 * (caller.byte (Word.add addr 3)).toNat

/-- Fetch the int at `addr`. -/
def fetchint (addr : ℕ) : UserAccess ℤ :=
  if addr ≥ caller.sz ∨ Word.add addr 4 > caller.sz then .stop (.returns (-1))
  else do
    .emit [⟨addr, 4⟩]
    pure (Word.toInt (caller.word addr))

/-- The loop of `fetchstr` at `s`; the result is the address of the nul byte. -/
def fetchstrLoop : ℕ → ℕ → UserAccess ℕ
  | 0, _ => .stop (.returns (-1))
  | remaining + 1, s => do
    .emit [⟨s, 1⟩]
    if caller.byte s = 0 then pure s else fetchstrLoop remaining (s + 1)

/-- Find the nul-terminated string at `addr`. -/
def fetchstr (addr : ℕ) : UserAccess UserString :=
  if addr ≥ caller.sz then .stop (.returns (-1))
  else do
    let s ← caller.fetchstrLoop (caller.sz - addr) addr
    pure ⟨addr, s - addr⟩

/-- The address of the nth argument. -/
def argAddr (n : ℕ) : ℕ := Word.add caller.esp (4 + 4 * n)

def argint (n : ℕ) : UserAccess ℤ := caller.fetchint (caller.argAddr n)

/-- Fetch the nth argument as a pointer to a block of `size` bytes. -/
def argptr (n : ℕ) (size : ℤ) : UserAccess ℕ := do
  let i := Word.ofInt (← caller.argint n)
  if size < 0 ∨ i ≥ caller.sz ∨ Word.add i (Word.ofInt size) > caller.sz then
    .stop (.returns (-1))
  else pure i

def argstr (n : ℕ) : UserAccess UserString := do
  let addr ← caller.argint n
  caller.fetchstr (Word.ofInt addr)

end Caller

theorem Access.inside_of_le {sz start length : ℕ} (hsz : sz ≤ Word.size)
    (h : start + length ≤ sz) : (⟨start, length⟩ : Access).Inside sz := by
  intro i hi
  dsimp only at hi ⊢
  rw [Word.add_eq (by omega)]
  omega

namespace Caller

variable {caller : Caller}

variable (hsz : caller.sz < heapLimit)

include hsz

theorem fetchint_inside (addr : ℕ) : (caller.fetchint addr).All (Access.Inside caller.sz) := by
  unfold fetchint
  split
  · exact all_stop _
  · rename_i hcheck
    refine Traced.All.bind ?_ fun _ _ ↦ all_pure _
    rw [all_emit]
    intro access haccess
    rw [List.mem_singleton] at haccess
    subst haccess
    apply Access.inside_of_le
    · unfold heapLimit at hsz
      unfold Word.size
      omega
    · unfold Word.add Word.size heapLimit at *
      omega

theorem argint_inside (n : ℕ) :
    (caller.argint n).All (Access.Inside caller.sz) := fetchint_inside hsz _

theorem fetchstrLoop_spec {remaining s : ℕ} (hs : s + remaining = caller.sz) :
    (caller.fetchstrLoop remaining s).All (Access.Inside caller.sz) ∧ ∀ nul, (caller.fetchstrLoop
      remaining s).value = .ok nul → s ≤ nul ∧ nul < caller.sz := by
  induction remaining generalizing s with
  | zero => exact ⟨all_stop _, fun nul hnul ↦ by cases hnul⟩
  | succ remaining ih =>
    have hbyte : (⟨s, 1⟩ : Access).Inside caller.sz := by
      apply Access.inside_of_le
      · unfold heapLimit at hsz
        unfold Word.size
        omega
      · omega
    rw [fetchstrLoop]
    constructor
    · refine Traced.All.bind (by simpa using hbyte) fun _ _ ↦ ?_
      split
      · exact all_pure _
      · exact (ih (by omega)).1
    · intro nul hnul
      obtain ⟨-, -, hrest⟩ := value_bind.mp hnul
      split at hrest
      · cases hrest
        omega
      · have hlater := (ih (by omega)).2 nul hrest
        omega

theorem fetchstr_inside (addr : ℕ) : (caller.fetchstr addr).All (Access.Inside caller.sz) := by
  unfold fetchstr
  split
  · exact all_stop _
  · exact (fetchstrLoop_spec hsz (by omega)).1.bind fun _ _ ↦ all_pure _

/-- A string that was found lies inside the process, with its nul byte. -/
theorem fetchstr_bound {addr : ℕ} {string : UserString}
    (h : (caller.fetchstr addr).value = .ok string) :
    string.start + (string.length + 1) ≤ caller.sz := by
  unfold fetchstr at h
  split at h
  · cases h
  · obtain ⟨nul, hnul, hstring⟩ := value_bind.mp h
    have hbound := (fetchstrLoop_spec hsz (by omega)).2 nul hnul
    cases hstring
    dsimp only
    omega

theorem argstr_inside (n : ℕ) : (caller.argstr n).All (Access.Inside caller.sz) := by
  exact (argint_inside hsz n).bind fun _ _ ↦ fetchstr_inside hsz _

omit hsz

variable {n : ℕ}

theorem argstr_bound (hsz : caller.sz < heapLimit) {string : UserString}
    (h : (caller.argstr n).value = .ok string) :
    string.start + (string.length + 1) ≤ caller.sz := by
  obtain ⟨addr, -, hstring⟩ := value_bind.mp h
  exact fetchstr_bound hsz hstring

theorem argptr_inside (hsz : caller.sz < heapLimit) (n : ℕ) (size : ℤ) :
    (caller.argptr n size).All (Access.Inside caller.sz) := by
  refine (argint_inside hsz n).bind fun _ _ ↦ ?_
  dsimp only
  split
  · exact all_stop _
  · exact all_pure _

/-- The size of a block is an int, so its end is computed without a wrap. -/
theorem argptr_bound (hsz : caller.sz < heapLimit) {size : ℤ} {p : ℕ}
    (hsize : size < 2 ^ 31) (h : (caller.argptr n size).value = .ok p) :
    p < caller.sz ∧ p + size.toNat ≤ caller.sz := by
  obtain ⟨i, -, hcheck⟩ := value_bind.mp h
  dsimp only at hcheck
  split at hcheck
  · cases hcheck
  · rename_i hpass
    cases hcheck
    rw [not_or, not_or] at hpass
    obtain ⟨hpos, hlt, hle⟩ := hpass
    obtain ⟨length, rfl⟩ := Int.eq_ofNat_of_zero_le (not_lt.mp hpos)
    rw [Word.ofInt_natCast (by unfold Word.size; omega)] at hle
    rw [Word.add_eq (by unfold heapLimit at hsz; unfold Word.size; omega)] at hle
    rw [Int.toNat_natCast]
    omega

theorem argint_lt {value : ℤ} (h : (caller.argint n).value = .ok value) : value < 2 ^ 31 := by
  unfold argint fetchint at h
  split at h
  · cases h
  · obtain ⟨-, -, hvalue⟩ := value_bind.mp h
    cases hvalue
    unfold Word.toInt
    split
    · omega
    · have hword : caller.word (caller.argAddr n) < 2 ^ 32 := by
        have hbyte (addr : ℕ) := (caller.byte addr).toNat_lt
        unfold word
        have h0 := hbyte (caller.argAddr n)
        have h1 := hbyte (Word.add (caller.argAddr n) 1)
        have h2 := hbyte (Word.add (caller.argAddr n) 2)
        have h3 := hbyte (Word.add (caller.argAddr n) 3)
        omega
      unfold Word.size
      omega

end Caller

end Xv6Shm
