import Mathlib.Logic.Function.Basic
import Xv6Shm.Memory.Kalloc

/-!
# The two memmoves

The kernel's `memmove` copies from the end if the source begins before the destination and reaches
into it, so it moves the bytes that were there before the call. That of the user library always
copies from the start, and the result is right only if the source repeats with the distance between
the two ranges. Addresses are natural numbers: the ranges do not wrap.
-/

namespace Xv6Shm

open Function

/-- `while(n-- > 0) *d++ = *s++;` -/
def copyUp : ℕ → (ℕ → UInt8) → ℕ → ℕ → ℕ → UInt8
  | 0, mem, _, _ => mem
  | n + 1, mem, d, s => copyUp n (update mem d (mem s)) (d + 1) (s + 1)

/-- `while(n-- > 0) *--d = *--s;` -/
def copyDown : ℕ → (ℕ → UInt8) → ℕ → ℕ → ℕ → UInt8
  | 0, mem, _, _ => mem
  | n + 1, mem, d, s => copyDown n (update mem (d - 1) (mem (s - 1))) (d - 1) (s - 1)

/-- `memmove` of `string.c`. -/
def memmove (mem : ℕ → UInt8) (dst src n : ℕ) : ℕ → UInt8 :=
  if src < dst ∧ src + n > dst then copyDown n mem (dst + n) (src + n) else copyUp n mem dst src

/-- `memmove` of `ulib.c`. -/
def Ulib.memmove (mem : ℕ → UInt8) (dst src : ℕ) (n : ℤ) : ℕ → UInt8 := copyUp n.toNat mem dst src

/-- The memory when the bytes of the source are in the destination. -/
def moved (mem : ℕ → UInt8) (dst src n : ℕ) : ℕ → UInt8 := fun a ↦
  if dst ≤ a ∧ a < dst + n then mem (src + (a - dst)) else mem a

variable {mem : ℕ → UInt8} {dst src n : ℕ}

theorem copyUp_outside {a : ℕ} (h : a < dst ∨ dst + n ≤ a) : copyUp n mem dst src a = mem a := by
  induction n generalizing mem dst src with
  | zero => rfl
  | succ n ih => rw [copyUp, ih (by omega), update_of_ne (by omega)]

theorem copyDown_eq (h : src ≤ dst) : copyDown n mem (dst + n) (src + n) = moved mem dst src n := by
  induction n generalizing mem with
  | zero =>
    funext a
    rw [moved, if_neg (by omega), copyDown]
  | succ n ih =>
    rw [copyDown, ← Nat.add_assoc, ← Nat.add_assoc, Nat.add_sub_cancel, Nat.add_sub_cancel, ih]
    funext a
    unfold moved
    by_cases hlast : a = dst + n
    · rw [if_neg (by omega), if_pos (by omega), hlast, update_self, Nat.add_sub_cancel_left]
    · by_cases hin : dst ≤ a ∧ a < dst + n
      · rw [if_pos hin, if_pos (by omega), update_of_ne (by omega)]
      · rw [if_neg hin, if_neg (by omega), update_of_ne hlast]

theorem moved_add {i : ℕ} (hi : i < n) : moved mem dst src n (dst + i) = mem (src + i) := by
  rw [moved, if_pos (by omega), Nat.add_sub_cancel_left]

/-- Copied upwards to a later address, a byte equals what its source address holds in the end. -/
theorem copyUp_add {i : ℕ} (hi : i < n) : copyUp n mem dst src (dst + i) =
    if src < dst then copyUp n mem dst src (src + i) else mem (src + i) := by
  induction n generalizing mem dst src i with
  | zero => exact absurd hi (Nat.not_lt_zero i)
  | succ n ih =>
    rw [copyUp]
    cases i with
    | zero =>
      rw [copyUp_outside (by omega), Nat.add_zero, update_self]
      split
      · rename_i hlt
        exact ((copyUp_outside (by omega)).trans (update_of_ne hlt.ne _ mem)).symm
      · rfl
    | succ i =>
      have hstep := @ih (update mem dst (mem src)) (dst + 1) (src + 1) i (Nat.lt_of_succ_lt_succ hi)
      rw [Nat.add_right_comm, Nat.add_right_comm src] at hstep
      refine hstep.trans (if_ctx_congr Nat.succ_lt_succ_iff (fun _ ↦ rfl) fun hle ↦ ?_)
      exact update_of_ne (by omega) _ mem

/-- Copying upwards is right if the source does not begin before the destination, or repeats. -/
theorem copyUp_eq_iff : copyUp n mem dst src = moved mem dst src n ↔
    (src < dst → ∀ i, dst + i < src + n → mem (dst + i) = mem (src + i)) := by
  constructor
  · intro heq hlt i hi
    have hsource : src + (dst - src + i) = dst + i := by omega
    have hrepeat := @copyUp_add mem dst src n (dst - src + i) (by omega)
    rwa [if_pos hlt, heq, hsource, moved_add (by omega), moved_add (by omega), hsource] at hrepeat
  · intro h
    have hcopied (j : ℕ) (hj : j < n) : copyUp n mem dst src (dst + j) = mem (src + j) := by
      induction j using Nat.strong_induction_on with
      | _ j ih =>
        rw [copyUp_add hj]
        split
        · rename_i hlt
          by_cases hbelow : src + j < dst
          · exact copyUp_outside (Or.inl hbelow)
          · have hsource : src + j = dst + (src + j - dst) := by omega
            rw [hsource, ih _ (by omega) (by omega), h hlt _ (by omega)]
        · rfl
    funext a
    by_cases hin : dst ≤ a ∧ a < dst + n
    · rw [moved, if_pos hin, ← hcopied (a - dst) (by omega), Nat.add_sub_cancel' hin.1]
    · rw [moved, if_neg hin, copyUp_outside (by omega)]

theorem memmove_eq (mem : ℕ → UInt8) (dst src n : ℕ) :
    memmove mem dst src n = moved mem dst src n := by
  unfold memmove
  split
  · rename_i hover
    exact copyDown_eq hover.1.le
  · exact copyUp_eq_iff.mpr fun hlt i hi ↦ by omega

theorem Kmem.memmove_bytes (kmem : Kmem) (dst src n : ℕ) :
    (kmem.memmove dst src n).bytes = Xv6Shm.memmove kmem.bytes dst src n :=
  (memmove_eq kmem.bytes dst src n).symm

/-- The kernel's copy is always that of the bytes before the call, the library's only then. -/
theorem memmoves_agree_iff (mem : ℕ → UInt8) (dst src n : ℕ) :
    (memmove mem dst src n = moved mem dst src n ∧
        Ulib.memmove mem dst src n = moved mem dst src n) ↔
      (src < dst → ∀ i, dst + i < src + n → mem (dst + i) = mem (src + i)) := by
  rw [Ulib.memmove, Int.toNat_natCast, copyUp_eq_iff]
  exact and_iff_right (memmove_eq mem dst src n)

theorem Ulib.memmove_overlap :
    let mem : ℕ → UInt8 := fun a ↦ if a = 0 then 1 else 2
    memmove mem 1 0 2 2 = 1 ∧ moved mem 1 0 2 2 = 2 := by
  decide

end Xv6Shm
