import Xv6Shm.Lib.Word
import Mathlib.Data.List.Range
import Mathlib.Data.Nat.ModEq

/-!
# Circular buffers with free-running counters

The items of a circular buffer lie between two counters that wrap at `2 ^ 32` and are never reset;
their remainders by the size of the buffer are the indices. If the size divides `2 ^ 32`, the items
from a counter on form a list that grows at its end when an item is stored, and shrinks at its front
when the counter moves on.
-/

namespace Xv6Shm.Circular

open Function

variable {Item : Type} {size : ℕ}

/-- The first `n` items of a buffer from a counter on. -/
def window (size : ℕ) (buf : ℕ → Item) (start n : ℕ) : List Item :=
  (List.range n).map fun k ↦ buf ((start + k) % size)

@[simp] theorem window_zero (buf : ℕ → Item) (start : ℕ) : window size buf start 0 = [] := rfl

@[simp] theorem length_window (buf : ℕ → Item) (start n : ℕ) :
    (window size buf start n).length = n := by
  rw [window, List.length_map, List.length_range]

variable {buf : ℕ → Item} {start n : ℕ}

theorem window_congr {start' : ℕ} (h : start % size = start' % size) :
    window size buf start n = window size buf start' n := by
  unfold window
  congr 1
  funext k
  rw [Nat.add_mod, h, ← Nat.add_mod]

theorem window_succ (buf : ℕ → Item) (start n : ℕ) :
    window size buf start (n + 1) = window size buf start n ++ [buf ((start + n) % size)] := by
  simp only [window, List.range_succ, List.map_append, List.map_cons, List.map_nil]

theorem window_cons (buf : ℕ → Item) (start n : ℕ) :
    window size buf start (n + 1) = buf (start % size) :: window size buf (start + 1) n := by
  simp only [window, List.range_succ_eq_map, List.map_cons, Nat.add_zero, List.map_map]
  congr 2
  funext k
  simp only [Function.comp_apply, Nat.succ_eq_add_one]
  rw [Nat.add_assoc, Nat.add_comm 1 k]

theorem window_add (buf : ℕ → Item) (start m n : ℕ) :
    window size buf start (m + n) = window size buf start m ++ window size buf (start + m) n := by
  induction n with
  | zero => simp
  | succ n ih => rw [← Nat.add_assoc, window_succ, ih, window_succ, List.append_assoc, Nat.add_assoc]

theorem window_update {k : ℕ} (hlow : n ≤ k) (hhigh : k < size) (item : Item) :
    window size (update buf ((start + k) % size) item) start n = window size buf start n := by
  apply List.map_congr_left
  intro j hj
  have hjn := List.mem_range.mp hj
  apply update_of_ne
  intro hsame
  have hmod : j ≡ k [MOD size] := Nat.ModEq.add_left_cancel' start hsame
  have hjk := Nat.ModEq.eq_of_lt_of_lt hmod (by omega) hhigh
  omega

theorem window_store (h : n < size) (item : Item) :
    window size (update buf ((start + n) % size) item) start (n + 1) =
      window size buf start n ++ [item] := by
  rw [window_succ, window_update le_rfl h, update_self]

/-- A counter has the index that it would have without wrapping. -/
theorem add_mod_size (hsize : size ∣ Word.size) (a b : ℕ) : Word.add a b % size = (a + b) % size :=
  Nat.mod_mod_of_dvd _ hsize

theorem window_add_one (hsize : size ∣ Word.size) (buf : ℕ → Item) (start n : ℕ) :
    window size buf (Word.add start 1) n = window size buf (start + 1) n :=
  window_congr (add_mod_size hsize start 1)

theorem add_add (a b c : ℕ) : Word.add (Word.add a b) c = Word.add a (b + c) := by
  unfold Word.add
  rw [Nat.mod_add_mod, Nat.add_assoc]

theorem add_left_inj {a b c : ℕ} (hb : b < Word.size) (hc : c < Word.size) :
    Word.add a b = Word.add a c ↔ b = c := by
  refine ⟨fun h ↦ ?_, fun h ↦ by rw [h]⟩
  have hmod : b ≡ c [MOD Word.size] := Nat.ModEq.add_left_cancel' a h
  exact Nat.ModEq.eq_of_lt_of_lt hmod hb hc

theorem sub_add_left {a : ℕ} (hn : n < Word.size) : Word.sub (Word.add a n) a = n := by
  unfold Word.sub Word.add
  have hpos : 0 < Word.size := by decide
  have hlt := Nat.mod_lt a hpos
  have hsplit := Nat.div_add_mod a Word.size
  have hsum : a + n + (Word.size - a % Word.size) = n + Word.size * (a / Word.size + 1) := by
    rw [Nat.mul_add, Nat.mul_one]
    omega
  rw [Nat.mod_add_mod, hsum, Nat.add_mul_mod_self_left, Nat.mod_eq_of_lt hn]

end Xv6Shm.Circular
