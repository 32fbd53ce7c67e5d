import Mathlib.Algebra.BigOperators.Intervals
import Mathlib.Algebra.Order.BigOperators.Group.Finset
import Mathlib.Tactic.Abel

/-!
# Arrays as functions of the index

An array is a function from indices to cells. `onRange` changes the cells of a range, each by a
function of its offset; a loop builds it up cell by cell. Sums over arrays that differ in one cell
differ by what that cell contributes.
-/

namespace Xv6Shm.Cells

open Function

variable {Cell : Type}

/-- Change the cells `start, ..., start + width - 1`, each with its offset from `start`. -/
def onRange (start width : ℕ) (change : ℕ → Cell → Cell) (cells : ℕ → Cell) : ℕ → Cell :=
  fun i ↦ if start ≤ i ∧ i < start + width then change (i - start) (cells i) else cells i

section OnRange

variable {start width : ℕ} {change : ℕ → Cell → Cell} {cells : ℕ → Cell}

@[simp] theorem onRange_zero : onRange start 0 change cells = cells := by
  funext i
  rw [onRange, if_neg (by omega)]

theorem onRange_offset {offset : ℕ} (h : offset < width) :
    onRange start width change cells (start + offset) = change offset (cells (start + offset)) := by
  rw [onRange, if_pos (by omega), Nat.add_sub_cancel_left]

theorem onRange_of_mem {i : ℕ} (hstart : start ≤ i) (hend : i < start + width) :
    onRange start width change cells i = change (i - start) (cells i) :=
  if_pos ⟨hstart, hend⟩

theorem onRange_of_not_mem {i : ℕ} (h : i < start ∨ start + width ≤ i) :
    onRange start width change cells i = cells i := by
  rw [onRange, if_neg (by omega)]

theorem update_onRange (start width : ℕ) (change : ℕ → Cell → Cell) (cells : ℕ → Cell) :
    update (onRange start width change cells) (start + width)
        (change width (cells (start + width))) =
      onRange start (width + 1) change cells := by
  funext i
  by_cases hi : i = start + width
  · rw [hi, update_self, onRange_offset (Nat.lt_succ_self width)]
  · rw [update_of_ne hi]
    unfold onRange
    have hiff : (start ≤ i ∧ i < start + (width + 1)) ↔ (start ≤ i ∧ i < start + width) := by omega
    simp only [hiff]

theorem onRange_update (start width : ℕ) (change next : ℕ → Cell → Cell) (cells : ℕ → Cell)
    (hnext : ∀ offset, next offset = change (offset + 1)) :
    onRange (start + 1) width next (update cells start (change 0 (cells start))) =
      onRange start (width + 1) change cells := by
  funext i
  by_cases hi : i = start
  · rw [onRange_of_not_mem (by omega), hi, update_self, onRange_of_mem le_rfl (by omega),
      Nat.sub_self]
  · unfold onRange
    have hiff : (start + 1 ≤ i ∧ i < start + 1 + width) ↔ (start ≤ i ∧ i < start + (width + 1)) := by
      omega
    simp only [hiff, update_of_ne hi]
    split
    · rename_i hin
      have hoffset : i - (start + 1) + 1 = i - start := by omega
      rw [hnext, hoffset]
    · rfl

end OnRange

section Sums

variable {Total : Type} [AddCommMonoid Total]

theorem sum_exchange {Index : Type} [DecidableEq Index] {indices : Finset Index}
    (first second : Index → Total) {index : Index} (hmem : index ∈ indices)
    (hsame : ∀ i ∈ indices, i ≠ index → second i = first i) :
    ∑ i ∈ indices, second i + first index = ∑ i ∈ indices, first i + second index := by
  rw [← Finset.add_sum_erase indices second hmem, ← Finset.add_sum_erase indices first hmem]
  have hrest : ∑ i ∈ indices.erase index, second i = ∑ i ∈ indices.erase index, first i := by
    apply Finset.sum_congr rfl
    intro i hi
    exact hsame i (Finset.mem_of_mem_erase hi) (Finset.ne_of_mem_erase hi)
  rw [hrest]
  abel

theorem sum_split_block (terms : ℕ → Total) {start width bound : ℕ} (h : start + width ≤ bound) :
    ∑ i ∈ Finset.range bound, terms i = ∑ offset ∈ Finset.range width, terms (start + offset) +
        ∑ i ∈ (Finset.range bound).filter (fun i ↦ ¬ (start ≤ i ∧ i < start + width)), terms i := by
  rw [← Finset.sum_filter_add_sum_filter_not (Finset.range bound)
    (fun i ↦ start ≤ i ∧ i < start + width)]
  congr 1
  have hblock : (Finset.range bound).filter (fun i ↦ start ≤ i ∧ i < start + width) =
      Finset.Ico start (start + width) := by
    ext i
    rw [Finset.mem_filter, Finset.mem_range, Finset.mem_Ico]
    omega
  rw [hblock, Finset.sum_Ico_eq_sum_range, Nat.add_sub_cancel_left]

end Sums

theorem nodup_sum_disjoint {Element : Type} {indices : Finset ℕ} (terms : ℕ → Multiset Element)
    (h : (∑ i ∈ indices, terms i).Nodup) {i j : ℕ} (hi : i ∈ indices) (hj : j ∈ indices)
    (hne : i ≠ j) : Disjoint (terms i) (terms j) := by
  have hpair : terms i + terms j ≤ ∑ k ∈ indices, terms k := by
    rw [← Finset.sum_pair hne]
    apply Finset.sum_le_sum_of_subset
    intro k hk
    rw [Finset.mem_insert, Finset.mem_singleton] at hk
    rcases hk with rfl | rfl
    · exact hi
    · exact hj
  exact (Multiset.nodup_add.mp (Multiset.nodup_of_le hpair h)).2.2

theorem pairwise_disjoint_of_nodup_sum {Element : Type} {terms : List (Multiset Element)}
    (h : terms.sum.Nodup) : terms.Pairwise Disjoint := by
  induction terms with
  | nil => exact List.Pairwise.nil
  | cons first rest ih =>
    rw [List.sum_cons] at h
    obtain ⟨-, hrest, hdisjoint⟩ := Multiset.nodup_add.mp h
    exact List.Pairwise.cons (fun term hterm ↦ hdisjoint.mono_right (List.le_sum_of_mem hterm))
      (ih hrest)

end Xv6Shm.Cells
