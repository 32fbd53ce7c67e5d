import Mathlib.Algebra.BigOperators.Group.List.Basic
import Mathlib.Algebra.GroupWithZero.Nat
import Mathlib.Order.Interval.Set.Basic

/-!
# Pieces that follow each other

Pieces, each with a start and a length, are consecutive from one number to another if each starts
where the one before it ends. Then they are apart and cover the range exactly.
-/

namespace Xv6Shm

section Consecutive

variable {Piece : Type} {start length : Piece → ℕ}

/-- The pieces follow each other from `first` to `last`. -/
def Consecutive (start length : Piece → ℕ) : ℕ → List Piece → ℕ → Prop
  | first, [], last => first = last
  | first, piece :: rest, last =>
    start piece = first ∧ Consecutive start length (first + length piece) rest last

namespace Consecutive

variable {pieces : List Piece} {first last : ℕ}

variable (h : Consecutive start length first pieces last)

include h

theorem snoc {piece : Piece} (hstart : start piece = last) :
    Consecutive start length first (pieces ++ [piece]) (last + length piece) := by
  induction pieces generalizing first with
  | nil =>
    obtain rfl : first = last := h
    exact ⟨hstart, rfl⟩
  | cons head rest ih => exact ⟨h.1, ih h.2⟩

theorem last_eq : last = first + (pieces.map length).sum := by
  induction pieces generalizing first with
  | nil => exact h.symm
  | cons head rest ih => rw [ih h.2, List.map_cons, List.sum_cons, Nat.add_assoc]

theorem le : first ≤ last :=
  h.last_eq ▸ Nat.le_add_right _ _

theorem mem_iff (t : ℕ) :
    (∃ piece ∈ pieces, t ∈ Set.Ico (start piece) (start piece + length piece)) ↔
      t ∈ Set.Ico first last := by
  induction pieces generalizing first with
  | nil =>
    obtain rfl : first = last := h
    simp
  | cons head rest ih =>
    have hle := h.2.le
    simp only [List.mem_cons, or_and_right, exists_or, exists_eq_left]
    rw [ih h.2, h.1, Set.mem_Ico, Set.mem_Ico, Set.mem_Ico]
    omega

theorem le_start {piece : Piece} (hmem : piece ∈ pieces) : first ≤ start piece := by
  induction pieces generalizing first with
  | nil => cases hmem
  | cons head rest ih =>
    rcases List.mem_cons.mp hmem with rfl | hrest
    · exact h.1.ge
    · exact (Nat.le_add_right _ _).trans (ih h.2 hrest)

theorem pairwise : pieces.Pairwise fun piece later ↦ start piece + length piece ≤ start later := by
  induction pieces generalizing first with
  | nil => exact List.Pairwise.nil
  | cons head rest ih =>
    refine List.Pairwise.cons (fun later hlater ↦ ?_) (ih h.2)
    rw [h.1]
    exact h.2.le_start hlater

end Consecutive

end Consecutive

end Xv6Shm
