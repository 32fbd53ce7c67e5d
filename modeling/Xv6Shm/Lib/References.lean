import Mathlib.Algebra.BigOperators.Ring.Finset
import Mathlib.Algebra.Order.BigOperators.Group.Finset

/-!
# Counting references

A table maps finitely many keys to an item or to none. The references to an item are the keys that
map to it. Overwriting an entry takes a reference from the old item and gives one to the new.
-/

namespace Xv6Shm

open Function

variable {Key Item : Type} [Fintype Key] [DecidableEq Item]

/-- The number of keys that map to the item. -/
def references (table : Key → Option Item) (item : Item) : ℕ :=
  (Finset.univ.filter fun key ↦ table key = some item).card

/-- One if the entry refers to the item. -/
def refersTo (entry : Option Item) (item : Item) : ℤ := if entry = some item then 1 else 0

@[simp] theorem refersTo_none (item : Item) : refersTo none item = 0 := rfl

@[simp] theorem refersTo_self (item : Item) : refersTo (some item) item = 1 := if_pos rfl

variable {item : Item}

theorem refersTo_of_ne {other : Item} (h : item ≠ other) : refersTo (some item) other = 0 :=
  if_neg fun hsome ↦ h (Option.some.inj hsome)

theorem refersTo_some (item other : Item) :
    refersTo (some item) other = Pi.single (M := fun _ ↦ ℤ) item 1 other := by
  by_cases h : item = other
  · subst h
    rw [refersTo_self, Pi.single_eq_same]
  · rw [refersTo_of_ne h, Pi.single_eq_of_ne (Ne.symm h)]

theorem references_eq_sum (table : Key → Option Item) (item : Item) :
    (references table item : ℤ) = ∑ key, refersTo (table key) item := by
  unfold references refersTo
  rw [Finset.sum_boole]

theorem references_pos {table : Key → Option Item} {key : Key}
    (h : table key = some item) : 0 < references table item :=
  Finset.card_pos.mpr ⟨key, Finset.mem_filter.mpr ⟨Finset.mem_univ _, h⟩⟩

theorem references_eq_zero {table : Key → Option Item}
    (h : ∀ key, table key ≠ some item) : references table item = 0 :=
  Finset.card_eq_zero.mpr (Finset.filter_eq_empty_iff.mpr fun key _ ↦ h key)

theorem references_update [DecidableEq Key] (table : Key → Option Item) (key : Key)
    (entry : Option Item) (item : Item) :
    (references (update table key entry) item : ℤ) =
      references table item - refersTo (table key) item + refersTo entry item := by
  have hothers : ∑ other ∈ Finset.univ.erase key, refersTo (update table key entry other) item =
        ∑ other ∈ Finset.univ.erase key, refersTo (table other) item := by
    apply Finset.sum_congr rfl
    intro other hother
    rw [update_of_ne (Finset.ne_of_mem_erase hother)]
  rw [references_eq_sum, references_eq_sum, ← Finset.add_sum_erase _ _ (Finset.mem_univ key),
    ← Finset.add_sum_erase _ (fun other ↦ refersTo (table other) item) (Finset.mem_univ key),
    hothers, update_self]
  omega

end Xv6Shm
