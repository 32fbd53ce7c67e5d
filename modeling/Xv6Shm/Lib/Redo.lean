import Mathlib.Data.List.Basic

/-!
# Redo logs

A redo log is a list of updates of a store, applied from left to right. Applying it again changes
nothing, also after other updates of its keys: a log that was applied in part can be applied from
the start.
-/

namespace Xv6Shm

variable {Key Value : Type} [DecidableEq Key]

/-- The store after a list of updates. -/
def redo (updates : List (Key × Value)) (store : Key → Value) : Key → Value :=
  updates.foldl (fun store update ↦ Function.update store update.1 update.2) store

@[simp] theorem redo_nil (store : Key → Value) : redo [] store = store := rfl

@[simp] theorem redo_cons (update : Key × Value) (rest : List (Key × Value)) (store : Key → Value) :
    redo (update :: rest) store = redo rest (Function.update store update.1 update.2) := rfl

theorem redo_append (first second : List (Key × Value)) (store : Key → Value) :
    redo (first ++ second) store = redo second (redo first store) := List.foldl_append ..

variable {key : Key}

theorem redo_congr (updates : List (Key × Value)) {store store' : Key → Value}
    (h : store key = store' key) : redo updates store key = redo updates store' key := by
  induction updates generalizing store store' with
  | nil => exact h
  | cons update rest ih =>
    rw [redo_cons, redo_cons]
    refine ih ?_
    by_cases hkey : key = update.1
    · rw [hkey, Function.update_self, Function.update_self]
    · rw [Function.update_of_ne hkey, Function.update_of_ne hkey, h]

theorem redo_of_mem {updates : List (Key × Value)} (store store' : Key → Value)
    (h : key ∈ updates.map Prod.fst) : redo updates store key = redo updates store' key := by
  induction updates generalizing store store' with
  | nil => cases h
  | cons update rest ih =>
    rw [redo_cons, redo_cons]
    by_cases hkey : key = update.1
    · refine redo_congr rest ?_
      rw [hkey, Function.update_self, Function.update_self]
    · exact ih _ _ ((List.mem_cons.mp h).resolve_left hkey)

theorem redo_update {updates : List (Key × Value)} (store : Key → Value) (value : Value)
    (h : key ∈ updates.map Prod.fst) :
    redo updates (Function.update store key value) = redo updates store := by
  funext other
  by_cases hother : other = key
  · subst hother
    exact redo_of_mem _ _ h
  · exact redo_congr updates (Function.update_of_ne hother _ _)

/-- A log whose values are those of one store turns any store into it, at its keys. -/
theorem redo_map_pair (keys : List Key) (target store : Key → Value) (key : Key) :
    redo (keys.map fun k ↦ (k, target k)) store key =
      if key ∈ keys then target key else store key := by
  induction keys generalizing store with
  | nil => rfl
  | cons head rest ih =>
    rw [List.map_cons, redo_cons, ih]
    by_cases hrest : key ∈ rest
    · rw [if_pos hrest, if_pos (List.mem_cons_of_mem head hrest)]
    · rw [if_neg hrest]
      by_cases hhead : key = head
      · rw [if_pos (List.mem_cons.mpr (Or.inl hhead)), hhead, Function.update_self]
      · rw [if_neg (by simp [hhead, hrest]), Function.update_of_ne hhead]

end Xv6Shm
