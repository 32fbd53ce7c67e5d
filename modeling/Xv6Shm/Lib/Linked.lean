import Mathlib.Data.List.Nodup

/-!
# Singly linked lists

`Linked next link list` says that following the links from `link` visits exactly the cells of
`list`. The last cell is found by following the links, and a cell is appended by changing its link.
-/

namespace Xv6Shm

open Function

variable {Cell : Type} {next : Cell → Option Cell} {link : Option Cell} {list : List Cell}

/-- The cells from a link on. -/
def Linked (next : Cell → Option Cell) : Option Cell → List Cell → Prop
  | link, [] => link = none
  | link, cell :: rest => link = some cell ∧ Linked next (next cell) rest

namespace Linked

theorem head (h : Linked next link list) : link = list.head? := by
  cases list with
  | nil => exact h
  | cons cell rest => exact h.1

theorem unique : ∀ {list list' : List Cell} {link : Option Cell},
    Linked next link list → Linked next link list' → list = list'
  | [], [], _, _, _ => rfl
  | [], _ :: _, _, h, h' => nomatch h.symm.trans h'.1
  | _ :: _, [], _, h, h' => nomatch h.1.symm.trans h'
  | cell :: rest, cell' :: rest', _, h, h' => by
    obtain rfl : cell = cell' := Option.some.inj (h.1.symm.trans h'.1)
    rw [unique h.2 h'.2]

variable [DecidableEq Cell]

theorem update {cell : Cell} {target : Option Cell} (hcell : cell ∉ list)
    (h : Linked next link list) : Linked (update next cell target) link list := by
  induction list generalizing link with
  | nil => exact h
  | cons first rest ih =>
    rw [List.mem_cons, not_or] at hcell
    refine ⟨h.1, ih hcell.2 ?_⟩
    rw [update_of_ne (Ne.symm hcell.1)]
    exact h.2

theorem snoc {front : List Cell} {last cell : Cell} (hnodup : (front ++ [last]).Nodup)
    (hcell : cell ∉ front ++ [last]) (hend : next cell = none)
    (h : Linked next link (front ++ [last])) :
    Linked (Function.update next last (some cell)) link (front ++ [last, cell]) := by
  induction front generalizing link with
  | nil =>
    have hne : cell ≠ last := fun heq ↦ hcell (List.mem_singleton.mpr heq)
    refine ⟨h.1, update_self _ _ _, ?_⟩
    rw [update_of_ne hne]
    exact hend
  | cons first rest ih =>
    rw [List.cons_append, List.nodup_cons] at hnodup
    rw [List.cons_append, List.mem_cons, not_or] at hcell
    have hne : first ≠ last := fun heq ↦
      hnodup.1 (List.mem_append_right _ (List.mem_singleton.mpr heq))
    refine ⟨h.1, ?_⟩
    rw [update_of_ne hne]
    exact ih hnodup.2 hcell.2 h.2

end Linked

/-- The last cell from a cell on, found in a number of steps. -/
def lastCell (next : Cell → Option Cell) : ℕ → Cell → Option Cell
  | 0, _ => none
  | steps + 1, cell =>
    match next cell with
    | none => some cell
    | some following => lastCell next steps following

theorem lastCell_eq {steps : ℕ} : ∀ {front : List Cell} {first last : Cell},
    Linked next (some first) (front ++ [last]) → (front ++ [last]).length ≤ steps →
    lastCell next steps first = some last := by
  induction steps with
  | zero =>
    intro front first last _ hlength
    simp at hlength
  | succ steps ih =>
    intro front first last h hlength
    cases front with
    | nil =>
      obtain rfl := Option.some.inj h.1
      have hend : next first = none := h.2
      rw [lastCell, hend]
    | cons cell rest =>
      obtain rfl := Option.some.inj h.1
      rw [List.cons_append, List.length_cons] at hlength
      have hrest := h.2
      rw [lastCell]
      split
      · rename_i hnone
        rw [hnone] at hrest
        cases rest with
        | nil => exact nomatch hrest.1
        | cons => exact nomatch hrest.1
      · rename_i following hsome
        rw [hsome] at hrest
        exact ih hrest (by omega)

variable [DecidableEq Cell]

/-- A cell becomes the last one, if the end is found in a number of steps. -/
def appendCell (steps : ℕ) (link : Option Cell) (next : Cell → Option Cell) (cell : Cell) :
    Option (Option Cell × (Cell → Option Cell)) :=
  match link with
  | none => some (some cell, next)
  | some first =>
    (lastCell next steps first).map fun last ↦ (link, update next last (some cell))

theorem appendCell_spec {steps : ℕ} {cell : Cell} (h : Linked next link list) (hnodup : list.Nodup)
    (hcell : cell ∉ list) (hend : next cell = none) (hlength : list.length ≤ steps) : ∃ link' next',
      appendCell steps link next cell = some (link', next') ∧ Linked next' link' (list ++ [cell]) := by
  rcases List.eq_nil_or_concat list with rfl | ⟨front, last, rfl⟩
  · obtain rfl : link = none := h
    exact ⟨some cell, next, rfl, rfl, hend⟩
  · rw [List.concat_eq_append] at h hnodup hcell hlength
    obtain ⟨first, rfl⟩ : ∃ first, link = some first := by
      cases front with
      | nil => exact ⟨last, h.1⟩
      | cons first rest => exact ⟨first, h.1⟩
    refine ⟨some first, Function.update next last (some cell), ?_, ?_⟩
    · rw [appendCell, lastCell_eq h hlength, Option.map_some]
    · rw [List.concat_eq_append, List.append_assoc]
      exact h.snoc hnodup hcell hend

end Xv6Shm
