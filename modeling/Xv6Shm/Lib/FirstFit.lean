import Mathlib.Order.Bounds.Basic

/-!
# First-fit search for a run of free cells

One scan from left to right keeps the start and the length of the current run of free cells, and
stops when it is long enough. It returns the least start of a long enough run inside the range, and
nothing exactly when there is none.
-/

namespace Xv6Shm.FirstFit

/-- Every cell of the run of `width` cells from `start` is free. -/
def IsRun (free : ℕ → Bool) (width start : ℕ) : Prop :=
  ∀ offset < width, free (start + offset) = true

/-- The scan at `index` with `remaining` cells to go; `start` and `count` are the run of free cells
before `index`. -/
def scan (free : ℕ → Bool) (width : ℤ) : ℕ → ℕ → Option ℕ → ℤ → Option ℕ
  | 0, _, _, _ => none
  | remaining + 1, index, start, count =>
    if free index then
      let runStart := start.getD index
      if count + 1 = width then some runStart
      else scan free width remaining (index + 1) (some runStart) (count + 1)
    else scan free width remaining (index + 1) none 0

/-- The first run of `width` free cells among the cells below `bound`. -/
def find (free : ℕ → Bool) (width : ℤ) (bound : ℕ) : Option ℕ := scan free width bound 0 none 0

/-- What the scan knows at `index`: the run that ends there has fewer than `width` free cells, the
cell before it is not free, and no long enough run has ended. -/
structure Progress (free : ℕ → Bool) (width index : ℕ) (start : Option ℕ) (count : ℕ) : Prop where
  count_lt : count < width
  count_le : count ≤ index
  start_eq : start.getD index = index - count
  run : IsRun free count (index - count)
  none_before : ∀ first, IsRun free width first → index - count ≤ first

variable {free : ℕ → Bool} {width index count : ℕ} {start : Option ℕ}

theorem Progress.initial (hwidth : 0 < width) : Progress free width 0 none 0 where
  count_lt := hwidth
  count_le := le_rfl
  start_eq := rfl
  run := fun offset hoffset ↦ absurd hoffset (Nat.not_lt_zero offset)
  none_before := fun first _ ↦ Nat.zero_le first

section

variable (progress : Progress free width index start count)

include progress

theorem Progress.run_succ (hfree : free index = true) : IsRun free (count + 1) (index - count) := by
  intro offset hoffset
  by_cases hlast : offset = count
  · rw [hlast, Nat.sub_add_cancel progress.count_le]
    exact hfree
  · exact progress.run offset (by omega)

theorem Progress.extend (hfree : free index = true) (hshort : count + 1 ≠ width) :
    Progress free width (index + 1) (some (start.getD index)) (count + 1) where
  count_lt := by
    have hlt := progress.count_lt
    omega
  count_le := Nat.succ_le_succ progress.count_le
  start_eq := by
    rw [Option.getD_some, progress.start_eq]
    omega
  run := by
    rw [Nat.add_sub_add_right]
    exact progress.run_succ hfree
  none_before := by
    rw [Nat.add_sub_add_right]
    exact progress.none_before

/-- A cell that is not free belongs to no run; later runs start behind it. -/
theorem Progress.restart (hused : free index = false) : Progress free width (index + 1) none 0 where
  count_lt := lt_of_le_of_lt (Nat.zero_le count) progress.count_lt
  count_le := Nat.zero_le _
  start_eq := rfl
  run := fun offset hoffset ↦ absurd hoffset (Nat.not_lt_zero offset)
  none_before := by
    intro first hrun
    have hbefore := progress.none_before first hrun
    have hlt := progress.count_lt
    by_contra hle
    have hcell := hrun (index - first) (by omega)
    rw [Nat.add_sub_cancel' (by omega), hused] at hcell
    exact Bool.false_ne_true hcell

end

/-- What a search among the cells below `bound` must return. -/
def Found (free : ℕ → Bool) (width bound : ℕ) : Option ℕ → Prop
  | some result => IsLeast {first | first + width ≤ bound ∧ IsRun free width first} result
  | none => ∀ first, first + width ≤ bound → ¬ IsRun free width first

theorem scan_found {remaining : ℕ} (progress : Progress free width index start count) :
    Found free width (index + remaining) (scan free width remaining index start count) := by
  induction remaining generalizing index start count with
  | zero =>
    intro first hbound hrun
    have hbefore := progress.none_before first hrun
    have hlt := progress.count_lt
    omega
  | succ remaining ih =>
    have hbound : index + (remaining + 1) = index + 1 + remaining := by omega
    rw [scan, hbound]
    by_cases hfree : free index = true
    · rw [if_pos hfree]
      by_cases hlong : (count : ℤ) + 1 = width
      · have hwidth : count + 1 = width := by exact_mod_cast hlong
        have hle := progress.count_le
        rw [if_pos hlong, progress.start_eq]
        exact ⟨⟨by omega, hwidth ▸ progress.run_succ hfree⟩, fun first hfirst ↦
          progress.none_before first hfirst.2⟩
      · rw [if_neg hlong]
        exact_mod_cast ih (progress.extend hfree (by exact_mod_cast hlong))
    · rw [if_neg hfree]
      exact_mod_cast ih (progress.restart (by simpa using hfree))

section Find

variable {bound result : ℕ} (hwidth : 0 < width)

include hwidth

theorem find_found : Found free width bound (find free width bound) := by
  have hfound := @scan_found free width _ _ _ bound (Progress.initial hwidth)
  rwa [Nat.zero_add] at hfound

theorem find_some (hfind : find free width bound = some result) :
    IsLeast {first | first + width ≤ bound ∧ IsRun free width first} result := by
  have hfound := @find_found free width bound hwidth
  rwa [hfind] at hfound

theorem find_none (hfind : find free width bound = none) :
    ∀ first, first + width ≤ bound → ¬ IsRun free width first := by
  have hfound := @find_found free width bound hwidth
  rwa [hfind] at hfound

theorem find_eq_some_iff : find free width bound = some result ↔
    IsLeast {first | first + width ≤ bound ∧ IsRun free width first} result := by
  refine ⟨find_some hwidth, fun hleast ↦ ?_⟩
  cases hfind : find free width bound with
  | none => exact absurd hleast.1.2 (find_none hwidth hfind _ hleast.1.1)
  | some other => rw [(find_some hwidth hfind).unique hleast]

theorem find_eq_none_iff : find free width bound = none ↔
    ∀ first, first + width ≤ bound → ¬ IsRun free width first := by
  refine ⟨find_none hwidth, fun hnone ↦ ?_⟩
  cases hfind : find free width bound with
  | none => rfl
  | some first =>
    obtain ⟨⟨hbound, hrun⟩, -⟩ := find_some hwidth hfind
    exact absurd hrun (hnone first hbound)

end Find

end Xv6Shm.FirstFit
