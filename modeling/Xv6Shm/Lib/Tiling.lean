import Mathlib.Data.Finset.Basic

/-!
# Blocks of consecutive cells

The cells below a bound are used or free. A tiling is a set of first cells such that the blocks of
the given widths from there on do not overlap and are exactly the used cells. The widths are read
off the first cells, so a walk from the left finds the blocks, and there is at most one tiling.
-/

namespace Xv6Shm.Tiling

/-- The blocks that start at `starts` make up the used cells below `bound`. -/
structure IsTiling (used : ℕ → Bool) (width : ℕ → ℕ) (bound : ℕ) (starts : Finset ℕ) : Prop where
  positive : ∀ s ∈ starts, 0 < width s
  inside : ∀ s ∈ starts, s + width s ≤ bound
  apart : ∀ s ∈ starts, ∀ t ∈ starts, s < t → s + width s ≤ t
  filled : ∀ s ∈ starts, ∀ i, s ≤ i → i < s + width s → used i = true
  covered : ∀ i < bound, used i = true → ∃ s ∈ starts, s ≤ i ∧ i < s + width s

section Walk

variable (used : ℕ → Bool) (width : ℕ → ℕ)

/-- The end of the last block that a walk from the left has entered before `i`. -/
def reach : ℕ → ℕ
  | 0 => 0
  | i + 1 => if used i = true ∧ reach i ≤ i then i + width i else reach i

/-- The first cells of the blocks that the walk finds. -/
def walk (bound : ℕ) : Finset ℕ :=
  (Finset.range bound).filter fun i ↦ used i = true ∧ reach used width i ≤ i

end Walk

variable {used : ℕ → Bool} {width : ℕ → ℕ} {bound : ℕ} {starts : Finset ℕ}

variable {s : ℕ} {used' : ℕ → Bool} {width' : ℕ → ℕ}

variable (h : IsTiling used width bound starts)

include h

theorem IsTiling.used_of_mem (hs : s ∈ starts) : used s = true :=
  h.filled s hs s le_rfl (Nat.lt_add_of_pos_right (h.positive s hs))

theorem IsTiling.lt_bound (hs : s ∈ starts) : s < bound := by
  have hpos := h.positive s hs
  have hinside := h.inside s hs
  omega

theorem IsTiling.block_unique {t i : ℕ} (hs : s ∈ starts)
    (ht : t ∈ starts) (hsi : s ≤ i ∧ i < s + width s) (hti : t ≤ i ∧ i < t + width t) : s = t := by
  rcases Nat.lt_trichotomy s t with hlt | heq | hgt
  · have hapart := h.apart s hs t ht hlt
    omega
  · exact heq
  · have hapart := h.apart t ht s hs hgt
    omega

/-- The walk is in the block of a start before it, and never beyond the last one. -/
theorem IsTiling.reach_spec {i : ℕ} (hbound : i ≤ bound) :
    (∀ s ∈ starts, s < i → s + width s ≤ reach used width i) ∧ (i < reach used width i → ∃ s ∈
      starts, s < i ∧ reach used width i = s + width s) := by
  induction i with
  | zero => exact ⟨fun s _ hlt ↦ absurd hlt (Nat.not_lt_zero s), fun hlt ↦ absurd hlt (lt_irrefl 0)⟩
  | succ i ih =>
    obtain ⟨hends, hinside⟩ := ih (Nat.le_of_succ_le hbound)
    rw [reach]
    split
    · rename_i hstart
      obtain ⟨s, hs, hsi, hlt⟩ := h.covered i hbound hstart.1
      have hsame : s = i := by
        by_contra hne
        have hend := hends s hs (by omega)
        omega
      subst hsame
      refine ⟨fun t ht htlt ↦ ?_, fun _ ↦ ⟨s, hs, Nat.lt_succ_self s, rfl⟩⟩
      by_cases heq : t = s
      · rw [heq]
      · have hapart := h.apart t ht s hs (by omega)
        omega
    · rename_i hskip
      refine ⟨fun s hs hlt ↦ ?_, fun hlt ↦ ?_⟩
      · by_cases heq : s = i
        · -- a start inside an entered block would overlap that block
          subst heq
          have hused := h.used_of_mem hs
          obtain ⟨t, ht, htlt, hreach⟩ := hinside (by
            by_contra hle
            exact hskip ⟨hused, not_lt.mp hle⟩)
          have hapart := h.apart t ht s hs htlt
          exact absurd ⟨hused, hreach ▸ hapart⟩ hskip
        · exact hends s hs (by omega)
      · obtain ⟨s, hs, hlt', hreach⟩ := hinside (by omega)
        exact ⟨s, hs, by omega, hreach⟩

/-- The walk finds every tiling, so there is at most one. -/
theorem IsTiling.eq_walk : starts = walk used width bound := by
  ext i
  unfold walk
  rw [Finset.mem_filter, Finset.mem_range]
  constructor
  · intro hi
    have hbound := h.lt_bound hi
    refine ⟨hbound, h.used_of_mem hi, ?_⟩
    by_contra hlt
    obtain ⟨s, hs, hsi, hreach⟩ := (h.reach_spec hbound.le).2 (not_le.mp hlt)
    have hapart := h.apart s hs i hi hsi
    omega
  · rintro ⟨hbound, hused, hreach⟩
    obtain ⟨s, hs, hsi, hlt⟩ := h.covered i hbound hused
    by_cases heq : s = i
    · exact heq ▸ hs
    · have hend := (h.reach_spec hbound.le).1 s hs (by omega)
      omega

/-- A cell that the walk does not find inside a block is a start, or not used. -/
theorem IsTiling.mem_of_reach_le {i : ℕ} (hbound : i < bound)
    (hused : used i = true) (hreach : reach used width i ≤ i) : i ∈ starts := by
  rw [h.eq_walk, walk, Finset.mem_filter, Finset.mem_range]
  exact ⟨hbound, hused, hreach⟩

theorem IsTiling.congr
    (hused : ∀ i < bound, used' i = used i) (hwidth : ∀ s ∈ starts, width' s = width s) :
    IsTiling used' width' bound starts where
  positive s hs := hwidth s hs ▸ h.positive s hs
  inside s hs := hwidth s hs ▸ h.inside s hs
  apart s hs t ht hlt := hwidth s hs ▸ h.apart s hs t ht hlt
  filled s hs i hsi hlt := by
    rw [hwidth s hs] at hlt
    rw [hused i (lt_of_lt_of_le hlt (h.inside s hs))]
    exact h.filled s hs i hsi hlt
  covered i hi hui := by
    rw [hused i hi] at hui
    obtain ⟨s, hs, hsi, hlt⟩ := h.covered i hi hui
    exact ⟨s, hs, hsi, hwidth s hs ▸ hlt⟩

theorem IsTiling.insert {bound' : ℕ} (hbound : bound ≤ bound') (hpos : 0 < width' s)
    (hinside : s + width' s ≤ bound')
    (hfree : ∀ i, s ≤ i → i < s + width' s → i < bound → used i = false)
    (hnew : ∀ i, s ≤ i → i < s + width' s → used' i = true)
    (hold : ∀ i < bound, i < s ∨ s + width' s ≤ i → used' i = used i)
    (hrest : ∀ i, bound ≤ i → i < bound' → i < s ∨ s + width' s ≤ i → used' i = false)
    (hwidth : ∀ t ∈ starts, width' t = width t) :
    IsTiling used' width' bound' (insert s starts) := by
  -- an old block cannot meet the new one, whose cells were free
  have hclear (t : ℕ) (ht : t ∈ starts) : t + width t ≤ s ∨ s + width' s ≤ t := by
    by_contra hmeet
    have hend := h.inside t ht
    have htpos := h.positive t ht
    have hmax : used (max s t) = false := hfree _ (le_max_left s t) (by omega) (by omega)
    have hfilled := h.filled t ht (max s t) (le_max_right s t) (by omega)
    rw [hmax] at hfilled
    cases hfilled
  constructor
  · intro t ht
    rcases Finset.mem_insert.mp ht with rfl | ht
    · exact hpos
    · exact hwidth t ht ▸ h.positive t ht
  · intro t ht
    rcases Finset.mem_insert.mp ht with rfl | ht
    · exact hinside
    · exact hwidth t ht ▸ (h.inside t ht).trans hbound
  · intro t ht u hu hlt
    rcases Finset.mem_insert.mp ht with rfl | ht' <;>
      rcases Finset.mem_insert.mp hu with rfl | hu'
    · exact absurd hlt (lt_irrefl _)
    · have hposu := h.positive u hu'
      have hmeet := hclear u hu'
      omega
    · have hmeet := hclear t ht'
      rw [hwidth t ht']
      omega
    · exact hwidth t ht' ▸ h.apart t ht' u hu' hlt
  · intro t ht i hti hlt
    rcases Finset.mem_insert.mp ht with rfl | ht
    · exact hnew i hti hlt
    · rw [hwidth t ht] at hlt
      have hend := h.inside t ht
      have hmeet := hclear t ht
      rw [hold i (by omega) (by omega)]
      exact h.filled t ht i hti hlt
  · intro i hi hui
    by_cases hin : s ≤ i ∧ i < s + width' s
    · exact ⟨s, Finset.mem_insert_self s starts, hin⟩
    · by_cases hib : i < bound
      · rw [hold i hib (by omega)] at hui
        obtain ⟨t, ht, hti, hlt⟩ := h.covered i hib hui
        exact ⟨t, Finset.mem_insert_of_mem ht, hti, hwidth t ht ▸ hlt⟩
      · rw [hrest i (by omega) hi (by omega)] at hui
        cases hui

theorem IsTiling.erase (hs : s ∈ starts) (hfreed : ∀ i, s ≤ i → i < s + width s → used' i = false)
    (hold : ∀ i < bound, i < s ∨ s + width s ≤ i → used' i = used i)
    (hwidth : ∀ t ∈ starts, t ≠ s → width' t = width t) :
    IsTiling used' width' bound (starts.erase s) := by
  have hkept (t : ℕ) (ht : t ∈ starts.erase s) : t ∈ starts ∧ width' t = width t := by
    rw [Finset.mem_erase] at ht
    exact ⟨ht.2, hwidth t ht.2 ht.1⟩
  constructor
  · intro t ht
    exact (hkept t ht).2 ▸ h.positive t (hkept t ht).1
  · intro t ht
    exact (hkept t ht).2 ▸ h.inside t (hkept t ht).1
  · intro t ht u hu hlt
    exact (hkept t ht).2 ▸ h.apart t (hkept t ht).1 u (hkept u hu).1 hlt
  · intro t ht i hti hlt
    obtain ⟨hmem, hsame⟩ := hkept t ht
    rw [hsame] at hlt
    have hout : i < s ∨ s + width s ≤ i := by
      by_contra hin
      exact (Finset.mem_erase.mp ht).1 (h.block_unique hmem hs ⟨hti, hlt⟩ (by omega))
    rw [hold i (lt_of_lt_of_le hlt (h.inside t hmem)) hout]
    exact h.filled t hmem i hti hlt
  · intro i hi hui
    have hout : i < s ∨ s + width s ≤ i := by
      by_contra hin
      rw [hfreed i (by omega) (by omega)] at hui
      cases hui
    rw [hold i hi hout] at hui
    obtain ⟨t, ht, hti, hlt⟩ := h.covered i hi hui
    have hne : t ≠ s := by
      rintro rfl
      omega
    exact ⟨t, Finset.mem_erase.mpr ⟨hne, ht⟩, hti, hwidth t ht hne ▸ hlt⟩

omit h

theorem reach_congr {i : ℕ} (hsame : ∀ j < i, used' j = used j ∧ width' j = width j) :
    reach used' width' i = reach used width i := by
  induction i with
  | zero => rfl
  | succ i ih =>
    obtain ⟨hused, hwidth⟩ := hsame i (Nat.lt_succ_self i)
    rw [reach, reach, ih fun j hj ↦ hsame j (Nat.lt_succ_of_lt hj), hused, hwidth]

section

variable (h : IsTiling used width bound starts)

include h

theorem IsTiling.mem_of_same_before {starts' : Finset ℕ} (h' : IsTiling used' width' bound starts')
    (hs : s ∈ starts) (hused : used' s = true)
    (hsame : ∀ j < s, used' j = used j ∧ width' j = width j) : s ∈ starts' := by
  apply h'.mem_of_reach_le (h.lt_bound hs) hused
  rw [reach_congr hsame]
  rw [h.eq_walk, walk, Finset.mem_filter] at hs
  exact hs.2.2

theorem IsTiling.next_mem (hs : s ∈ starts) (hbound : s + width s < bound)
    (hused : used (s + width s) = true) : s + width s ∈ starts := by
  obtain ⟨t, ht, hti, hlt⟩ := h.covered _ hbound hused
  rcases Nat.lt_trichotomy t s with hbefore | rfl | hafter
  · have hapart := h.apart t ht s hs hbefore
    omega
  · omega
  · have hapart := h.apart s hs t ht hafter
    have heq : t = s + width s := by omega
    exact heq ▸ ht

/-- Two tilings by widths that agree from some cell on have no overlapping blocks of one width
there: each block of the one would be met by the next block of the other, and there is no last
block. -/
theorem IsTiling.not_shifted {starts' : Finset ℕ} {w : ℕ} (h' : IsTiling used' width' bound starts')
    (hwidth : ∀ s ∈ starts, ∀ i, s ≤ i → i < s + width s → width i = width s)
    (hwidth' : ∀ s ∈ starts', ∀ i, s ≤ i → i < s + width' s → width' i = width' s) :
    ∀ {a b : ℕ}, a ∈ starts → width a = w → b ∈ starts' → width' b = w → a < b → b < a + w →
      (∀ i, b ≤ i → used' i = used i ∧ width' i = width i) → False := by
  intro a b
  induction hleft : bound - b using Nat.strong_induction_on generalizing a b with
  | _ left ih =>
    intro ha hwa hb hwb hab hba hsame
    have hinside := h'.inside b hb
    rw [hwb] at hinside
    -- the cell behind the first block lies in the second one
    have hmeets : used (a + w) = true := by
      rw [← (hsame (a + w) (by omega)).1]
      exact h'.filled b hb (a + w) (by omega) (by omega)
    have hnext : a + w ∈ starts := hwa ▸ h.next_mem ha (by omega) (hwa.symm ▸ hmeets)
    have hwnext : width (a + w) = w := by
      rw [← (hsame (a + w) (by omega)).2, hwidth' b hb (a + w) (by omega) (by omega), hwb]
    have hend := h.inside (a + w) hnext
    rw [hwnext] at hend
    -- and the cell behind the second block in the one that starts there
    have hmeets' : used' (b + w) = true := by
      rw [(hsame (b + w) (by omega)).1]
      exact h.filled (a + w) hnext (b + w) (by omega) (by omega)
    have hnext' : b + w ∈ starts' := hwb ▸ h'.next_mem hb (by omega) (hwb.symm ▸ hmeets')
    have hwnext' : width' (b + w) = w := by
      rw [(hsame (b + w) (by omega)).2, hwidth (a + w) hnext (b + w) (by omega) (by omega), hwnext]
    exact ih (bound - (b + w)) (by omega) rfl hnext hwnext hnext' hwnext' (by omega) (by omega)
      fun i hi ↦ hsame i (by omega)

end

end Xv6Shm.Tiling
