import Mathlib.Data.Finset.Option

/-!
# Resources that are held by one key each

Keys hold resources of a region. A resource is marked as used exactly when a key holds it or it is
in transit: taken and not yet handed over, or withdrawn and not yet released; and it is in one place
only. The four moves of an allocator keep this: take, give, withdraw and release.
-/

namespace Xv6Shm

open Function

variable {Key Resource : Type}

/-- What the keys hold, what is marked as used, and what is in transit. -/
structure Holdings (region : Resource → Prop) (owner : Key → Option Resource)
    (used : Resource → Bool) (transit : List Resource) : Prop where
  inside : ∀ key r, owner key = some r → region r
  apart : ∀ key other r, owner key = some r → owner other = some r → key = other
  exact : ∀ r, region r → (used r = true ↔ (∃ key, owner key = some r) ∨ r ∈ transit)
  moving : ∀ r ∈ transit, region r ∧ ∀ key, owner key ≠ some r
  nodup : transit.Nodup

namespace Holdings

variable {region : Resource → Prop} {owner owner' : Key → Option Resource}
  {used : Resource → Bool} {transit : List Resource} {r : Resource}

section

variable (h : Holdings region owner used transit)

include h

theorem used_of_mem (hr : r ∈ transit) : used r = true :=
  (h.exact r (h.moving r hr).1).mpr (Or.inr hr)

theorem used_of_owner {key : Key} (hkey : owner key = some r) : used r = true :=
  (h.exact r (h.inside key r hkey)).mpr (Or.inl ⟨key, hkey⟩)

theorem owner_ne_of_unused (hunused : used r = false) (key : Key) : owner key ≠ some r := by
  intro hkey
  rw [h.used_of_owner hkey] at hunused
  cases hunused

end

/-- If a place is still empty when no resource is left, there were fewer free resources than places.
-/
theorem card_lt_of_full {used' : Resource → Bool} {Place : Type} {places : Finset Place}
    {free : Finset Resource} (h : Holdings region owner used [])
    (h' : Holdings region owner' used' []) (key : Place → Key)
    (hfree : ∀ r ∈ free, region r ∧ used r = false ∧ used' r = true)
    (hnew : ∀ other r, owner' other = some r → owner other = some r ∨ ∃ p ∈ places, key p = other)
    (hleft : ∃ p ∈ places, owner' (key p) = none) : free.card < places.card := by
  rw [Nat.lt_iff_add_one_le, ← Finset.card_insertNone]
  apply Finset.card_le_card_of_surjOn fun p ↦ owner' (key p)
  rintro (_ | r) hr
  · exact hleft
  · obtain ⟨hregion, hunused, hused⟩ := hfree r (Finset.some_mem_insertNone.mp hr)
    obtain ⟨other, hother⟩ := ((h'.exact r hregion).mp hused).resolve_right List.not_mem_nil
    obtain hold | ⟨p, hp, rfl⟩ := hnew other r hother
    · exact absurd hold (h.owner_ne_of_unused hunused other)
    · exact ⟨p, hp, hother⟩

section

variable [DecidableEq Resource]

theorem take (h : Holdings region owner used transit) (hregion : region r)
    (hunused : used r = false) :
    Holdings region owner (update used r true) (r :: transit) where
  inside := h.inside
  apart := h.apart
  exact := by
    intro s hs
    by_cases hsr : s = r
    · subst hsr
      simp
    · rw [update_of_ne hsr, h.exact s hs, List.mem_cons]
      simp only [hsr, false_or]
  moving := by
    intro s hs
    rcases List.mem_cons.mp hs with rfl | hs
    · exact ⟨hregion, h.owner_ne_of_unused hunused⟩
    · exact h.moving s hs
  nodup := by
    refine List.nodup_cons.mpr ⟨fun hmem ↦ ?_, h.nodup⟩
    rw [h.used_of_mem hmem] at hunused
    cases hunused

theorem release (h : Holdings region owner used (r :: transit)) :
    Holdings region owner (update used r false) transit where
  inside := h.inside
  apart := h.apart
  exact := by
    intro s hs
    by_cases hsr : s = r
    · subst hsr
      have hmoving := (h.moving s List.mem_cons_self).2
      have hout := (List.nodup_cons.mp h.nodup).1
      simp only [update_self, Bool.false_eq_true, false_iff, not_or, not_exists]
      exact ⟨hmoving, hout⟩
    · rw [update_of_ne hsr, h.exact s hs, List.mem_cons]
      simp only [hsr, false_or]
  moving := fun s hs ↦ h.moving s (List.mem_cons_of_mem r hs)
  nodup := (List.nodup_cons.mp h.nodup).2

end

theorem give [DecidableEq Key] {key : Key} (h : Holdings region owner used (r :: transit))
    (hkey : owner key = none) :
    Holdings region (update owner key (some r)) used transit := by
  have hmoving := h.moving r List.mem_cons_self
  have howner : ∀ other s, update owner key (some r) other = some s ↔
      (other = key ∧ s = r) ∨ owner other = some s := by
    intro other s
    by_cases hother : other = key
    · subst hother
      simp [hkey, eq_comm]
    · simp [hother]
  refine ⟨fun other s hs ↦ ?_, fun first second s hfirst hsecond ↦ ?_, fun s hs ↦ ?_,
    fun s hs ↦ ?_, (List.nodup_cons.mp h.nodup).2⟩
  · rcases (howner other s).mp hs with ⟨-, rfl⟩ | hs
    · exact hmoving.1
    · exact h.inside other s hs
  · rcases (howner first s).mp hfirst with ⟨rfl, rfl⟩ | hold
    · rcases (howner second _).mp hsecond with ⟨hkeys, -⟩ | hold
      · exact hkeys.symm
      · exact absurd hold (hmoving.2 second)
    · rcases (howner second s).mp hsecond with ⟨-, rfl⟩ | hold'
      · exact absurd hold (hmoving.2 first)
      · exact h.apart first second s hold hold'
  · rw [h.exact s hs, List.mem_cons]
    simp only [howner]
    constructor
    · rintro (⟨other, hother⟩ | rfl | hmem)
      · exact Or.inl ⟨other, Or.inr hother⟩
      · exact Or.inl ⟨key, Or.inl ⟨rfl, rfl⟩⟩
      · exact Or.inr hmem
    · rintro (⟨other, ⟨rfl, rfl⟩ | hother⟩ | hmem)
      · exact Or.inr (Or.inl rfl)
      · exact Or.inl ⟨other, hother⟩
      · exact Or.inr (Or.inr hmem)
  · have hold := h.moving s (List.mem_cons_of_mem r hs)
    refine ⟨hold.1, fun other hother ↦ ?_⟩
    rcases (howner other s).mp hother with ⟨-, rfl⟩ | hother
    · exact (List.nodup_cons.mp h.nodup).1 hs
    · exact hold.2 other hother

/-- Withdraw the resources on a list, which are those of the keys that lose theirs. -/
theorem withdraw (h : Holdings region owner used []) {taken : List Resource}
    (hkept : ∀ key, owner' key = owner key ∨ owner' key = none)
    (htaken : ∀ r, r ∈ taken ↔ ∃ key, owner key = some r ∧ owner' key = none)
    (hnodup : taken.Nodup) : Holdings region owner' used taken := by
  have hsome : ∀ key s, owner' key = some s → owner key = some s := by
    intro key s hs
    rcases hkept key with hsame | hnone
    · rwa [hsame] at hs
    · rw [hnone] at hs
      cases hs
  refine ⟨fun key s hs ↦ h.inside key s (hsome key s hs), fun key other s hkey hother ↦
    h.apart key other s (hsome key s hkey) (hsome other s hother), fun s hs ↦ ?_, fun s hs ↦ ?_,
    hnodup⟩
  · rw [h.exact s hs, htaken]
    simp only [List.not_mem_nil, or_false]
    constructor
    · rintro ⟨key, hkey⟩
      rcases hkept key with hsame | hnone
      · exact Or.inl ⟨key, hsame.trans hkey⟩
      · exact Or.inr ⟨key, hkey, hnone⟩
    · rintro (⟨key, hkey⟩ | ⟨key, hkey, -⟩)
      · exact ⟨key, hsome key s hkey⟩
      · exact ⟨key, hkey⟩
  · obtain ⟨key, hkey, hnone⟩ := (htaken s).mp hs
    refine ⟨h.inside key s hkey, fun other hother ↦ ?_⟩
    have hsame := h.apart other key s (hsome other s hother) hkey
    rw [hsame, hnone] at hother
    cases hother

end Holdings

end Xv6Shm
