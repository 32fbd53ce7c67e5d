import Xv6Shm.File.Ftable

/-!
# The ends of pipes

Which file is which end of which pipe, the flags of the pipes and the pages not in use. Each end
belongs to one file, its flag is set while that file exists, and the page of a pipe comes back with
the last of the two.
-/

namespace Xv6Shm

open Function

/-- The ends that files are, the flags and the free pages fit together; `pages` are all pages. -/
structure PipesExact {Key : Type} (pages : List ℕ) (owner : Key → Option (ℕ × Bool))
    (ends : ℕ → PipeEnds) (free : Multiset ℕ) : Prop where
  apart : ∀ f g e, owner f = some e → owner g = some e → f = g
  isOpen : ∀ f page w, owner f = some (page, w) → (ends page).isOpen w = true
  shut : ∀ f page w, owner f = some (page, w) → (ends page).isOpen (!w) = true →
    ∃ g, owner g = some (page, !w)
  nodup : free.Nodup
  frames : ∀ page ∈ free, IsFrame page
  inUse : ∀ f page w, owner f = some (page, w) → IsFrame page ∧ page ∉ free
  complete : ∀ page ∈ pages, page ∈ free ∨ ∃ f w, owner f = some (page, w)

namespace PipeEnds

@[simp] theorem isOpen_both (w : Bool) : PipeEnds.isOpen ⟨true, true⟩ w = true := by
  cases w <;> rfl

@[simp] theorem isOpen_shut_self (ends : PipeEnds) (w : Bool) : (ends.shut w).isOpen w = false := by
  cases w <;> rfl

@[simp] theorem isOpen_shut_other (ends : PipeEnds) (w : Bool) :
    (ends.shut w).isOpen (!w) = ends.isOpen (!w) := by
  cases w <;> rfl

theorem shut_both (ends : PipeEnds) (w : Bool) :
    ((ends.shut w).readopen = false ∧ (ends.shut w).writeopen = false) ↔
      ends.isOpen (!w) = false := by
  cases w
  · simp [shut, isOpen]
  · simp [shut, isOpen]

end PipeEnds

namespace PipesExact

variable {Key : Type} [DecidableEq Key] {pages : List ℕ} {owner : Key → Option (ℕ × Bool)}
  {ends : ℕ → PipeEnds} {free : Multiset ℕ} {f g : Key} {page : ℕ} {w : Bool}

/-- A new pipe in a free page, whose ends are two files that were none. -/
theorem create (h : PipesExact pages owner ends (page ::ₘ free)) (hfg : f ≠ g)
    (hf : owner f = none) (hg : owner g = none) :
    PipesExact pages (update (update owner f (some (page, false))) g (some (page, true)))
      (update ends page ⟨true, true⟩) free := by
  have hnew := Multiset.nodup_cons.mp h.nodup
  have hframe := h.frames page (Multiset.mem_cons_self _ _)
  have hcases : ∀ x e, update (update owner f (some (page, false))) g
      (some (page, true)) x = some e ↔
        (x = f ∧ e = (page, false)) ∨ (x = g ∧ e = (page, true)) ∨ owner x = some e := by
    intro x e
    by_cases hxg : x = g
    · subst hxg
      simp [hfg.symm, hg, eq_comm]
    · by_cases hxf : x = f
      · subst hxf
        simp [hxg, hf, eq_comm]
      · simp [hxg, hxf]
  have hold : ∀ x p' w', owner x = some (p', w') → p' ≠ page := by
    rintro x p' w' hx rfl
    exact (h.inUse x p' w' hx).2 (Multiset.mem_cons_self _ _)
  refine ⟨fun x y e hx hy ↦ ?_, fun x p' w' hx ↦ ?_, fun x p' w' hx hopen ↦ ?_, hnew.2,
    fun p' hp' ↦ h.frames p' (Multiset.mem_cons_of_mem hp'), fun x p' w' hx ↦ ?_,
    fun p' hp' ↦ ?_⟩
  · rcases (hcases x e).mp hx with ⟨rfl, rfl⟩ | ⟨rfl, rfl⟩ | holdx
    · rcases (hcases y _).mp hy with ⟨rfl, -⟩ | ⟨rfl, he⟩ | hy
      · rfl
      · cases he
      · exact absurd rfl (hold y _ _ hy)
    · rcases (hcases y _).mp hy with ⟨rfl, he⟩ | ⟨rfl, -⟩ | hy
      · cases he
      · rfl
      · exact absurd rfl (hold y _ _ hy)
    · rcases (hcases y e).mp hy with ⟨rfl, rfl⟩ | ⟨rfl, rfl⟩ | hy
      · exact absurd rfl (hold x _ _ holdx)
      · exact absurd rfl (hold x _ _ holdx)
      · exact h.apart x y e holdx hy
  · rcases (hcases x _).mp hx with ⟨-, he⟩ | ⟨-, he⟩ | hx
    · cases he
      rw [update_self, PipeEnds.isOpen_both]
    · cases he
      rw [update_self, PipeEnds.isOpen_both]
    · rw [update_of_ne (hold x p' w' hx)]
      exact h.isOpen x p' w' hx
  · rcases (hcases x _).mp hx with ⟨-, he⟩ | ⟨-, he⟩ | hx
    · cases he
      exact ⟨g, (hcases g _).mpr (Or.inr (Or.inl ⟨rfl, rfl⟩))⟩
    · cases he
      exact ⟨f, (hcases f _).mpr (Or.inl ⟨rfl, rfl⟩)⟩
    · rw [update_of_ne (hold x p' w' hx)] at hopen
      obtain ⟨y, hy⟩ := h.shut x p' w' hx hopen
      exact ⟨y, (hcases y _).mpr (Or.inr (Or.inr hy))⟩
  · rcases (hcases x _).mp hx with ⟨-, he⟩ | ⟨-, he⟩ | hx
    · cases he
      exact ⟨hframe, hnew.1⟩
    · cases he
      exact ⟨hframe, hnew.1⟩
    · obtain ⟨hisFrame, hout⟩ := h.inUse x p' w' hx
      exact ⟨hisFrame, fun hmem ↦ hout (Multiset.mem_cons_of_mem hmem)⟩
  · rcases h.complete p' hp' with hmem | ⟨x, w', hx⟩
    · rcases Multiset.mem_cons.mp hmem with rfl | hmem
      · exact Or.inr ⟨f, false, (hcases f _).mpr (Or.inl ⟨rfl, rfl⟩)⟩
      · exact Or.inl hmem
    · exact Or.inr ⟨x, w', (hcases x _).mpr (Or.inr (Or.inr hx))⟩

/-- The file of an end goes, and the end is shut; the page goes with the second end. -/
theorem close (h : PipesExact pages owner ends free) (hf : owner f = some (page, w)) :
    PipesExact pages (update owner f none) (update ends page ((ends page).shut w))
      (if (ends page).isOpen (!w) = false then page ::ₘ free else free) := by
  have hcases : ∀ x e, update owner f none x = some e ↔ x ≠ f ∧ owner x = some e := by
    intro x e
    by_cases hxf : x = f
    · subst hxf
      simp
    · simp [hxf]
  -- the other files of this page are its other end
  have hother : ∀ x w', x ≠ f → owner x = some (page, w') → w' = !w := by
    intro x w' hxf hx
    by_contra hne
    have hsame : w' = w := by
      cases w <;> cases w' <;> simp_all
    exact hxf (h.apart x f _ hx (hsame ▸ hf))
  have hmem : ∀ {p' : ℕ}, p' ∈ (if (ends page).isOpen (!w) = false then page ::ₘ free else free) ↔
      p' ∈ free ∨ ((ends page).isOpen (!w) = false ∧ p' = page) := by
    intro p'
    split
    · rename_i hshut
      simp [hshut, or_comm]
    · rename_i hopen
      simp [hopen]
  refine ⟨fun x y e hx hy ↦ ?_, fun x p' w' hx ↦ ?_, fun x p' w' hx hopen ↦ ?_, ?_,
    fun p' hp' ↦ ?_, fun x p' w' hx ↦ ?_, fun p' hp' ↦ ?_⟩
  · exact h.apart x y e ((hcases x e).mp hx).2 ((hcases y e).mp hy).2
  · obtain ⟨hxf, hx⟩ := (hcases x _).mp hx
    have hold := h.isOpen x p' w' hx
    by_cases hpage : p' = page
    · subst hpage
      obtain rfl := hother x w' hxf hx
      rw [update_self, PipeEnds.isOpen_shut_other]
      exact hold
    · rw [update_of_ne hpage]
      exact hold
  · obtain ⟨hxf, hx⟩ := (hcases x _).mp hx
    by_cases hpage : p' = page
    · subst hpage
      obtain rfl := hother x w' hxf hx
      rw [update_self, Bool.not_not, PipeEnds.isOpen_shut_self] at hopen
      cases hopen
    · rw [update_of_ne hpage] at hopen
      obtain ⟨y, hy⟩ := h.shut x p' w' hx hopen
      refine ⟨y, (hcases y _).mpr ⟨?_, hy⟩⟩
      rintro rfl
      rw [hf] at hy
      cases hy
      exact hpage rfl
  · split
    · exact Multiset.nodup_cons.mpr ⟨(h.inUse f page w hf).2, h.nodup⟩
    · exact h.nodup
  · rcases hmem.mp hp' with hin | ⟨-, rfl⟩
    · exact h.frames p' hin
    · exact (h.inUse f _ w hf).1
  · obtain ⟨hxf, hx⟩ := (hcases x _).mp hx
    obtain ⟨hisFrame, hout⟩ := h.inUse x p' w' hx
    refine ⟨hisFrame, fun hin ↦ ?_⟩
    rcases hmem.mp hin with hin | ⟨hshut, rfl⟩
    · exact hout hin
    · obtain rfl := hother x w' hxf hx
      rw [h.isOpen x _ _ hx] at hshut
      cases hshut
  · rcases h.complete p' hp' with hin | ⟨x, w', hx⟩
    · exact Or.inl (hmem.mpr (Or.inl hin))
    · by_cases hxf : x = f
      · subst hxf
        rw [hf] at hx
        cases hx
        cases hopen : (ends page).isOpen (!w) with
        | false => exact Or.inl (by simp)
        | true =>
          obtain ⟨y, hy⟩ := h.shut x page w hf hopen
          refine Or.inr ⟨y, !w, (hcases y _).mpr ⟨?_, hy⟩⟩
          rintro rfl
          rw [hf] at hy
          cases w <;> cases hy
      · exact Or.inr ⟨x, w', (hcases x _).mpr ⟨hxf, hx⟩⟩

end PipesExact

end Xv6Shm
