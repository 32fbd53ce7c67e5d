import Xv6Shm.Lib.Tiling
import Xv6Shm.Shm.Cases

/-!
# Segments as blocks of the table

A segment is a block of consecutive slots whose length follows from the size that each carries.
`Coherent` says that the slots up to the last one are free slots and such blocks, and that the slots
of a block agree in all that describes the segment. The theorems say which changes of a table keep
it coherent.
-/

namespace Xv6Shm

open Fallible ShmPgTable ShmidDs

/-- The number of slots up to the last one. -/
def ShmPgTable.bound (table : ShmPgTable) : ℕ := (table.lastShmSegIndex + 1).toNat

def ShmPgTable.isLive (table : ShmPgTable) (i : ℕ) : Bool := (table.shmSegs i).shmPerm.key != -1

def ShmPgTable.pagesAt (table : ShmPgTable) (i : ℕ) : ℕ := (table.shmSegs i).pages

/-- The first slots of the segments. -/
def ShmPgTable.bases (table : ShmPgTable) : Finset ℕ :=
  Tiling.walk table.isLive table.pagesAt table.bound

/-- The identifier of a slot inside a segment that is not its first. -/
def ShmPgTable.isMiddle (table : ShmPgTable) (shmid : ℤ) : Bool :=
  decide (0 ≤ shmid ∧ shmid ≤ table.lastShmSegIndex ∧
    shmid.toNat < Tiling.reach table.isLive table.pagesAt shmid.toNat)

/-- Two slots that describe the same segment in the same way. -/
structure ShmidDs.Agrees (slot other : ShmidDs) : Prop where
  key : slot.shmPerm.key = other.shmPerm.key
  segsz : slot.shmSegsz = other.shmSegsz
  nattch : slot.shmNattch = other.shmNattch

theorem ShmidDs.Agrees.pages {slot other : ShmidDs} (h : slot.Agrees other) :
    slot.pages = other.pages := by
  unfold ShmidDs.pages
  rw [h.segsz]

theorem ShmidDs.fresh_agrees (pa pa' segSize perm : ℕ) (key pid : ℤ) :
    (fresh pa key segSize pid perm).Agrees (fresh pa' key segSize pid perm) :=
  ⟨rfl, rfl, rfl⟩

/-- A slot without a segment. -/
structure ShmidDs.Vacant (slot : ShmidDs) : Prop where
  key : slot.shmPerm.key = -1
  segsz : slot.shmSegsz = 0
  pa : slot.pa = 0
  nattch : slot.shmNattch = 0

structure Coherent (table : ShmPgTable) : Prop where
  bound_le : table.bound ≤ shmMaxSeg
  tiling : Tiling.IsTiling table.isLive table.pagesAt table.bound table.bases
  agree : ∀ s ∈ table.bases, ∀ i, s ≤ i → i < s + table.pagesAt s →
    (table.shmSegs i).Agrees (table.shmSegs s)
  frame : ∀ i < table.bound, table.isLive i = true → IsFrame (p2v (table.shmSegs i).pa)
  vacant : ∀ i < table.bound, table.isLive i = false → (table.shmSegs i).Vacant
  beyond : ∀ i, table.bound ≤ i → table.pagesAt i = 0

/-- A table between calls: sane, split into segments and free slots, not locked. -/
structure ShmPgTable.WellFormed (table : ShmPgTable) : Prop where
  sane : table.Sane
  coherent : Coherent table
  unlocked : table.locked = false

section Coherent

variable {table table' : ShmPgTable}

variable {i s perm index count : ℕ} {key pid : ℤ} {append : Bool} {frames : List ℕ}

theorem ShmPgTable.lt_bound (h : (i : ℤ) ≤ table.lastShmSegIndex) : i < table.bound := by
  unfold bound
  omega

theorem ShmPgTable.le_last (h : i < table.bound) : (i : ℤ) ≤ table.lastShmSegIndex := by
  unfold bound at h
  omega

theorem ShmPgTable.isLive_iff : table.isLive i = true ↔ (table.shmSegs i).shmPerm.key ≠ -1 := by
  exact bne_iff_ne

theorem ShmPgTable.isLive_eq_false :
    table.isLive i = false ↔ (table.shmSegs i).shmPerm.key = -1 := by
  exact bne_eq_false_iff_eq

theorem ShmPgTable.isMiddle_congr (hlast : table'.lastShmSegIndex = table.lastShmSegIndex)
    (hlive : ∀ i, table'.isLive i = table.isLive i)
    (hpages : ∀ i, table'.pagesAt i = table.pagesAt i) (shmid : ℤ) :
    table'.isMiddle shmid = table.isMiddle shmid := by
  unfold isMiddle
  rw [hlast, funext hlive, funext hpages]

theorem Coherent.of_tiling (starts : Finset ℕ) (hbound : table.bound ≤ shmMaxSeg)
    (htiling : Tiling.IsTiling table.isLive table.pagesAt table.bound starts)
    (hagree : ∀ s ∈ starts, ∀ i, s ≤ i → i < s + table.pagesAt s →
      (table.shmSegs i).Agrees (table.shmSegs s))
    (hframe : ∀ i < table.bound, table.isLive i = true → IsFrame (p2v (table.shmSegs i).pa))
    (hvacant : ∀ i < table.bound, table.isLive i = false → (table.shmSegs i).Vacant)
    (hbeyond : ∀ i, table.bound ≤ i → table.pagesAt i = 0) :
    Coherent table ∧ table.bases = starts := by
  have hbases : table.bases = starts := htiling.eq_walk.symm
  exact ⟨⟨hbound, hbases ▸ htiling, hbases ▸ hagree, hframe, hvacant, hbeyond⟩, hbases⟩

@[simp] theorem ShmPgTable.bases_initial : initial.bases = ∅ := by
  simp [bases, Tiling.walk, bound, initial]

theorem Coherent.initial : Coherent initial := by
  refine (Coherent.of_tiling ∅ ?_ ⟨?_, ?_, ?_, ?_, ?_⟩ ?_ ?_ ?_ ?_).1
  · exact Nat.zero_le _
  · simp
  · simp
  · simp
  · simp
  · intro i hi
    exact absurd hi (Nat.not_lt_zero i)
  · simp
  · intro i hi
    exact absurd hi (Nat.not_lt_zero i)
  · intro i hi
    exact absurd hi (Nat.not_lt_zero i)
  · intro i _
    exact Nat.zero_div _

section

variable (h : Coherent table)

include h

/-- A slot in use that is not in the middle of a segment is the first of one. -/
theorem Coherent.base_of_isLive (hbound : s < table.bound) (hlive : table.isLive s = true)
    (hmiddle : table.isMiddle s = false) : s ∈ table.bases := by
  apply h.tiling.mem_of_reach_le hbound hlive
  unfold isMiddle at hmiddle
  have hlast := le_last hbound
  simp only [decide_eq_false_iff_not, Int.toNat_natCast] at hmiddle
  omega

/-- A slot that is not in the middle of a segment has the identifier of a segment, or no pages. -/
theorem Coherent.base_or_empty (hmiddle : table.isMiddle s = false) :
    s ∈ table.bases ∨ table.pagesAt s = 0 := by
  by_cases hbound : s < table.bound
  · cases hlive : table.isLive s with
    | false =>
      right
      unfold pagesAt pages
      rw [(h.vacant s hbound hlive).segsz, Nat.zero_div]
    | true => exact Or.inl (h.base_of_isLive hbound hlive hmiddle)
  · exact Or.inr (h.beyond s (not_lt.mp hbound))

theorem Coherent.room (hs : s ∈ table.bases) :
    s + table.pagesAt s ≤ shmMaxSeg := (h.tiling.inside s hs).trans h.bound_le

theorem Coherent.isLive_of_mem (hs : s ∈ table.bases) :
    table.isLive s = true := h.tiling.used_of_mem hs

/-- The first slot with a key is the first slot of a segment, unless it is free. -/
theorem Coherent.lookup_mem (hlookup : table.lookup key = some i) (hkey : key ≠ -1) :
    i ∈ table.bases := by
  obtain ⟨hlast, hfound, hbefore⟩ := lookup_some hlookup
  have hlive : table.isLive i = true := isLive_iff.mpr (hfound ▸ hkey)
  obtain ⟨s, hs, hsi, hlt⟩ := h.tiling.covered i (lt_bound hlast) hlive
  have hsame := (h.agree s hs i hsi hlt).key
  by_cases heq : s = i
  · exact heq ▸ hs
  · exact absurd (hsame ▸ hfound) (hbefore s (by omega))

theorem Coherent.congr (hlast : table'.lastShmSegIndex = table.lastShmSegIndex)
    (hlive : ∀ i < table.bound, table'.isLive i = table.isLive i)
    (hpages : ∀ i, table'.pagesAt i = table.pagesAt i)
    (hpa : ∀ i, (table'.shmSegs i).pa = (table.shmSegs i).pa)
    (hvacant : ∀ i < table.bound, table.isLive i = false → (table'.shmSegs i).Vacant)
    (hagree : ∀ s ∈ table.bases, ∀ i, s ≤ i → i < s + table.pagesAt s →
      (table'.shmSegs i).Agrees (table'.shmSegs s)) :
    Coherent table' ∧ table'.bases = table.bases := by
  have hbound : table'.bound = table.bound := by
    unfold bound
    rw [hlast]
  apply Coherent.of_tiling table.bases
  · exact hbound ▸ h.bound_le
  · rw [hbound]
    exact h.tiling.congr hlive fun s _ ↦ hpages s
  · intro s hs i hsi hlt
    rw [hpages s] at hlt
    exact hagree s hs i hsi hlt
  · intro i hi hlivei
    rw [hbound] at hi
    rw [hpa i]
    exact h.frame i hi (hlive i hi ▸ hlivei)
  · intro i hi hlivei
    rw [hbound] at hi
    exact hvacant i hi (hlive i hi ▸ hlivei)
  · intro i hi
    rw [hbound] at hi
    rw [hpages i]
    exact h.beyond i hi

/-- Changes of fields that no part of the kernel tells segments by. -/
theorem Coherent.of_fields (hlast : table'.lastShmSegIndex = table.lastShmSegIndex)
    (hkey : ∀ i, (table'.shmSegs i).shmPerm.key = (table.shmSegs i).shmPerm.key)
    (hsegsz : ∀ i, (table'.shmSegs i).shmSegsz = (table.shmSegs i).shmSegsz)
    (hnattch : ∀ i, (table'.shmSegs i).shmNattch = (table.shmSegs i).shmNattch)
    (hpa : ∀ i, (table'.shmSegs i).pa = (table.shmSegs i).pa) :
    Coherent table' ∧ table'.bases = table.bases := by
  apply h.congr hlast
  · intro i _
    unfold isLive
    rw [hkey]
  · intro i
    unfold pagesAt pages
    rw [hsegsz]
  · exact hpa
  · intro i hi hlive
    obtain ⟨hkey', hsegsz', hpa', hnattch'⟩ := h.vacant i hi hlive
    exact ⟨hkey i ▸ hkey', hsegsz i ▸ hsegsz', hpa i ▸ hpa', hnattch i ▸ hnattch'⟩
  · intro s hs i hsi hlt
    obtain ⟨hkey', hsegsz', hnattch'⟩ := h.agree s hs i hsi hlt
    refine ⟨?_, ?_, ?_⟩
    · rw [hkey, hkey, hkey']
    · rw [hsegsz, hsegsz, hsegsz']
    · rw [hnattch, hnattch, hnattch']

end

/-- A change of all slots of a segment that leaves a segment behind. -/
structure KeepsSegment (table : ShmPgTable) (s : ℕ) (change : ShmidDs → ShmidDs) : Prop where
  live : (change (table.shmSegs s)).shmPerm.key ≠ -1
  pages : (change (table.shmSegs s)).pages = table.pagesAt s
  pa : ∀ slot, (change slot).pa = slot.pa
  agree : ∀ slot other : ShmidDs, slot.Agrees other → (change slot).Agrees (change other)

theorem KeepsSegment.of_fields {change : ShmidDs → ShmidDs} (hlive : table.isLive s = true)
    (hkey : ∀ slot, (change slot).shmPerm.key = slot.shmPerm.key)
    (hsegsz : ∀ slot, (change slot).shmSegsz = slot.shmSegsz)
    (hpa : ∀ slot, (change slot).pa = slot.pa)
    (hnattch : ∀ slot other : ShmidDs, slot.shmNattch = other.shmNattch →
      (change slot).shmNattch = (change other).shmNattch) : KeepsSegment table s change where
  live := by
    rw [hkey]
    exact isLive_iff.mp hlive
  pages := by
    unfold pagesAt ShmidDs.pages
    rw [hsegsz]
  pa := hpa
  agree slot other h := by
    refine ⟨?_, ?_, hnattch slot other h.nattch⟩
    · rw [hkey, hkey, h.key]
    · rw [hsegsz, hsegsz, h.segsz]

section OnPages

variable {s : ℕ} {change : ShmidDs → ShmidDs}

variable (h : Coherent table) (hs : s ∈ table.bases)

include h hs

theorem Coherent.outside {t i : ℕ}
    (ht : t ∈ table.bases) (hne : t ≠ s) (hti : t ≤ i) (hlt : i < t + table.pagesAt t) :
    i < s ∨ s + table.pagesAt s ≤ i := by
  by_contra hin
  exact hne (h.tiling.block_unique ht hs ⟨hti, hlt⟩ (by omega))

theorem Coherent.onPages_other {t : ℕ}
    (ht : t ∈ table.bases) (hne : t ≠ s) (change : ShmidDs → ShmidDs) :
    (table.onPages s (table.pagesAt s) change).shmSegs t = table.shmSegs t :=
  onPages_of_not_mem (h.outside hs ht hne le_rfl (Nat.lt_add_of_pos_right (h.tiling.positive t ht)))

section

variable (hchange : KeepsSegment table s change)

include hchange

theorem Coherent.onPages_agrees {i : ℕ} (hsi : s ≤ i) (hlt : i < s + table.pagesAt s) :
    ((table.onPages s (table.pagesAt s) change).shmSegs i).Agrees (change (table.shmSegs s)) := by
  rw [onPages_of_mem hsi hlt]
  exact hchange.agree _ _ (h.agree s hs i hsi hlt)

theorem Coherent.onPages_isLive (i : ℕ) :
    (table.onPages s (table.pagesAt s) change).isLive i = table.isLive i := by
  by_cases hin : s ≤ i ∧ i < s + table.pagesAt s
  · rw [h.tiling.filled s hs i hin.1 hin.2, isLive_iff,
      (h.onPages_agrees hs hchange hin.1 hin.2).key]
    exact hchange.live
  · unfold isLive
    rw [onPages_of_not_mem (by omega)]

theorem Coherent.onPages_pagesAt (i : ℕ) :
    (table.onPages s (table.pagesAt s) change).pagesAt i = table.pagesAt i := by
  by_cases hin : s ≤ i ∧ i < s + table.pagesAt s
  · exact (h.onPages_agrees hs hchange hin.1 hin.2).pages.trans
      (hchange.pages.trans (h.agree s hs i hin.1 hin.2).pages.symm)
  · rw [pagesAt, onPages_of_not_mem (by omega), pagesAt]

theorem Coherent.onPages : Coherent (table.onPages s (table.pagesAt s) change) ∧
      (table.onPages s (table.pagesAt s) change).bases = table.bases := by
  apply h.congr (onPages_last _ _ _ _)
  · exact fun i _ ↦ h.onPages_isLive hs hchange i
  · exact h.onPages_pagesAt hs hchange
  · exact onPages_field change pa hchange.pa
  · intro i hi hvacant
    have hout : i < s ∨ s + table.pagesAt s ≤ i := by
      by_contra hin
      rw [h.tiling.filled s hs i (by omega) (by omega)] at hvacant
      cases hvacant
    rw [onPages_of_not_mem hout]
    exact h.vacant i hi hvacant
  · intro t ht i hti hlt
    by_cases heq : t = s
    · subst heq
      rw [onPages_of_mem hti hlt, onPages_of_mem le_rfl (by omega)]
      exact hchange.agree _ _ (h.agree t ht i hti hlt)
    · rw [onPages_of_not_mem (h.outside hs ht heq hti hlt), h.onPages_other hs ht heq]
      exact h.agree t ht i hti hlt

end

end OnPages

theorem Coherent.freed (h : Coherent table) {s : ℕ} (hs : s ∈ table.bases) :
    Coherent (table.onPages s (table.pagesAt s) fun _ ↦ ShmidDs.freed) ∧
      (table.onPages s (table.pagesAt s) fun _ ↦ ShmidDs.freed).bases = table.bases.erase s := by
  have hin (i : ℕ) (hsi : s ≤ i) (hlt : i < s + table.pagesAt s) :
      (table.onPages s (table.pagesAt s) fun _ ↦ ShmidDs.freed).shmSegs i = ShmidDs.freed :=
    onPages_of_mem hsi hlt
  have hout (i : ℕ) (hi : i < s ∨ s + table.pagesAt s ≤ i) :
      (table.onPages s (table.pagesAt s) fun _ ↦ ShmidDs.freed).shmSegs i = table.shmSegs i :=
    onPages_of_not_mem hi
  have hother (t i : ℕ) (ht : t ∈ table.bases.erase s) (hti : t ≤ i)
      (hlt : i < t + table.pagesAt t) : i < s ∨ s + table.pagesAt s ≤ i :=
    h.outside hs (Finset.mem_of_mem_erase ht) (Finset.ne_of_mem_erase ht) hti hlt
  have hfirst (t : ℕ) (ht : t ∈ table.bases.erase s) : t < s ∨ s + table.pagesAt s ≤ t :=
    hother t t ht le_rfl
      (Nat.lt_add_of_pos_right (h.tiling.positive t (Finset.mem_of_mem_erase ht)))
  have hpages (t : ℕ) (ht : t ∈ table.bases.erase s) :
      (table.onPages s (table.pagesAt s) fun _ ↦ ShmidDs.freed).pagesAt t = table.pagesAt t := by
    rw [pagesAt, hout t (hfirst t ht), pagesAt]
  apply Coherent.of_tiling
  · exact h.bound_le
  · apply h.tiling.erase hs
    · intro i hsi hlt
      rw [isLive, hin i hsi hlt]
      rfl
    · intro i _ hi
      rw [isLive, hout i hi, isLive]
    · intro t ht hne
      exact hpages t (Finset.mem_erase.mpr ⟨hne, ht⟩)
  · intro t ht i hti hlt
    rw [hpages t ht] at hlt
    rw [hout i (hother t i ht hti hlt), hout t (hfirst t ht)]
    exact h.agree t (Finset.mem_of_mem_erase ht) i hti hlt
  · intro i hi hlive
    by_cases hmem : s ≤ i ∧ i < s + table.pagesAt s
    · rw [isLive, hin i hmem.1 hmem.2] at hlive
      cases hlive
    · rw [isLive, hout i (by omega)] at hlive
      rw [hout i (by omega)]
      exact h.frame i hi hlive
  · intro i hi hlive
    by_cases hmem : s ≤ i ∧ i < s + table.pagesAt s
    · rw [hin i hmem.1 hmem.2]
      exact ⟨rfl, rfl, rfl, rfl⟩
    · rw [isLive, hout i (by omega)] at hlive
      rw [hout i (by omega)]
      exact h.vacant i hi hlive
  · intro i hi
    by_cases hmem : s ≤ i ∧ i < s + table.pagesAt s
    · rw [pagesAt, hin i hmem.1 hmem.2]
      exact Nat.zero_div _
    · rw [pagesAt, hout i (by omega)]
      exact h.beyond i hi

theorem ShmPgTable.created_of_mem {segSize : ℕ} (hstart : index ≤ i) (hend : i < index + frames.length) :
    (table.created key segSize pid perm append index frames).shmSegs i =
      fresh (v2p (frames.getD (i - index) 0)) key segSize pid perm := by
  unfold created
  dsimp only
  rw [Cells.onRange_of_mem hstart hend]

theorem ShmPgTable.created_of_not_mem {segSize : ℕ} (h : i < index ∨ index + frames.length ≤ i) :
    (table.created key segSize pid perm append index frames).shmSegs i = table.shmSegs i := by
  unfold created
  dsimp only
  rw [Cells.onRange_of_not_mem h]

/-- A new segment in free slots or behind the last slot. -/
structure NewSegment (table table' : ShmPgTable) (index count : ℕ) : Prop where
  nonempty : 0 < count
  bound_le : table'.bound ≤ shmMaxSeg
  grows : table.bound ≤ table'.bound
  inside : index + count ≤ table'.bound
  fills : ∀ i, table.bound ≤ i → i < table'.bound → index ≤ i ∧ i < index + count
  free : ∀ i, index ≤ i → i < index + count → i < table.bound → table.isLive i = false
  live : ∀ i, index ≤ i → i < index + count → table'.isLive i = true
  pages : table'.pagesAt index = count
  agree : ∀ i, index ≤ i → i < index + count → (table'.shmSegs i).Agrees (table'.shmSegs index)
  frame : ∀ i, index ≤ i → i < index + count → IsFrame (p2v (table'.shmSegs i).pa)
  others : ∀ i, i < index ∨ index + count ≤ i → table'.shmSegs i = table.shmSegs i

theorem NewSegment.apart (hnew : NewSegment table table' index count)
    (h : Coherent table) {t : ℕ} (ht : t ∈ table.bases) (hti : t ≤ i)
    (hlt : i < t + table.pagesAt t) : i < index ∨ index + count ≤ i := by
  by_contra hmeet
  have hfilled := h.tiling.filled t ht i hti hlt
  have hbound := h.tiling.inside t ht
  rw [hnew.free i (by omega) (by omega) (by omega)] at hfilled
  cases hfilled

theorem NewSegment.pagesAt (hnew : NewSegment table table' index count)
    (h : Coherent table) {t : ℕ} (ht : t ∈ table.bases) : table'.pagesAt t = table.pagesAt t := by
  have hout := hnew.apart h ht le_rfl (Nat.lt_add_of_pos_right (h.tiling.positive t ht))
  rw [ShmPgTable.pagesAt, hnew.others t hout, ShmPgTable.pagesAt]

theorem Coherent.insert (h : Coherent table) (hnew : NewSegment table table' index count) :
    Coherent table' ∧ table'.bases = insert index table.bases := by
  have hcount := hnew.pages
  apply Coherent.of_tiling
  · exact hnew.bound_le
  · apply h.tiling.insert hnew.grows
    · exact hcount ▸ hnew.nonempty
    · exact hcount ▸ hnew.inside
    · exact hcount ▸ hnew.free
    · exact hcount ▸ hnew.live
    · intro i _ hout
      rw [hcount] at hout
      rw [isLive, hnew.others i hout, isLive]
    · intro i hi hi' hout
      have hfills := hnew.fills i hi hi'
      omega
    · intro t ht
      exact hnew.pagesAt h ht
  · intro t ht i hti hlt
    rcases Finset.mem_insert.mp ht with rfl | ht
    · exact hnew.agree i hti (hcount ▸ hlt)
    · rw [hnew.pagesAt h ht] at hlt
      rw [hnew.others i (hnew.apart h ht hti hlt), hnew.others t
        (hnew.apart h ht le_rfl (Nat.lt_add_of_pos_right (h.tiling.positive t ht)))]
      exact h.agree t ht i hti hlt
  · intro i hi hlive
    by_cases hin : index ≤ i ∧ i < index + count
    · exact hnew.frame i hin.1 hin.2
    · have hold : i < table.bound := by
        by_contra hbeyond
        exact hin (hnew.fills i (not_lt.mp hbeyond) hi)
      rw [isLive, hnew.others i (by omega)] at hlive
      rw [hnew.others i (by omega)]
      exact h.frame i hold hlive
  · intro i hi hlive
    by_cases hin : index ≤ i ∧ i < index + count
    · rw [hnew.live i hin.1 hin.2] at hlive
      cases hlive
    · have hold : i < table.bound := by
        by_contra hbeyond
        exact hin (hnew.fills i (not_lt.mp hbeyond) hi)
      rw [isLive, hnew.others i (by omega)] at hlive
      rw [hnew.others i (by omega)]
      exact h.vacant i hold hlive
  · intro i hi
    have hinside := hnew.inside
    rw [pagesAt, hnew.others i (by omega)]
    exact h.beyond i (hnew.grows.trans hi)

theorem Placed.newSegment {size : ℕ} (hplaced : Placed table (sizePages size) index append)
    (hsane : table.Sane) (hmin : shmMin ≤ size) (hmax : size ≤ maxSegSize) (hkey : key ≠ -1)
    (hframes : ∀ frame ∈ frames, IsFrame frame) (hlength : frames.length = sizePages size) :
    NewSegment table (table.created key (pgRoundUp size) pid perm append index frames) index
      (sizePages size) := by
  obtain ⟨hpos, -, -⟩ := sizePages_spec hmin hmax
  have hfits := hplaced.fits
  have hlt := hsane.last_lt
  have hin (i : ℕ) (hi : index ≤ i) (hi' : i < index + sizePages size) :
      (table.created key (pgRoundUp size) pid perm append index frames).shmSegs i =
        fresh (v2p (frames.getD (i - index) 0)) key (pgRoundUp size) pid perm :=
    created_of_mem hi (by omega)
  -- the place is behind the last slot, or in a run of free slots
  have hplace : (index = table.bound ∧
        (table.created key (pgRoundUp size) pid perm append index frames).bound =
          index + sizePages size) ∨
      (index + sizePages size ≤ table.bound ∧
        (∀ i, index ≤ i → i < index + sizePages size → table.isLive i = false) ∧
        (table.created key (pgRoundUp size) pid perm append index frames).bound = table.bound) := by
    unfold created bound
    cases append with
    | true =>
      have hextend := hplaced.extend rfl
      dsimp only
      rw [if_pos rfl, hlength]
      omega
    | false =>
      obtain ⟨hend, hrun⟩ := hplaced.reuse rfl
      refine Or.inr ⟨by omega, fun i hi hi' ↦ ?_, rfl⟩
      have hfree := hrun (i - index) (by omega)
      rw [Nat.add_sub_cancel' hi, isFree, beq_iff_eq] at hfree
      exact isLive_eq_false.mpr hfree
  have hbound : table.bound ≤ shmMaxSeg := by
    unfold bound
    omega
  constructor
  · exact hpos
  · omega
  · omega
  · omega
  · omega
  · intro i hi hi' hbefore
    rcases hplace with ⟨hindex, -⟩ | ⟨-, hfree, -⟩
    · omega
    · exact hfree i hi hi'
  · intro i hi hi'
    rw [isLive_iff, hin i hi hi']
    exact hkey
  · rw [pagesAt, hin index le_rfl (by omega)]
    rfl
  · intro i hi hi'
    rw [hin i hi hi', hin index le_rfl (by omega)]
    exact fresh_agrees _ _ _ _ _ _
  · intro i hi hi'
    rw [hin i hi hi']
    have hmem : frames.getD (i - index) 0 ∈ frames := by
      rw [List.getD_eq_getElem _ _ (by omega)]
      exact List.getElem_mem _
    have hframe := hframes _ hmem
    unfold fresh
    rwa [p2v_v2p hframe.isWord]
  · intro i hout
    exact created_of_not_mem (by omega)

end Coherent

end Xv6Shm
