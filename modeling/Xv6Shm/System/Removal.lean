import Xv6Shm.Memory.Contents
import Xv6Shm.System.Shmget

/-!
# Removing segments

`removeshm` resolves an identifier to a slot, marks the slots it takes for those of the segment, and
releases them if the attach count of the first one is zero, without asking whether the slot is the
first one of a segment. It is shown when it removes the segment it was asked for or does nothing,
and that a segment just created can be removed and gives back what it took.
-/

namespace Xv6Shm

open Fallible ShmPgTable ShmidDs

/-- The attach count and the mode with which a marked slot is released. -/
def ShmidDs.isReleasable (slot : ShmidDs) : Bool :=
  slot.shmNattch == 0 && (decide (0 < slot.pages) || slot.shmPerm.mode &&& shmDest != 0)

section Removal

variable {kernel kernel' : Kernel} {s : ℕ}

theorem freeshmPagesLoop_progress {kmem : Kmem} {table : ShmPgTable} {count : ℕ}
    (hroom : s + count ≤ shmMaxSeg)
    (hframes : ∀ offset < count, IsFrame (v2p (table.shmSegs (s + offset)).pa)) :
    ∃ result, freeshmPagesLoop kmem table s count = .ok result := by
  induction count with
  | zero => exact ⟨_, rfl⟩
  | succ count ih =>
    obtain ⟨⟨kmem', table'⟩, hloop⟩ := ih (by omega) fun offset hoffset ↦ hframes offset (by omega)
    have htable := (freeshmPagesLoop_eq_ok (by omega) hloop).2.1
    have hslot : table'.slot (s + count : ℕ) = .ok (table.shmSegs (s + count)) := by
      rw [htable, slot_natCast (by omega), onPages_of_not_mem (Or.inr le_rfl)]
    have hkfree : kmem'.kfree (v2p (table.shmSegs (s + count)).pa) = .ok _ :=
      Kmem.kfree_eq_ok.mpr ⟨hframes count (by omega), rfl⟩
    have hmodify : table'.modify (s + count : ℕ) (fun _ ↦ freed) = .ok _ :=
      modify_eq_ok.mpr ⟨s + count, rfl, by omega, rfl⟩
    rw [Nat.cast_add] at hslot hmodify
    rw [freeshmPagesLoop, hloop, ok_bind]
    dsimp only
    rw [hslot, ok_bind, hkfree, ok_bind, hmodify, ok_bind]
    exact ⟨_, rfl⟩

theorem removeSegment_eq (hs : s < shmMaxSeg)
    (hroom : s + kernel.shmpgtable.pagesAt s ≤ shmMaxSeg) :
    removeSegment kernel s =
      let marked := kernel.shmpgtable.onPages s (kernel.shmpgtable.pagesAt s) setDest
      if (kernel.shmpgtable.shmSegs s).isReleasable then do
        let (kmem, table) ← freeshmPagesLoop kernel.kmem marked s (kernel.shmpgtable.pagesAt s)
        pure ({ kernel with kmem := kmem, shmpgtable := table }, 0)
      else pure ({ kernel with shmpgtable := marked }, -1) := by
  have hmark := (@forPages_eq_ok kernel.shmpgtable s setDest hs.le _ _).mpr ⟨hroom, rfl⟩
  have hnattch : ((kernel.shmpgtable.onPages s (kernel.shmpgtable.pagesAt s)
      setDest).shmSegs s).shmNattch = (kernel.shmpgtable.shmSegs s).shmNattch :=
    onPages_field setDest shmNattch (fun _ ↦ rfl) s
  have hpages : ((kernel.shmpgtable.onPages s (kernel.shmpgtable.pagesAt s)
      setDest).shmSegs s).pages = kernel.shmpgtable.pagesAt s :=
    onPages_field setDest pages (fun _ ↦ rfl) s
  -- the mode is the mark, unless there is no page to mark
  have hmode : ((kernel.shmpgtable.onPages s (kernel.shmpgtable.pagesAt s)
      setDest).shmSegs s).shmPerm.mode &&& shmDest ≠ 0 ↔
      0 < kernel.shmpgtable.pagesAt s ∨ (kernel.shmpgtable.shmSegs s).shmPerm.mode &&& shmDest ≠ 0 := by
    by_cases hpos : 0 < kernel.shmpgtable.pagesAt s
    · rw [onPages_of_mem le_rfl (by omega)]
      exact ⟨fun _ ↦ Or.inl hpos, fun _ ↦ shmDest_set⟩
    · rw [onPages_of_not_mem (by omega)]
      exact ⟨Or.inr, fun h ↦ h.resolve_left hpos⟩
  have hreleasable : (kernel.shmpgtable.shmSegs s).isReleasable = true ↔
      (kernel.shmpgtable.shmSegs s).shmNattch = 0 ∧ (0 < kernel.shmpgtable.pagesAt s ∨
        (kernel.shmpgtable.shmSegs s).shmPerm.mode &&& shmDest ≠ 0) := by
    unfold isReleasable pagesAt
    simp
  have hcount : (kernel.shmpgtable.shmSegs s).pages = kernel.shmpgtable.pagesAt s := rfl
  unfold removeSegment
  rw [slot_natCast hs, ok_bind, hcount, hmark, ok_bind, slot_natCast hs, ok_bind, hnattch]
  simp only [hmode, hreleasable]
  split
  · unfold freeshmPages
    rw [slot_natCast hs, ok_bind, hpages]
  · rfl

theorem removeshmHelper_eq (hsane : kernel.shmpgtable.Sane) (shmIdentifier flag : ℤ) :
    removeshmHelper kernel shmIdentifier flag =
      if flag = 1 then
        match kernel.shmpgtable.lookup shmIdentifier with
        | none => .ok (kernel, -1)
        | some i => removeSegment kernel i
      else if kernel.shmpgtable.lastShmSegIndex = -1 ∨
          shmIdentifier = kernel.shmpgtable.lastShmSegIndex + 1 then .ok (kernel, -1)
      else removeSegment kernel shmIdentifier := by
  unfold removeshmHelper
  split
  · rw [findKey_eq hsane.last_lt, ok_bind]
    rfl
  · have hlast : 0 = kernel.shmpgtable.lastShmSegIndex + 1 ↔
        kernel.shmpgtable.lastShmSegIndex = -1 := by omega
    simp only [hlast, pure_eq_ok]

theorem removeshmHelper_of_resolves (hsane : kernel.shmpgtable.Sane) {shmIdentifier flag : ℤ}
    (h : kernel.shmpgtable.Resolves shmIdentifier flag s) :
    removeshmHelper kernel shmIdentifier flag = removeSegment kernel s := by
  rw [removeshmHelper_eq hsane]
  unfold Resolves at h
  split at h
  · rename_i hflag
    rw [if_pos hflag, h]
  · rename_i hflag
    obtain ⟨rfl, hlast, hnext⟩ := h
    rw [if_neg hflag, if_neg (by omega)]

/-- An identifier resolves to a slot, or the call is refused at once, or it indexes outside the
table. -/
theorem removeshm_resolution (hsane : kernel.shmpgtable.Sane) (shmIdentifier flag : ℤ) :
    (∃ t, kernel.shmpgtable.Resolves shmIdentifier flag t) ∨
      removeshmHelper kernel shmIdentifier flag = .ok (kernel, -1) ∨
      flag ≠ 1 ∧ kernel.shmpgtable.lastShmSegIndex ≠ -1 ∧ shmIdentifier < 0 := by
  rw [removeshmHelper_eq hsane]
  unfold Resolves
  by_cases hflag : flag = 1
  · simp only [if_pos hflag]
    cases hlookup : kernel.shmpgtable.lookup shmIdentifier with
    | none => exact Or.inr (Or.inl rfl)
    | some i => exact Or.inl ⟨i, rfl⟩
  · simp only [if_neg hflag]
    by_cases hrefused : kernel.shmpgtable.lastShmSegIndex = -1 ∨
        shmIdentifier = kernel.shmpgtable.lastShmSegIndex + 1
    · exact Or.inr (Or.inl (if_pos hrefused))
    · by_cases hneg : shmIdentifier < 0
      · exact Or.inr (Or.inr ⟨hflag, by omega, hneg⟩)
      · exact Or.inl ⟨shmIdentifier.toNat, by omega, by omega, by omega⟩

theorem ShmPgTable.Resolves.unique {table : ShmPgTable} {shmIdentifier flag : ℤ} {t : ℕ}
    (h : table.Resolves shmIdentifier flag s) (h' : table.Resolves shmIdentifier flag t) : s = t := by
  unfold Resolves at h h'
  split at h
  · rename_i hflag
    rw [if_pos hflag, h] at h'
    exact Option.some.inj h'
  · rename_i hflag
    rw [if_neg hflag] at h'
    omega

end Removal

/-- The identifier is that of segment `s`, or its key; of several segments with the key it is the
first one. -/
def ShmPgTable.Denotes (table : ShmPgTable) (shmIdentifier flag : ℤ) (s : ℕ) : Prop :=
  s ∈ table.bases ∧ 0 < table.pagesAt s ∧
    if flag = 1 then (table.shmSegs s).shmPerm.key = shmIdentifier ∧
      ∀ t ∈ table.bases, (table.shmSegs t).shmPerm.key = shmIdentifier → s ≤ t
    else shmIdentifier = s

/-- Exactly the slots of segment `s` have become free, and exactly its frames have been returned. -/
structure Releases (kernel : Kernel) (s : ℕ) (kernel' : Kernel) : Prop where
  freed : ∀ i, s ≤ i → i < s + kernel.shmpgtable.pagesAt s → kernel'.shmpgtable.isLive i = false
  others : ∀ i, i < s ∨ s + kernel.shmpgtable.pagesAt s ≤ i →
    kernel'.shmpgtable.shmSegs i = kernel.shmpgtable.shmSegs i
  last : kernel'.shmpgtable.lastShmSegIndex = kernel.shmpgtable.lastShmSegIndex
  frames : (kernel'.kmem.freelist : Multiset ℕ) =
    ∑ offset ∈ Finset.range (kernel.shmpgtable.pagesAt s),
      {p2v (kernel.shmpgtable.shmSegs (s + offset)).pa} + (kernel.kmem.freelist : Multiset ℕ)
  proc : kernel'.proc = kernel.proc

/-- The call removes the segment that the identifier denotes if it is not attached, and else returns
-1 and changes nothing. -/
structure RemovesExactly (kernel : Kernel) (shmIdentifier flag : ℤ)
    (outcome : Except Fault (Kernel × ℤ)) : Prop where
  removes : ∀ s, kernel.shmpgtable.Denotes shmIdentifier flag s →
    (kernel.shmpgtable.shmSegs s).shmNattch = 0 →
    ∃ kernel', outcome = .ok (kernel', 0) ∧ Releases kernel s kernel'
  refuses : (∀ s, kernel.shmpgtable.Denotes shmIdentifier flag s →
    (kernel.shmpgtable.shmSegs s).shmNattch ≠ 0) → outcome = .ok (kernel, -1)

/-- The slots that a removal at slot `s` works on exist. -/
def ShmPgTable.InTable (table : ShmPgTable) (s : ℕ) : Prop :=
  s < shmMaxSeg ∧ s + table.pagesAt s ≤ shmMaxSeg

/-- The condition for an exact removal: an identifier that is not refused at once leads to slots of
the table; a segment that can be removed is what it leads to; and any other slot it leads to is not
released and its pages already have the mode that the call sets. -/
structure ShmPgTable.Removal (table : ShmPgTable) (shmIdentifier flag : ℤ) : Prop where
  nonneg : flag ≠ 1 → table.lastShmSegIndex ≠ -1 → 0 ≤ shmIdentifier
  inTable : ∀ s, table.Resolves shmIdentifier flag s → table.InTable s
  denoted : ∀ s, table.Denotes shmIdentifier flag s → (table.shmSegs s).shmNattch = 0 →
    table.Resolves shmIdentifier flag s ∧
      ∀ offset < table.pagesAt s, IsFrame (p2v (table.shmSegs (s + offset)).pa)
  other : ∀ s, table.Resolves shmIdentifier flag s →
    ¬ (table.Denotes shmIdentifier flag s ∧ (table.shmSegs s).shmNattch = 0) →
    (table.shmSegs s).isReleasable = false ∧
      ∀ i, s ≤ i → i < s + table.pagesAt s → (table.shmSegs i).shmPerm.mode = shmDest

section Exact

variable {kernel kernel' : Kernel} {shmIdentifier flag : ℤ} {s : ℕ}

variable {table : ShmPgTable}

theorem ShmPgTable.Denotes.resolves_of_id (hflag : flag ≠ 1)
    (h : table.Denotes shmIdentifier flag s) : table.Resolves shmIdentifier flag s := by
  obtain ⟨hbase, -, hid⟩ := h
  rw [if_neg hflag] at hid
  have hlast := le_last (Finset.mem_range.mp (Finset.mem_filter.mp hbase).1)
  rw [Resolves, if_neg hflag]
  exact ⟨hid, by omega, by omega⟩

theorem ShmPgTable.Denotes.isLive (h : table.Denotes shmIdentifier flag s) :
    table.isLive s = true := (Finset.mem_filter.mp h.1).2.1

/-- The slot that a key resolves to is not behind the segment that the key denotes. -/
theorem ShmPgTable.Denotes.lookup_le (h : table.Denotes shmIdentifier 1 s) :
    ∃ i ≤ s, table.lookup shmIdentifier = some i ∧
      (table.shmSegs i).shmPerm.key = shmIdentifier := by
  obtain ⟨hbase, -, hkey⟩ := h
  rw [if_pos rfl] at hkey
  have hlast := le_last (Finset.mem_range.mp (Finset.mem_filter.mp hbase).1)
  cases hlookup : table.lookup shmIdentifier with
  | none => exact absurd hkey.1 (lookup_none hlookup s hlast)
  | some i =>
    obtain ⟨-, hfound, hbefore⟩ := lookup_some hlookup
    exact ⟨i, not_lt.mp fun hlt ↦ hbefore s hlt hkey.1, rfl, hfound⟩

theorem removeSegment_releases (h : removeSegment kernel s = .ok (kernel', 0)) :
    Releases kernel s kernel' := by
  obtain ⟨t, hst, -, -, ⟨-, hresult, -⟩ | ⟨kmem, -, rfl, hfree, -, -⟩⟩ := removeSegment_cases h
  · cases hresult
  cases Int.ofNat_inj.mp hst
  refine ⟨fun i hi hi' ↦ ?_, fun i hout ↦ ?_, rfl, ?_, rfl⟩
  · have hslot : (kernel.shmpgtable.onPages s (kernel.shmpgtable.shmSegs s).pages
        fun _ ↦ freed).shmSegs i = freed := onPages_of_mem hi hi'
    exact isLive_eq_false.mpr (congrArg (fun slot ↦ slot.shmPerm.key) hslot)
  · exact onPages_of_not_mem hout
  · rw [hfree, framesAt]
    rfl

/-- A refused removal has only set modes. -/
theorem removeSegment_refuses_iff (hin : kernel.shmpgtable.InTable s) :
    removeSegment kernel s = .ok (kernel, -1) ↔
      (kernel.shmpgtable.shmSegs s).isReleasable = false ∧ ∀ i, s ≤ i →
        i < s + kernel.shmpgtable.pagesAt s → (kernel.shmpgtable.shmSegs i).shmPerm.mode = shmDest := by
  have hmarked : kernel.shmpgtable.onPages s (kernel.shmpgtable.pagesAt s) setDest =
      kernel.shmpgtable ↔ ∀ i, s ≤ i → i < s + kernel.shmpgtable.pagesAt s →
        (kernel.shmpgtable.shmSegs i).shmPerm.mode = shmDest := by
    rw [onPages_eq_self_iff]
    apply forall₃_congr
    intro i _ _
    constructor
    · intro hslot
      exact (congrArg (fun slot ↦ slot.shmPerm.mode) hslot).symm
    · intro hmode
      rw [setDest, ← hmode]
  rw [removeSegment_eq hin.1 hin.2, ← hmarked]
  split
  · rename_i hreleasable
    constructor
    · intro h
      obtain ⟨⟨kmem, table⟩, -, h⟩ := bind_eq_ok.mp h
      exact absurd (Prod.mk.inj (Except.ok.inj h)).2 (by decide)
    · rintro ⟨hnot, -⟩
      rw [hreleasable] at hnot
      cases hnot
  · rename_i hreleasable
    rw [Bool.not_eq_true] at hreleasable
    constructor
    · intro h
      have hkernel := (Prod.mk.inj (Except.ok.inj h)).1
      exact ⟨hreleasable, congrArg Kernel.shmpgtable hkernel⟩
    · rintro ⟨-, hsame⟩
      rw [hsame]
      rfl

theorem removeSegment_progress (hin : kernel.shmpgtable.InTable s)
    (hpages : 0 < kernel.shmpgtable.pagesAt s)
    (hnattch : (kernel.shmpgtable.shmSegs s).shmNattch = 0)
    (hframes : ∀ offset < kernel.shmpgtable.pagesAt s,
      IsFrame (p2v (kernel.shmpgtable.shmSegs (s + offset)).pa)) :
    ∃ kernel', removeSegment kernel s = .ok (kernel', 0) := by
  have hreleasable : (kernel.shmpgtable.shmSegs s).isReleasable = true := by
    have hpos : 0 < (kernel.shmpgtable.shmSegs s).pages := hpages
    simp [isReleasable, hnattch, hpos]
  have hkept (i : ℕ) : ((kernel.shmpgtable.onPages s (kernel.shmpgtable.pagesAt s)
      setDest).shmSegs i).pa = (kernel.shmpgtable.shmSegs i).pa :=
    onPages_field setDest pa (fun _ ↦ rfl) i
  obtain ⟨⟨kmem, table⟩, hloop⟩ := @freeshmPagesLoop_progress s kernel.kmem
    (kernel.shmpgtable.onPages s (kernel.shmpgtable.pagesAt s) setDest) _ hin.2
    fun offset hoffset ↦ by
      rw [hkept, ← p2v_eq_v2p]
      exact hframes offset hoffset
  rw [removeSegment_eq hin.1 hin.2]
  rw [if_pos hreleasable, hloop]
  exact ⟨_, rfl⟩

theorem ShmPgTable.InTable.of_removeSegment {result : ℤ}
    (h : removeSegment kernel s = .ok (kernel', result)) : kernel.shmpgtable.InTable s := by
  obtain ⟨t, hst, ht, hroom, -⟩ := removeSegment_cases h
  cases Int.ofNat_inj.mp hst
  exact ⟨ht, hroom⟩

theorem ShmPgTable.Removal.of_removesExactly (hsane : kernel.shmpgtable.Sane)
    (h : RemovesExactly kernel shmIdentifier flag (removeshmHelper kernel shmIdentifier flag)) :
    kernel.shmpgtable.Removal shmIdentifier flag := by
  have hreturns : ∃ kernel' result,
      removeshmHelper kernel shmIdentifier flag = .ok (kernel', result) := by
    by_cases hsome : ∃ s, kernel.shmpgtable.Denotes shmIdentifier flag s ∧
        (kernel.shmpgtable.shmSegs s).shmNattch = 0
    · obtain ⟨s, hdenotes, hnattch⟩ := hsome
      obtain ⟨kernel', hcall, -⟩ := h.removes s hdenotes hnattch
      exact ⟨kernel', 0, hcall⟩
    · exact ⟨kernel, -1, h.refuses fun s hdenotes hnattch ↦ hsome ⟨s, hdenotes, hnattch⟩⟩
  obtain ⟨kernel', result, hcall⟩ := hreturns
  have hin (s : ℕ) (hresolves : kernel.shmpgtable.Resolves shmIdentifier flag s) :
      kernel.shmpgtable.InTable s := by
    rw [removeshmHelper_of_resolves hsane hresolves] at hcall
    exact InTable.of_removeSegment hcall
  -- a key that resolves to a slot before the segment would release that slot
  have hdenoted (s : ℕ) (hdenotes : kernel.shmpgtable.Denotes shmIdentifier flag s)
      (hnattch : (kernel.shmpgtable.shmSegs s).shmNattch = 0) :
      kernel.shmpgtable.Resolves shmIdentifier flag s := by
    by_cases hflag : flag = 1
    · subst hflag
      obtain ⟨removed, hremove, hreleases⟩ := h.removes s hdenotes hnattch
      obtain ⟨i, hle, hlookup, hkey⟩ := hdenotes.lookup_le
      have hresolves : kernel.shmpgtable.Resolves shmIdentifier 1 i := hlookup
      rw [removeshmHelper_of_resolves hsane hresolves] at hremove
      have hother := removeSegment_releases hremove
      by_cases hsame : i = s
      · exact hsame ▸ hresolves
      · exfalso
        have hlive := hdenotes.isLive
        have hdead := hreleases.freed s le_rfl (by have hpages := hdenotes.2.1; omega)
        have hlive' : kernel.shmpgtable.isLive i = true := by
          have hkey' := hdenotes.2.2
          rw [if_pos rfl] at hkey'
          rw [isLive_iff] at hlive ⊢
          rw [hkey, ← hkey'.1]
          exact hlive
        by_cases hpages : 0 < kernel.shmpgtable.pagesAt i
        · have hfreed := hother.freed i le_rfl (by omega)
          rw [isLive, hreleases.others i (Or.inl (by omega)), ← isLive, hlive'] at hfreed
          cases hfreed
        · rw [isLive, hother.others s (Or.inr (by omega)), ← isLive, hlive] at hdead
          cases hdead
    · exact hdenotes.resolves_of_id hflag
  refine ⟨fun hflag hlast ↦ ?_, hin, fun s hdenotes hnattch ↦ ?_, fun s hresolves hnot ↦ ?_⟩
  · by_contra hneg
    have hge := hsane.last_ge
    rw [removeshmHelper_eq hsane, if_neg hflag, if_neg (by omega)] at hcall
    obtain ⟨t, rfl, -⟩ := removeSegment_cases hcall
    omega
  · have hresolves := hdenoted s hdenotes hnattch
    obtain ⟨removed, hremove, -⟩ := h.removes s hdenotes hnattch
    rw [removeshmHelper_of_resolves hsane hresolves] at hremove
    refine ⟨hresolves, ?_⟩
    obtain ⟨t, hst, -, -, ⟨-, hresult, -⟩ | ⟨kmem, -, -, -, hframes, -⟩⟩ :=
      removeSegment_cases hremove
    · cases hresult
    · cases Int.ofNat_inj.mp hst
      intro offset hoffset
      rw [p2v_eq_v2p]
      exact hframes offset hoffset
  · have hnone (t : ℕ) (hdenotes : kernel.shmpgtable.Denotes shmIdentifier flag t) :
        (kernel.shmpgtable.shmSegs t).shmNattch ≠ 0 := by
      intro hnattch
      cases (hdenoted t hdenotes hnattch).unique hresolves
      exact hnot ⟨hdenotes, hnattch⟩
    have hrefused := h.refuses hnone
    rw [removeshmHelper_of_resolves hsane hresolves] at hrefused
    exact (removeSegment_refuses_iff (hin s hresolves)).mp hrefused

theorem ShmPgTable.Removal.removesExactly (hsane : kernel.shmpgtable.Sane)
    (h : kernel.shmpgtable.Removal shmIdentifier flag) :
    RemovesExactly kernel shmIdentifier flag (removeshmHelper kernel shmIdentifier flag) where
  removes s hdenotes hnattch := by
    obtain ⟨hresolves, hframes⟩ := h.denoted s hdenotes hnattch
    obtain ⟨kernel', hremove⟩ :=
      removeSegment_progress (h.inTable s hresolves) hdenotes.2.1 hnattch hframes
    rw [removeshmHelper_of_resolves hsane hresolves]
    exact ⟨kernel', hremove, removeSegment_releases hremove⟩
  refuses hnone := by
    rcases removeshm_resolution hsane shmIdentifier flag with
      ⟨s, hresolves⟩ | hrefused | ⟨hflag, hlast, hneg⟩
    · rw [removeshmHelper_of_resolves hsane hresolves]
      exact (removeSegment_refuses_iff (h.inTable s hresolves)).mpr
        (h.other s hresolves fun hboth ↦ hnone s hboth.1 hboth.2)
    · exact hrefused
    · have hnonneg := h.nonneg hflag hlast
      omega

end Exact

/-- In every reachable state a removal is exact exactly under the condition. -/
theorem removeshm_exact_iff {start kernel : Kernel} (hboot : Boot start)
    (hrun : Runs step (fun _ _ ↦ True) start kernel) (shmIdentifier flag : ℤ) :
    RemovesExactly kernel shmIdentifier flag (removeshmHelper kernel shmIdentifier flag) ↔
      kernel.shmpgtable.Removal shmIdentifier flag := by
  have hsane := (hboot.sane_of_runs hrun).table
  exact ⟨Removal.of_removesExactly hsane, Removal.removesExactly hsane⟩

/-- A removal of an attached segment fails and has overwritten its mode. -/
theorem removeshm_overwrites_mode : ∃ kernel kernel',
    Runs step (fun _ _ ↦ True) (startKernel 3) kernel ∧
      0 ∈ kernel.shmpgtable.bases ∧ (kernel.shmpgtable.shmSegs 0).shmNattch = 1 ∧
      removeshmHelper kernel 0 0 = .ok (kernel', -1) ∧
      (kernel.shmpgtable.shmSegs 0).shmPerm.mode = 0 ∧
      (kernel'.shmpgtable.shmSegs 0).shmPerm.mode = shmDest := by
  simp only [exists_and_left]
  apply Runs.of_labels [startLabel (.shmget 5 4096 ipcCreat), startLabel (.shmat 0 0 2)]
  decide +kernel

/-- A segment that nobody has attached is removed by its identifier. -/
theorem removeshm_exact_unattached : ∃ kernel, Runs step (fun _ _ ↦ True) (startKernel 3) kernel ∧
      kernel.shmpgtable.Denotes 0 0 0 ∧
      RemovesExactly kernel 0 0 (removeshmHelper kernel 0 0) := by
  obtain ⟨kernel, hrun, hbase, hpages, hnattch, hlast, hframe⟩ :
      ∃ kernel, Runs step (fun _ _ ↦ True) (startKernel 3) kernel ∧
        0 ∈ kernel.shmpgtable.bases ∧ kernel.shmpgtable.pagesAt 0 = 1 ∧
        (kernel.shmpgtable.shmSegs 0).shmNattch = 0 ∧ kernel.shmpgtable.lastShmSegIndex = 0 ∧
        IsFrame (p2v (kernel.shmpgtable.shmSegs 0).pa) := by
    apply Runs.of_labels [startLabel (.shmget 5 4096 ipcCreat)]
    decide +kernel
  have hdenotes : kernel.shmpgtable.Denotes 0 0 0 := ⟨hbase, by omega, rfl⟩
  have hresolves : kernel.shmpgtable.Resolves 0 0 0 := ⟨rfl, by omega, by omega⟩
  refine ⟨kernel, hrun, hdenotes, (removeshm_exact_iff (startKernel_boot _) hrun 0 0).mpr
    ⟨fun _ _ ↦ le_rfl, fun s hs ↦ ?_, fun s hs _ ↦ ?_, fun s hs hnot ↦ ?_⟩⟩
  · cases hs.unique hresolves
    exact ⟨by decide, by rw [hpages]; decide⟩
  · cases (hs.resolves_of_id (by decide)).unique hresolves
    refine ⟨hresolves, fun offset hoffset ↦ ?_⟩
    rw [hpages, Nat.lt_one_iff] at hoffset
    rw [hoffset]
    exact hframe
  · cases hs.unique hresolves
    exact absurd ⟨hdenotes, hnattch⟩ hnot

section RoundTrip

variable {kernel kernel' : Kernel} {p size : ℕ} {clock : Clock} {key : ℤ}

/-- The page loop of `allocShmSeg` fills its pages with zeros. -/
theorem allocShmSegLoop_zeroes {key pid : ℤ} {segSize perm : ℕ} {append : Bool} {remaining done : ℕ}
    {index : ℤ} {kmem kmem' : Kmem} {table table' : ShmPgTable} (h : allocShmSegLoop key segSize pid
      perm append remaining done index kmem table = .ok (kmem', table', true)) :
    ∃ taken, kmem.Zeroes kmem' taken := by
  induction remaining generalizing done index kmem kmem' table table' with
  | zero =>
    cases h
    exact ⟨[], Kmem.Zeroes.refl kmem⟩
  | succ remaining ih =>
    rw [allocShmSegLoop] at h
    cases hkalloc : kmem.kalloc with
    | none =>
      rw [hkalloc] at h
      obtain ⟨unmapped, -, hpure⟩ := bind_eq_ok.mp h
      cases hpure
    | some pair =>
      obtain ⟨mem, rest⟩ := pair
      rw [hkalloc] at h
      obtain ⟨mapped, -, hrest⟩ := bind_eq_ok.mp h
      obtain ⟨taken, htaken⟩ := ih hrest
      exact ⟨_, (Kmem.Zeroes.of_kalloc hkalloc).trans htaken⟩

theorem allocShmSeg_zeroes {shmflag : ℕ} {result : ℤ} (hresult : 0 ≤ result)
    (h : allocShmSeg kernel p size key shmflag = .ok (kernel', result)) :
    ∃ taken, kernel.kmem.Zeroes kernel'.kmem taken := by
  unfold allocShmSeg at h
  split at h
  · cases h
    exact absurd hresult (by decide)
  · obtain ⟨bound, -, h⟩ := bind_eq_ok.mp h
    dsimp only at h
    split at h
    · cases h
      exact absurd hresult (by decide)
    · obtain ⟨⟨kmem, table, ok⟩, hloop, h⟩ := bind_eq_ok.mp h
      cases ok with
      | true =>
        cases h
        exact allocShmSegLoop_zeroes hloop
      | false =>
        cases h
        exact absurd hresult (by decide)

/-- A new segment of `size` bytes from slot `s` on: its slots were vacant and carry the key, the
rounded size, no attachment and one zeroed frame each, and no other slot has changed. -/
structure CreatesZeroed (kernel : Kernel) (key : ℤ) (size s : ℕ) (frames : List ℕ)
    (kernel' : Kernel) : Prop where
  pages : sizePages size = (size + (pgSize - 1)) / pgSize
  inTable : s + sizePages size ≤ shmMaxSeg
  vacant : ∀ offset < sizePages size, kernel.shmpgtable.isVacant (s + offset) = true
  key : ∀ offset < sizePages size, (kernel'.shmpgtable.shmSegs (s + offset)).shmPerm.key = key
  segsz : ∀ offset < sizePages size,
    (kernel'.shmpgtable.shmSegs (s + offset)).shmSegsz = sizePages size * pgSize
  nattch : ∀ offset < sizePages size, (kernel'.shmpgtable.shmSegs (s + offset)).shmNattch = 0
  pa : ∀ offset < sizePages size,
    (kernel'.shmpgtable.shmSegs (s + offset)).pa = v2p (frames.getD offset 0)
  length : frames.length = sizePages size
  distinct : frames.Nodup
  taken : kernel.kmem.freelist = frames ++ kernel'.kmem.freelist
  zero : ∀ v ∈ frames, ∀ a, InPage v a → kernel'.kmem.bytes a = 0
  others : ∀ i, i < s ∨ s + sizePages size ≤ i →
    kernel'.shmpgtable.shmSegs i = kernel.shmpgtable.shmSegs i

/-- A call of `shmget` that returns an identifier for a new key has created a segment. -/
theorem shmget_createsZeroed (htable : kernel.shmpgtable.WellFormed)
    (hnodup : kernel.kmem.freelist.Nodup) (hkey : shmgetKey clock key ≠ -1)
    (habsent : ¬ kernel.shmpgtable.Contains (shmgetKey clock key)) (hmin : shmMin ≤ size)
    (hmax : size ≤ maxSegSize) {id : ℤ} (hid : 0 ≤ id)
    (hcall : shmgetHelper kernel p clock key size ipcCreat = .ok (kernel', id)) :
    ∃ (s : ℕ) (frames : List ℕ), id = s ∧
      CreatesZeroed kernel (shmgetKey clock key) size s frames kernel' ∧
      NewSegment kernel.shmpgtable kernel'.shmpgtable s (sizePages size) ∧
      kernel'.shmpgtable.Sane := by
  have hsane := htable.sane
  obtain ⟨hpos, hpages, hround⟩ := sizePages_spec hmin hmax
  have hcreating : kernel.shmpgtable.Creating (shmgetKey clock key) size ipcCreat := by
    unfold Creating
    cases hlookup : kernel.shmpgtable.lookup (shmgetKey clock key) with
    | none => exact Or.inr rfl
    | some i =>
      obtain ⟨-, hfound, -⟩ := lookup_some hlookup
      exact absurd ⟨i, htable.coherent.lookup_mem hlookup hkey, hfound⟩ habsent
  rw [shmgetHelper_of_creating hsane hcreating] at hcall
  obtain ⟨taken, hzeroes⟩ := allocShmSeg_zeroes hid hcall
  obtain ⟨-, hneg⟩ | ⟨s, append, frames, kmem, -, -, hplaced, hfree, hcases⟩ :=
    allocShmSeg_cases hsane hcall
  · omega
  obtain ⟨-, hlength, rfl, rfl⟩ | ⟨-, rfl, -⟩ := hcases
  · have hframes := Kmem.isFrame_of_append hfree
    have hnew : NewSegment kernel.shmpgtable (kernel.shmpgtable.created (shmgetKey clock key)
        (pgRoundUp size) (kernel.proc p).pid (ipcCreat &&& 3) append s frames) s (sizePages size) :=
      hplaced.newSegment hsane hmin hmax hkey hframes hlength
    have hslot (offset : ℕ) (hoffset : offset < sizePages size) :
        (kernel.shmpgtable.created (shmgetKey clock key) (pgRoundUp size) (kernel.proc p).pid
          (ipcCreat &&& 3) append s frames).shmSegs (s + offset) =
        fresh (v2p (frames.getD offset 0)) (shmgetKey clock key) (pgRoundUp size)
          (kernel.proc p).pid (ipcCreat &&& 3) := by
      rw [created_of_mem (Nat.le_add_right s offset) (by omega), Nat.add_sub_cancel_left]
    have htaken : taken = frames := List.append_cancel_right (hzeroes.freelist.symm.trans hfree)
    refine ⟨s, frames, rfl, ?_, hnew, hsane.created hmin hmax hframes hplaced hlength.le⟩
    constructor
    · unfold maxSegSize at hmax
      rw [sizePages, pgRoundUp_eq (by unfold pgSize Word.size; omega),
        Nat.mul_div_cancel _ (by decide : 0 < pgSize)]
    · exact hplaced.fits
    · intro offset hoffset
      have hvacant := hnew.free (s + offset) (Nat.le_add_right s offset) (by omega)
      unfold isVacant
      rw [Bool.or_eq_true, decide_eq_true_eq]
      by_cases hbound : s + offset < kernel.shmpgtable.bound
      · left
        exact beq_iff_eq.mpr (isLive_eq_false.mp (hvacant hbound))
      · right
        unfold bound at hbound
        omega
    · intro offset hoffset
      exact congrArg (fun slot ↦ slot.shmPerm.key) (hslot offset hoffset)
    · intro offset hoffset
      exact (congrArg shmSegsz (hslot offset hoffset)).trans hround
    · intro offset hoffset
      exact congrArg shmNattch (hslot offset hoffset)
    · intro offset hoffset
      have hpa := congrArg pa (hslot offset hoffset)
      exact hpa
    · exact hlength
    · rw [hfree] at hnodup
      exact hnodup.of_append_left
    · exact hfree
    · rw [htaken] at hzeroes
      exact hzeroes.zero
    · exact hnew.others
  · exact absurd hid (by decide)

/-- A segment that was just created is removed by its identifier, and the free frames are then what
they were before. -/
theorem create_remove_round_trip (htable : kernel.shmpgtable.WellFormed)
    (hnodup : kernel.kmem.freelist.Nodup) (hkey : shmgetKey clock key ≠ -1)
    (habsent : ¬ kernel.shmpgtable.Contains (shmgetKey clock key)) (hmin : shmMin ≤ size)
    (hmax : size ≤ maxSegSize) {id : ℤ} (hid : 0 ≤ id)
    (hcall : shmgetHelper kernel p clock key size ipcCreat = .ok (kernel', id)) :
    ∃ (s : ℕ) (frames : List ℕ), id = s ∧
      CreatesZeroed kernel (shmgetKey clock key) size s frames kernel' ∧
      ∃ kernel'', removeshmHelper kernel' s 0 = .ok (kernel'', 0) ∧
        kernel'.shmpgtable.pagesAt s = sizePages size ∧ Releases kernel' s kernel'' ∧
        (∀ v ∈ frames, v2p (v2p v) = v) ∧
        (kernel''.kmem.freelist : Multiset ℕ) =
          (frames : Multiset ℕ) + (kernel'.kmem.freelist : Multiset ℕ) ∧
        (kernel''.kmem.freelist : Multiset ℕ) = (kernel.kmem.freelist : Multiset ℕ) := by
  obtain ⟨s, frames, rfl, hcreates, hnew, hsane'⟩ :=
    shmget_createsZeroed htable hnodup hkey habsent hmin hmax hid hcall
  have hwords : ∀ v ∈ frames, v < Word.size := fun v hv ↦
    (Kmem.isFrame_of_append hcreates.taken v hv).isWord
  have hresolves : kernel'.shmpgtable.Resolves s 0 s := by
    have hinside := hnew.inside
    have hpos := hnew.nonempty
    unfold bound at hinside
    exact ⟨rfl, by omega, by omega⟩
  have hin : kernel'.shmpgtable.InTable s := by
    have hpos := hnew.nonempty
    have hroom := hcreates.inTable
    exact ⟨by omega, hnew.pages.symm ▸ hroom⟩
  obtain ⟨kernel'', hremove⟩ := removeSegment_progress hin (hnew.pages.symm ▸ hnew.nonempty)
    (hcreates.nattch 0 hnew.nonempty) fun offset hoffset ↦
      hnew.frame (s + offset) (Nat.le_add_right s offset) (by rw [hnew.pages] at hoffset; omega)
  have hreleases := removeSegment_releases hremove
  -- the address that was stored is the page again
  have hback : ∑ offset ∈ Finset.range (kernel'.shmpgtable.pagesAt s),
      ({p2v (kernel'.shmpgtable.shmSegs (s + offset)).pa} : Multiset ℕ) = (frames : Multiset ℕ) := by
    rw [hnew.pages, ← hcreates.length]
    apply entered_frames (Kmem.isFrame_of_append hcreates.taken)
    rw [hcreates.length]
    exact hcreates.pa
  have hfree : (kernel''.kmem.freelist : Multiset ℕ) =
      (frames : Multiset ℕ) + (kernel'.kmem.freelist : Multiset ℕ) := by
    rw [hreleases.frames, hback]
  refine ⟨s, frames, rfl, hcreates, kernel'', ?_, hnew.pages, hreleases, ?_, hfree, ?_⟩
  · rw [removeshmHelper_of_resolves hsane' hresolves, hremove]
  · exact fun v hv ↦ v2p_v2p (hwords v hv)
  · rw [hfree, hcreates.taken, Multiset.coe_add]

end RoundTrip

/-- A segment of two pages in the empty table, made and removed. -/
theorem create_remove_two_pages : ∃ kernel' kernel'',
    shmgetHelper (startKernel 3) 2 startClock 5 8192 ipcCreat = .ok (kernel', 0) ∧
      removeshmHelper kernel' 0 0 = .ok (kernel'', 0) ∧
      (kernel''.kmem.freelist : Multiset ℕ) = ((startKernel 3).kmem.freelist : Multiset ℕ) := by
  obtain ⟨kernel', hcreate⟩ : ∃ kernel',
      shmgetHelper (startKernel 3) 2 startClock 5 8192 ipcCreat = .ok (kernel', 0) := by
    decide +kernel
  obtain ⟨s, frames, hs, -, kernel'', hremove, -, -, -, -, hsame⟩ :=
    create_remove_round_trip (startKernel_wellFormed _) (by decide +kernel) (by decide)
      (by decide +kernel) (by decide) (by decide) le_rfl hcreate
  cases Int.ofNat_inj.mp hs.symm
  exact ⟨kernel', kernel'', hcreate, hremove, hsame⟩

/-- A call with `IPC_PRIVATE`, which is no key of the table, enters the key it has generated. -/
theorem private_key_replaced : (startKernel 3).shmpgtable.WellFormed ∧
      (startKernel 3).kmem.freelist.Nodup ∧ ipcPrivate ≠ -1 ∧
      ¬ (startKernel 3).shmpgtable.Contains ipcPrivate ∧ shmMin ≤ 8192 ∧
      8192 ≤ maxSegSize ∧
      ∃ kernel', shmgetHelper (startKernel 3) 2 startClock ipcPrivate 8192 ipcCreat =
          .ok (kernel', 0) ∧
        (kernel'.shmpgtable.shmSegs 0).shmPerm.key ≠ ipcPrivate := by
  exact ⟨startKernel_wellFormed _, by decide +kernel, by decide, by decide +kernel, by decide,
    by decide, by decide +kernel⟩

end Xv6Shm
