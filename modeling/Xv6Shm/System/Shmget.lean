import Xv6Shm.Shm.Rollback
import Xv6Shm.System.Keys

/-!
# What shmget answers

The results of `shmget` against what its arguments ask for: a creation that runs out of frames, a
key that exists, the bits of the flag word, private keys, and a full table. Each theorem gives the
exact condition under which the call does what it should.
-/

namespace Xv6Shm

open Fallible ShmPgTable FirstFit

variable {i : ℕ} {id : ℤ} {kernel' : Kernel}

variable {kernel : Kernel} {size shmflag s segsz : ℕ} {key : ℤ}

theorem Kernel.Intact.wellFormed (hintact : kernel.Intact)
    (hunlocked : kernel.shmpgtable.locked = false) : kernel.shmpgtable.WellFormed :=
  ⟨hintact.sane.table, hintact.coherent, hunlocked⟩

theorem startKernel_wellFormed {count : ℕ} (hcount : count ≤ 10000) :
    (startKernel count hcount).shmpgtable.WellFormed :=
  (startKernel_boot hcount).intact.wellFormed rfl

theorem natCast_ne_of_neg {code : ℤ} (h : code < 0) : (i : ℤ) ≠ code := by omega

theorem natCast_not_refused : ¬ ((i : ℤ) = -1 ∨ (i : ℤ) = eNospc) :=
  not_or.mpr ⟨natCast_ne_of_neg (by decide), natCast_ne_of_neg (by decide)⟩

theorem startKernel_created {count : ℕ} (hcount : count ≤ 10000)
    (hkey : shmgetKey startClock key ≠ -1) (henough : sizePages size ≤ count)
    (hunlocked : kernel.shmpgtable.locked = false)
    (h : step (startKernel count hcount) (startLabel (.shmget key size ipcCreat)) =
      .ok (kernel, id)) : kernel.shmpgtable.WellFormed := by
  have hframes : (startKernel count hcount).kmem.freelist.length = count := by
    simp [startKernel, startKmem]
  have hstructured : Structured (startKernel count hcount)
      (startLabel (.shmget key size ipcCreat)) := fun _ ↦ ⟨hkey, fun _ ↦ henough.trans hframes.ge⟩
  have hrun := (Runs.refl (startKernel count hcount)).snoc hstructured h
  exact ((startKernel_boot hcount).intact_of_runs hrun).wellFormed hunlocked

theorem startKernel_creates {count : ℕ} {hcount : count ≤ 10000} {holds : Kernel → Prop}
    (hkey : shmgetKey startClock key ≠ -1) (henough : sizePages size ≤ count)
    (h : ∃ created, step (startKernel count hcount) (startLabel (.shmget key size ipcCreat)) =
      .ok (created, id) ∧ created.shmpgtable.locked = false ∧ holds created) :
    ∃ created, step (startKernel count hcount) (startLabel (.shmget key size ipcCreat)) =
      .ok (created, id) ∧ created.shmpgtable.WellFormed ∧ holds created := by
  obtain ⟨created, hcreate, hunlocked, hholds⟩ := h
  exact ⟨created, hcreate, startKernel_created _ hkey henough hunlocked hcreate, hholds⟩

/-- A slot that a new segment may take: freed, or behind the last one. -/
def ShmPgTable.isVacant (table : ShmPgTable) (i : ℕ) : Bool :=
  table.isFree i || decide (table.lastShmSegIndex < i)

/-- A run of `count` vacant slots in the table. -/
def ShmPgTable.HasVacantRun (table : ShmPgTable) (count : ℕ) : Prop :=
  ∃ first, first + count ≤ shmMaxSeg ∧ IsRun table.isVacant count first

/-- A run that the search for room finds: one of freed slots, or one behind the last slot. -/
def ShmPgTable.InReach (table : ShmPgTable) (count : ℕ) : Prop :=
  (∃ first, first + count ≤ table.bound ∧ IsRun table.isFree count first) ∨
    table.bound + count ≤ shmMaxSeg

section Room

variable {table : ShmPgTable} {count : ℕ}

theorem ShmPgTable.hasRoom_iff (hsane : table.Sane) (hcount : 0 < count) :
    table.HasRoom count ↔ table.InReach count := by
  have hge := hsane.last_ge
  have hlt := hsane.last_lt
  have hbound : (table.bound : ℤ) = table.lastShmSegIndex + 1 := by
    unfold bound
    omega
  unfold HasRoom findRoom InReach
  cases hfind : find table.isFree count table.bound with
  | some si =>
    obtain ⟨⟨hinside, hrun⟩, -⟩ := find_some hcount hfind
    have hfits : (si : ℤ) + count ≤ shmMaxSeg := by omega
    exact ⟨fun _ ↦ Or.inl ⟨si, hinside, hrun⟩, fun _ ↦ hfits⟩
  | none =>
    have hnone := find_none hcount hfind
    dsimp only
    constructor
    · intro hfits
      exact Or.inr (by omega)
    · rintro (⟨first, hinside, hrun⟩ | hfits)
      · exact absurd hrun (hnone first hinside)
      · omega

/-- A vacant run is a run of freed slots, or lies behind the last slot, or goes on from the freed
slots at the end of the table to the slots behind it. -/
theorem ShmPgTable.hasVacantRun_iff (hsane : table.Sane) (hcount : count ≤ shmMaxSeg) :
    table.HasVacantRun count ↔
      (∃ first, first + count ≤ table.bound ∧ IsRun table.isFree count first) ∨
        ∀ i, shmMaxSeg - count ≤ i → i < table.bound → table.isFree i = true := by
  have hlt := hsane.last_lt
  have hvacant (i : ℕ) : table.isVacant i = true ↔ table.isFree i = true ∨ table.bound ≤ i := by
    have hbehind : table.lastShmSegIndex < i ↔ table.bound ≤ i := by
      unfold bound
      omega
    rw [isVacant, Bool.or_eq_true, decide_eq_true_eq, hbehind]
  constructor
  · rintro ⟨first, hinside, hrun⟩
    by_cases hend : first + count ≤ table.bound
    · refine Or.inl ⟨first, hend, fun offset hoffset ↦ ?_⟩
      exact ((hvacant _).mp (hrun offset hoffset)).resolve_right (by omega)
    · right
      intro i hi hbound
      have hcell := hrun (i - first) (by omega)
      rw [Nat.add_sub_cancel' (by omega)] at hcell
      exact ((hvacant i).mp hcell).resolve_right (by omega)
  · rintro (⟨first, hinside, hrun⟩ | hfree)
    · have hbound : table.bound ≤ shmMaxSeg := by
        unfold bound
        omega
      exact ⟨first, by omega, fun offset hoffset ↦ (hvacant _).mpr (Or.inl (hrun offset hoffset))⟩
    · refine ⟨shmMaxSeg - count, by omega, fun offset hoffset ↦ (hvacant _).mpr ?_⟩
      by_cases hbound : shmMaxSeg - count + offset < table.bound
      · exact Or.inl (hfree _ (by omega) hbound)
      · exact Or.inr (not_lt.mp hbound)

theorem ShmPgTable.InReach.hasVacantRun (hsane : table.Sane) (hcount : count ≤ shmMaxSeg)
    (h : table.InReach count) : table.HasVacantRun count := by
  refine (hasVacantRun_iff hsane hcount).mpr (h.imp id fun hbehind i hi hbound ↦ ?_)
  omega

end Room

/-- Without room or frames a valid size is refused, if the call returns at all. -/
theorem allocShmSeg_refused {p : ℕ} {result : ℤ}
    (hsane : kernel.shmpgtable.Sane) (hmin : shmMin ≤ size) (hmax : size ≤ maxSegSize)
    (hshort : kernel.shmpgtable.HasRoom (sizePages size) →
      kernel.kmem.freelist.length < sizePages size)
    (h : allocShmSeg kernel p size key shmflag = .ok (kernel', result)) :
    result = -1 ∨ result = eNospc := by
  by_cases hroom : kernel.shmpgtable.HasRoom (sizePages size)
  · obtain ⟨index, append, -, heq⟩ := @allocShmSeg_eq _ p _ shmflag key hsane hmin hmax hroom
    rw [heq] at h
    obtain ⟨⟨kmem, table, ok⟩, hloop, h⟩ := bind_eq_ok.mp h
    obtain ⟨frames, hfree, -, ⟨-, hlength, -⟩ | ⟨rfl, -⟩⟩ := allocShmSegLoop_cases hloop
    · have hcount := hshort hroom
      rw [hfree, List.length_append] at hcount
      omega
    · exact Or.inl (Prod.mk.inj (Except.ok.inj h)).2.symm
  · rw [allocShmSeg_full hsane hmin hmax hroom] at h
    exact Or.inr (Prod.mk.inj (Except.ok.inj h)).2.symm

/-- The call has returned -1 and has left the table, the counters and the free frames alone. -/
def LeavesNoTrace (kernel : Kernel) (outcome : Except Fault (Kernel × ℤ)) : Prop :=
  ∃ kernel', outcome = .ok (kernel', -1) ∧ kernel'.shmpgtable.shmSegs = kernel.shmpgtable.shmSegs ∧
    kernel'.shmpgtable.lastShmSegIndex = kernel.shmpgtable.lastShmSegIndex ∧
    kernel'.shmInfo = kernel.shmInfo ∧
    ∀ frame, frame ∈ kernel'.kmem.freelist ↔ frame ∈ kernel.kmem.freelist

/-- The states in which the roll-back of a creation that gets no frame at all changes nothing: the
last index is zero, or there is no slot and the first one is already cleared. -/
def ShmPgTable.RollsBack (table : ShmPgTable) : Prop :=
  table.lastShmSegIndex = 0 ∨
    table.lastShmSegIndex = -1 ∧ (table.shmSegs 0).unmapped = table.shmSegs 0

/-- A creation that runs out of frames leaves no trace exactly if it got no frame at all and the
roll-back finds nothing to do. -/
theorem failed_creation_leaves_no_trace_iff {kernel : Kernel} {p size shmflag : ℕ} {key : ℤ}
    (htable : kernel.shmpgtable.WellFormed) (hmin : shmMin ≤ size) (hmax : size ≤ maxSegSize)
    (hroom : kernel.shmpgtable.HasRoom (sizePages size))
    (hshort : kernel.kmem.freelist.length < sizePages size) :
    LeavesNoTrace kernel (allocShmSeg kernel p size key shmflag) ↔
      kernel.kmem.freelist = [] ∧ kernel.shmpgtable.RollsBack := by
  obtain ⟨index, append, rest, -, hempty, hsame, hcall⟩ :=
    @allocShmSeg_short _ p _ shmflag key htable.sane htable.unlocked hmin hmax hroom hshort
  by_cases hfree : kernel.kmem.freelist = []
  · have hrest := hsame hfree
    subst hrest
    have hge := htable.sane.last_ge
    rw [hcall, hfree, created_nil, List.length_nil, unmapShmSegPage_zero htable.unlocked hge]
    split
    · rename_i hzero
      exact ⟨fun _ ↦ ⟨rfl, Or.inl hzero⟩, fun _ ↦ ⟨_, rfl, rfl, rfl, rfl, fun _ ↦ Iff.rfl⟩⟩
    · rename_i hzero
      split
      · rename_i hnone
        constructor
        · rintro ⟨kernel', hreturn, hslots, -⟩
          cases hreturn
          refine ⟨rfl, Or.inr ⟨hnone, ?_⟩⟩
          have hfirst := congrFun hslots 0
          rwa [onPages_of_mem le_rfl (Nat.lt_add_one _)] at hfirst
        · rintro ⟨-, hlast | ⟨-, hcleared⟩⟩
          · exact absurd hlast hzero
          · refine ⟨_, rfl, ?_, rfl, rfl, fun _ ↦ Iff.rfl⟩
            rw [onPages_one, hcleared, Function.update_eq_self]
      · rename_i hnone
        constructor
        · rintro ⟨kernel', hreturn, -⟩
          cases hreturn
        · rintro ⟨-, hlast | ⟨hlast, -⟩⟩
          · exact absurd hlast hzero
          · exact absurd hlast hnone
  · -- the frames that were taken are in no list any more
    constructor
    · rintro ⟨kernel', hreturn, -, -, -, hframes⟩
      rw [hcall] at hreturn
      obtain ⟨table, -, hpure⟩ := bind_eq_ok.mp hreturn
      cases hpure
      rw [hempty] at hframes
      exact absurd (List.eq_nil_iff_forall_not_mem.mpr fun frame hframe ↦
        List.not_mem_nil ((hframes frame).mpr hframe)) hfree
    · rintro ⟨hnone, -⟩
      exact absurd hnone hfree

/-- Two pages are asked for and there is one frame: its slot stays in the table. -/
theorem failed_creation_keeps_slot : (startKernel 1).shmpgtable.WellFormed ∧
      shmMin ≤ 8192 ∧ 8192 ≤ maxSegSize ∧
      (startKernel 1).shmpgtable.HasRoom (sizePages 8192) ∧
      (startKernel 1).kmem.freelist.length < sizePages 8192 ∧
      ∃ kernel, allocShmSeg (startKernel 1) 2 8192 5 ipcCreat = .ok (kernel, -1) ∧
        (startKernel 1).shmpgtable.lastShmSegIndex = -1 ∧
        kernel.shmpgtable.lastShmSegIndex = 0 ∧ (kernel.shmpgtable.shmSegs 0).shmPerm.key = 5 ∧
        (startKernel 1).kmem.freelist = [frameAt 4] ∧ kernel.kmem.freelist = [] := by
  obtain ⟨kernel, hcall, hlast, hkey, hfree⟩ :
      ∃ kernel, allocShmSeg (startKernel 1) 2 8192 5 ipcCreat = .ok (kernel, -1) ∧
        kernel.shmpgtable.lastShmSegIndex = 0 ∧ (kernel.shmpgtable.shmSegs 0).shmPerm.key = 5 ∧
        kernel.kmem.freelist = [] := by
    decide +kernel
  exact ⟨startKernel_wellFormed _, by decide, by decide, by decide, by decide, kernel, hcall, rfl,
    hlast, hkey, rfl, hfree⟩

/-- One segment of one page has taken the only frame; the next creation fails and leaves no
trace. -/
theorem failed_creation_leaves_no_trace_second : ∃ kernel,
    step (startKernel 1) (startLabel (.shmget 5 4096 ipcCreat)) = .ok (kernel, 0) ∧
      LeavesNoTrace kernel (allocShmSeg kernel 2 4096 6 ipcCreat) := by
  obtain ⟨kernel, hcall, hunlocked, hlast, hroom, hfree⟩ : ∃ kernel,
      step (startKernel 1) (startLabel (.shmget 5 4096 ipcCreat)) = .ok (kernel, 0) ∧
        kernel.shmpgtable.locked = false ∧ kernel.shmpgtable.lastShmSegIndex = 0 ∧
        kernel.shmpgtable.HasRoom (sizePages 4096) ∧ kernel.kmem.freelist = [] := by
    decide +kernel
  have htable := startKernel_created _ (by decide) (by decide) hunlocked hcall
  have hshort : kernel.kmem.freelist.length < sizePages 4096 := by
    rw [hfree]
    decide
  exact ⟨kernel, hcall, (failed_creation_leaves_no_trace_iff htable (by decide) (by decide)
    hroom hshort).mpr ⟨hfree, Or.inl hlast⟩⟩

/-- Slot `s` is the first of a segment with that key and size. -/
@[mk_iff] structure ShmPgTable.Holds (table : ShmPgTable) (key : ℤ) (s segsz : ℕ) : Prop where
  base : s ∈ table.bases
  key : (table.shmSegs s).shmPerm.key = key
  segsz : (table.shmSegs s).shmSegsz = segsz

/-- The request for `size` bytes is answered with the identifier if the segment is large enough and
refused otherwise, and nothing is changed. -/
def AnswersExisting (kernel : Kernel) (s segsz size : ℕ) (outcome : Except Fault (Kernel × ℤ)) :
    Prop :=
  ∃ kernel', outcome = .ok (kernel', if size ≤ segsz then (s : ℤ) else eInval) ∧
    kernel'.shmpgtable = kernel.shmpgtable ∧ kernel'.kmem.freelist = kernel.kmem.freelist

theorem not_answersExisting_of_valid {p : ℕ}
    (htable : kernel.shmpgtable.WellFormed) (hmin : shmMin ≤ size) (hmax : size ≤ maxSegSize) :
    ¬ AnswersExisting kernel s segsz size (allocShmSeg kernel p size key shmflag) := by
  rintro ⟨kernel', hreturn, -, hfree⟩
  have hother (result : ℤ) (hneg : result < 0) (hne : result ≠ eInval) :
      result ≠ if size ≤ segsz then (s : ℤ) else eInval := by
    split
    · omega
    · exact hne
  by_cases hfits : kernel.shmpgtable.HasRoom (sizePages size) ∧
      sizePages size ≤ kernel.kmem.freelist.length
  · -- the new segment has taken frames
    obtain ⟨hpos, -, -⟩ := sizePages_spec hmin hmax
    obtain ⟨index, append, frames, rest, -, hlist, hlength, hcall⟩ := @allocShmSeg_enough _ p _
      shmflag key htable.sane htable.unlocked hmin hmax hfits.1 hfits.2
    rw [hcall] at hreturn
    obtain ⟨rfl, -⟩ := Prod.mk.inj (Except.ok.inj hreturn)
    have hsame : rest.freelist.length = kernel.kmem.freelist.length := congrArg List.length hfree
    have hcount := congrArg List.length hlist
    rw [List.length_append] at hcount
    omega
  · rcases allocShmSeg_refused htable.sane hmin hmax
      (fun hroom ↦ not_le.mp fun henough ↦ hfits ⟨hroom, henough⟩) hreturn with hresult | hresult
    · exact hother (-1) (by decide) (by decide) hresult.symm
    · exact hother eNospc (by decide) (by decide) hresult.symm

theorem allocShmSeg_answersExisting_iff {p : ℕ} {key' : ℤ}
    (htable : kernel.shmpgtable.WellFormed) (hsegment : kernel.shmpgtable.Holds key' s segsz) :
    AnswersExisting kernel s segsz size (allocShmSeg kernel p size key shmflag) ↔
      segsz < size ∧ maxSegSize < size := by
  by_cases hvalid : shmMin ≤ size ∧ size ≤ maxSegSize
  · exact iff_of_false (not_answersExisting_of_valid htable hvalid.1 hvalid.2) (by omega)
  · have hpages := htable.coherent.tiling.positive s hsegment.base
    unfold pagesAt ShmidDs.pages at hpages
    rw [hsegment.segsz] at hpages
    have hpage : pgSize ≤ segsz := (Nat.div_pos_iff.mp hpages).2
    have hsmallest : shmMin ≤ pgSize := by decide
    rw [allocShmSeg_invalid (by omega)]
    constructor
    · rintro ⟨kernel', hreturn, -⟩
      obtain ⟨-, hresult⟩ := Prod.mk.inj (Except.ok.inj hreturn)
      by_cases hle : size ≤ segsz
      · rw [if_pos hle] at hresult
        exact absurd hresult.symm (natCast_ne_of_neg (by decide))
      · omega
    · rintro ⟨hlarge, -⟩
      exact ⟨kernel, by rw [if_neg (not_le.mpr hlarge)], rfl, rfl⟩

theorem answersExisting_found_iff :
    AnswersExisting kernel s segsz size (.ok (kernel, (i : ℤ))) ↔ i = s ∧ size ≤ segsz := by
  constructor
  · rintro ⟨kernel', hreturn, -⟩
    obtain ⟨-, hresult⟩ := Prod.mk.inj (Except.ok.inj hreturn)
    by_cases hle : size ≤ segsz
    · rw [if_pos hle] at hresult
      exact ⟨Int.ofNat_inj.mp hresult, hle⟩
    · rw [if_neg hle] at hresult
      exact absurd hresult (natCast_ne_of_neg (by decide))
  · rintro ⟨rfl, hle⟩
    exact ⟨kernel, by rw [if_pos hle], rfl, rfl⟩

/-- A request with `IPC_CREAT` is answered as it should be exactly if the search finds the segment
and the size is that of the segment; or, if it finds no segment of at most that size, the size is
larger than any segment can be. -/
theorem shmget_answers_existing_iff {kernel : Kernel} {p s segsz size : ℕ} {clock : Clock} {key : ℤ}
    (htable : kernel.shmpgtable.WellFormed) (hsegment : kernel.shmpgtable.Holds key s segsz) :
    AnswersExisting kernel s segsz size (shmgetHelper kernel p clock key size ipcCreat) ↔
      (kernel.shmpgtable.lookup (shmgetKey clock key) = some s ∧ size = segsz) ∨
      (segsz < size ∧ maxSegSize < size ∧
        ∀ i, kernel.shmpgtable.lookup (shmgetKey clock key) = some i →
          size < (kernel.shmpgtable.shmSegs i).shmSegsz) := by
  by_cases hcreating : kernel.shmpgtable.Creating (shmgetKey clock key) size ipcCreat
  · rw [shmgetHelper_of_creating htable.sane hcreating,
      allocShmSeg_answersExisting_iff htable hsegment]
    have hlarger (i : ℕ) (hlookup : kernel.shmpgtable.lookup (shmgetKey clock key) = some i) :
        size < (kernel.shmpgtable.shmSegs i).shmSegsz := by
      unfold Creating at hcreating
      rw [hlookup] at hcreating
      exact hcreating.2
    have hfirst : ¬ (kernel.shmpgtable.lookup (shmgetKey clock key) = some s ∧ size = segsz) := by
      rintro ⟨hlookup, rfl⟩
      exact absurd (hlarger s hlookup) (by rw [hsegment.segsz]; exact lt_irrefl _)
    rw [or_iff_right hfirst]
    exact ⟨fun h ↦ ⟨h.1, h.2, hlarger⟩, fun h ↦ ⟨h.1, h.2.1⟩⟩
  · rw [shmgetHelper_of_not_creating htable.sane hcreating]
    unfold Creating at hcreating
    unfold answer
    cases hlookup : kernel.shmpgtable.lookup (shmgetKey clock key) with
    | none =>
      rw [hlookup] at hcreating
      exact absurd (Or.inr rfl) hcreating
    | some i =>
      rw [hlookup] at hcreating
      have hlarge := not_lt.mp fun hsmall ↦ hcreating ⟨rfl, hsmall⟩
      dsimp only
      rw [if_neg (by decide), answersExisting_found_iff]
      constructor
      · rintro ⟨rfl, hle⟩
        rw [hsegment.segsz] at hlarge
        exact Or.inl ⟨rfl, le_antisymm hle hlarge⟩
      · rintro (⟨hfound, rfl⟩ | ⟨-, -, hsmall⟩)
        · exact ⟨Option.some.inj hfound, le_rfl⟩
        · exact absurd (hsmall i rfl) (Nat.not_lt.mpr hlarge)

/-- A segment of two pages: for one page there is a second segment, and three pages are granted. -/
theorem shmget_existing_ignores_size : ∃ kernel second third,
    step (startKernel 3) (startLabel (.shmget 5 8192 ipcCreat)) = .ok (kernel, 0) ∧
      kernel.shmpgtable.WellFormed ∧ kernel.shmpgtable.Holds 5 0 8192 ∧
      shmgetHelper kernel 2 startClock 5 4096 ipcCreat = .ok (second, 2) ∧
      shmgetHelper kernel 2 startClock 5 12288 ipcCreat = .ok (third, 0) := by
  simp only [exists_and_left, holds_iff]
  apply startKernel_creates (by decide) (by decide)
  decide +kernel

/-- The size of the segment itself is answered with its identifier. -/
theorem shmget_answers_existing_same_size : ∃ kernel,
    step (startKernel 3) (startLabel (.shmget 5 8192 ipcCreat)) = .ok (kernel, 0) ∧
      AnswersExisting kernel 0 8192 8192 (shmgetHelper kernel 2 startClock 5 8192 ipcCreat) := by
  obtain ⟨kernel, hcreate, hunlocked, hbase, hkey, hsegsz, hlookup⟩ : ∃ kernel,
      step (startKernel 3) (startLabel (.shmget 5 8192 ipcCreat)) = .ok (kernel, 0) ∧
        kernel.shmpgtable.locked = false ∧ 0 ∈ kernel.shmpgtable.bases ∧
        (kernel.shmpgtable.shmSegs 0).shmPerm.key = 5 ∧
        (kernel.shmpgtable.shmSegs 0).shmSegsz = 8192 ∧
        kernel.shmpgtable.lookup (shmgetKey startClock 5) = some 0 := by
    decide +kernel
  have htable := startKernel_created _ (by decide) (by decide) hunlocked hcreate
  exact ⟨kernel, hcreate, (shmget_answers_existing_iff htable
    ⟨hbase, hkey, hsegsz⟩).mpr (Or.inl ⟨hlookup, rfl⟩)⟩

def ShmPgTable.Contains (table : ShmPgTable) (key : ℤ) : Prop :=
  ∃ s ∈ table.bases, (table.shmSegs s).shmPerm.key = key

instance (table : ShmPgTable) (key : ℤ) : Decidable (table.Contains key) :=
  inferInstanceAs (Decidable (∃ s ∈ table.bases, _))

/-- The call has returned the identifier `s` of a segment that was not there before. -/
structure CreatesSegment (kernel : Kernel) (outcome : Except Fault (Kernel × ℤ)) (kernel' : Kernel)
    (s : ℕ) : Prop where
  returns : outcome = .ok (kernel', (s : ℤ))
  new : s ∉ kernel.shmpgtable.bases
  base : s ∈ kernel'.shmpgtable.bases

/-- Slots and memory for a segment of that size are available. -/
structure Kernel.HasSpace (kernel : Kernel) (size : ℕ) : Prop where
  slots : kernel.shmpgtable.HasVacantRun (sizePages size)
  memory : sizePages size ≤ kernel.kmem.freelist.length

/-- The call does what the bits of its flag word say: without the key, and with space, there is a
new segment if and only if `IPC_CREAT` is set, and with the key it is refused if and only if both
bits are set. -/
structure HonoursFlag (kernel : Kernel) (key : ℤ) (size shmflag : ℕ)
    (outcome : Except Fault (Kernel × ℤ)) : Prop where
  creates : ¬ kernel.shmpgtable.Contains key → kernel.HasSpace size →
    ((∃ kernel' s, CreatesSegment kernel outcome kernel' s) ↔ shmflag &&& ipcCreat ≠ 0)
  mode : ¬ kernel.shmpgtable.Contains key → ∀ kernel' s, CreatesSegment kernel outcome kernel' s →
    ∀ i, s ≤ i → i < s + kernel'.shmpgtable.pagesAt s →
      (kernel'.shmpgtable.shmSegs i).shmPerm.mode = shmflag &&& 3
  refuses : kernel.shmpgtable.Contains key → ((∃ kernel', outcome = .ok (kernel', eExist)) ↔
      shmflag &&& ipcCreat ≠ 0 ∧ shmflag &&& ipcExcl ≠ 0)

theorem ShmPgTable.Creating.flag {table : ShmPgTable} (h : table.Creating key size shmflag) :
    shmflag = ipcCreat ||| ipcExcl ∧ table.lookup key = none ∨ shmflag = ipcCreat := by
  unfold Creating at h
  cases hlookup : table.lookup key with
  | none =>
    rw [hlookup] at h
    rcases h with hflag | hflag
    · exact Or.inl ⟨hflag, rfl⟩
    · exact Or.inr hflag
  | some i =>
    rw [hlookup] at h
    exact Or.inr h.1

theorem ShmPgTable.answer_eq_eExist {table : ShmPgTable} : table.answer key shmflag = eExist ↔
      shmflag = ipcCreat ||| ipcExcl ∧ table.lookup key ≠ none := by
  unfold answer
  cases table.lookup key with
  | none => simp [eNoent, eExist]
  | some i =>
    dsimp only
    split
    · rename_i hflag
      simp [hflag]
    · rename_i hflag
      have hne : (i : ℤ) ≠ eExist := natCast_ne_of_neg (by decide)
      simp [hflag, hne]

section Flags

variable {kernel : Kernel} {p size shmflag : ℕ} {clock : Clock} {key : ℤ}

/-- A call that creates a segment returns the first slot of its pages. -/
theorem shmget_creates (hsane : kernel.shmpgtable.Sane)
    (hunlocked : kernel.shmpgtable.locked = false) (hmin : shmMin ≤ size)
    (hmax : size ≤ maxSegSize) (hroom : kernel.shmpgtable.HasRoom (sizePages size))
    (henough : sizePages size ≤ kernel.kmem.freelist.length)
    (hcreating : kernel.shmpgtable.Creating (shmgetKey clock key) size shmflag) :
    ∃ (kernel' : Kernel) (index : ℕ),
      shmgetHelper kernel p clock key size shmflag = .ok (kernel', (index : ℤ)) ∧
      (∀ i, index ≤ i → i < index + sizePages size →
        (kernel'.shmpgtable.shmSegs i).shmPerm = ⟨shmgetKey clock key, shmflag &&& 3⟩) ∧
      (shmgetKey clock key ≠ -1 →
        NewSegment kernel.shmpgtable kernel'.shmpgtable index (sizePages size)) := by
  obtain ⟨index, append, frames, rest, hplaced, hfree, hlength, hcall⟩ :=
    @allocShmSeg_enough _ p _ shmflag (shmgetKey clock key) hsane hunlocked hmin hmax hroom henough
  refine ⟨_, index, (shmgetHelper_of_creating hsane hcreating).trans hcall, ?_, ?_⟩
  · intro i hle hlt
    unfold Kernel.created
    rw [created_of_mem hle (hlength.symm ▸ hlt)]
    rfl
  · intro hkey
    exact hplaced.newSegment hsane hmin hmax hkey (Kmem.isFrame_of_append hfree) hlength

/-- A call that creates nothing honours its flag word if it was not asked to. -/
theorem honours_iff_of_refused {outcome : Except Fault (Kernel × ℤ)}
    (h : ¬ ∃ kernel' s, CreatesSegment kernel outcome kernel' s) :
    HonoursFlag kernel key size shmflag outcome ↔
      (¬ kernel.shmpgtable.Contains key → kernel.HasSpace size → shmflag &&& ipcCreat = 0) ∧
      (kernel.shmpgtable.Contains key → ((∃ kernel', outcome = .ok (kernel', eExist)) ↔
        shmflag &&& ipcCreat ≠ 0 ∧ shmflag &&& ipcExcl ≠ 0)) := by
  constructor
  · rintro ⟨hcreates, -, hrefuses⟩
    refine ⟨fun habsent hspace ↦ ?_, hrefuses⟩
    by_contra hbit
    exact h ((hcreates habsent hspace).mpr hbit)
  · rintro ⟨hzero, hrefuses⟩
    refine ⟨fun habsent hspace ↦ ?_, ?_, hrefuses⟩
    · exact iff_of_false h (not_not.mpr (hzero habsent hspace))
    · exact fun _ kernel' s hsegment ↦ absurd ⟨kernel', s, hsegment⟩ h

theorem shmgetHelper_honours_of_creating (htable : kernel.shmpgtable.WellFormed)
    (hmin : shmMin ≤ size) (hmax : size ≤ maxSegSize)
    (hcreating : kernel.shmpgtable.Creating (shmgetKey clock key) size shmflag) :
    HonoursFlag kernel key size shmflag (shmgetHelper kernel p clock key size shmflag) ↔
      (¬ kernel.shmpgtable.Contains key → kernel.HasSpace size →
        shmgetKey clock key ≠ -1 ∧ kernel.shmpgtable.InReach (sizePages size)) ∧
      (kernel.shmpgtable.Contains key →
        ¬ (shmflag &&& ipcCreat ≠ 0 ∧ shmflag &&& ipcExcl ≠ 0)) := by
  have hpos := (sizePages_spec hmin hmax).1
  have hreach := @hasRoom_iff _ (sizePages size) htable.sane hpos
  have hbit : shmflag &&& ipcCreat ≠ 0 := by
    rcases hcreating.flag with ⟨rfl, -⟩ | rfl <;> decide
  by_cases hfits : kernel.shmpgtable.HasRoom (sizePages size) ∧
      sizePages size ≤ kernel.kmem.freelist.length
  · obtain ⟨kernel', index, hcall, hperm, hnew⟩ := @shmget_creates _ p _ _ _ _ htable.sane
      htable.unlocked hmin hmax hfits.1 hfits.2 hcreating
    have hcreates : (∃ kernel'' s, CreatesSegment kernel (.ok (kernel', (index : ℤ))) kernel'' s) ↔
        shmgetKey clock key ≠ -1 := by
      constructor
      · rintro ⟨kernel'', s, hreturn, -, hbase⟩
        obtain ⟨rfl, hindex⟩ := Prod.mk.inj (Except.ok.inj hreturn)
        cases Int.ofNat_inj.mp hindex
        have hlive := (Finset.mem_filter.mp hbase).2.1
        rw [isLive_iff, hperm index le_rfl (by omega)] at hlive
        exact hlive
      · intro hkey
        refine ⟨kernel', index, rfl, fun hold ↦ ?_, ?_⟩
        · have hfree := (hnew hkey).free index le_rfl (by omega)
            (htable.coherent.tiling.lt_bound hold)
          rw [htable.coherent.isLive_of_mem hold] at hfree
          cases hfree
        · rw [(htable.coherent.insert (hnew hkey)).2]
          exact Finset.mem_insert_self _ _
    have hrefuses : ¬ ∃ kernel'', Except.ok (kernel', (index : ℤ)) =
        (.ok (kernel'', eExist) : Except Fault (Kernel × ℤ)) := by
      rintro ⟨kernel'', hreturn⟩
      exact natCast_ne_of_neg (by decide) (Prod.mk.inj (Except.ok.inj hreturn)).2
    rw [hcall]
    constructor
    · rintro ⟨hiff, -, hexist⟩
      refine ⟨fun habsent hspace ↦ ?_, fun hfound hboth ↦ ?_⟩
      · exact ⟨hcreates.mp ((hiff habsent hspace).mpr hbit), hreach.mp hfits.1⟩
      · exact hrefuses ((hexist hfound).mpr hboth)
    · rintro ⟨hkey, hboth⟩
      refine ⟨fun habsent hspace ↦ ?_, ?_, fun hfound ↦ ?_⟩
      · exact iff_of_true (hcreates.mpr (hkey habsent hspace).1) hbit
      · intro habsent kernel'' s hsegment i hle hlt
        have hsome := hcreates.mp ⟨_, _, hsegment⟩
        obtain ⟨rfl, hindex⟩ := Prod.mk.inj (Except.ok.inj hsegment.returns)
        cases Int.ofNat_inj.mp hindex
        rw [(hnew hsome).pages] at hlt
        rw [hperm i hle hlt]
      · exact iff_of_false hrefuses (hboth hfound)
  · rw [shmgetHelper_of_creating htable.sane hcreating]
    have hcode {kernel' : Kernel} {result : ℤ} (h : allocShmSeg kernel p size (shmgetKey clock key)
        shmflag = .ok (kernel', result)) : result = -1 ∨ result = eNospc :=
      allocShmSeg_refused htable.sane hmin hmax
        (fun hroom ↦ not_le.mp fun henough ↦ hfits ⟨hroom, henough⟩) h
    have hrefuses : ¬ ∃ kernel', allocShmSeg kernel p size (shmgetKey clock key) shmflag =
        .ok (kernel', eExist) := by
      rintro ⟨kernel', hreturn⟩
      exact absurd (hcode hreturn) (by decide)
    rw [honours_iff_of_refused]
    · refine and_congr ?_ ?_
      · refine forall_congr' fun habsent ↦ forall_congr' fun hspace ↦ ?_
        exact iff_of_false hbit fun h ↦ hfits ⟨hreach.mpr h.2, hspace.memory⟩
      · exact forall_congr' fun hfound ↦ iff_false_left hrefuses
    · rintro ⟨kernel', s, hreturn, -⟩
      exact natCast_not_refused (hcode hreturn)

theorem answer_honours_iff : HonoursFlag kernel key size shmflag
        (.ok (kernel, kernel.shmpgtable.answer (shmgetKey clock key) shmflag)) ↔
      (¬ kernel.shmpgtable.Contains key → kernel.HasSpace size → shmflag &&& ipcCreat = 0) ∧
      (kernel.shmpgtable.Contains key → shmflag &&& ipcCreat ≠ 0 ∧ shmflag &&& ipcExcl ≠ 0 →
          shmflag = ipcCreat ||| ipcExcl ∧
            kernel.shmpgtable.lookup (shmgetKey clock key) ≠ none) := by
  have hrefuses : (∃ kernel', Except.ok (kernel,
      kernel.shmpgtable.answer (shmgetKey clock key) shmflag) =
        (.ok (kernel', eExist) : Except Fault (Kernel × ℤ))) ↔
      shmflag = ipcCreat ||| ipcExcl ∧ kernel.shmpgtable.lookup (shmgetKey clock key) ≠ none := by
    rw [← answer_eq_eExist]
    constructor
    · rintro ⟨kernel', hreturn⟩
      exact (Prod.mk.inj (Except.ok.inj hreturn)).2
    · intro hanswer
      rw [hanswer]
      exact ⟨kernel, rfl⟩
  have hboth : shmflag = ipcCreat ||| ipcExcl →
      shmflag &&& ipcCreat ≠ 0 ∧ shmflag &&& ipcExcl ≠ 0 := by
    rintro rfl
    decide
  rw [honours_iff_of_refused, hrefuses]
  · refine and_congr_right fun _ ↦ forall_congr' fun _ ↦ ?_
    exact ⟨fun h ↦ h.mpr, fun h ↦ ⟨fun hexclusive ↦ hboth hexclusive.1, h⟩⟩
  · rintro ⟨kernel', s, hreturn, hnew, hbase⟩
    obtain ⟨rfl, -⟩ := Prod.mk.inj (Except.ok.inj hreturn)
    exact hnew hbase

/-- If the two searches find what there is, the flag word is honoured exactly if it is `IPC_CREAT`
or `IPC_CREAT | IPC_EXCL`, or has no bit that asks for anything. -/
theorem shmget_honours_flag_iff (htable : kernel.shmpgtable.WellFormed) (hmin : shmMin ≤ size)
    (hmax : size ≤ maxSegSize) :
    HonoursFlag kernel key size shmflag (shmgetHelper kernel p clock key size shmflag) ↔
      (¬ kernel.shmpgtable.Contains key → kernel.HasSpace size → shmflag &&& ipcCreat = 0 ∨
        (shmgetKey clock key ≠ -1 ∧ kernel.shmpgtable.InReach (sizePages size)) ∧
          kernel.shmpgtable.Creating (shmgetKey clock key) size shmflag) ∧
      (kernel.shmpgtable.Contains key → ¬ (shmflag &&& ipcCreat ≠ 0 ∧ shmflag &&& ipcExcl ≠ 0) ∨
        shmflag = ipcCreat ||| ipcExcl ∧
          kernel.shmpgtable.lookup (shmgetKey clock key) ≠ none) := by
  by_cases hcreating : kernel.shmpgtable.Creating (shmgetKey clock key) size shmflag
  · have hbit : shmflag &&& ipcCreat ≠ 0 := by
      rcases hcreating.flag with ⟨rfl, -⟩ | rfl <;> decide
    have hexclusive : ¬ (shmflag = ipcCreat ||| ipcExcl ∧
        kernel.shmpgtable.lookup (shmgetKey clock key) ≠ none) := by
      rintro ⟨hflag, hlookup⟩
      rcases hcreating.flag with ⟨-, hmissing⟩ | hcreat
      · exact hlookup hmissing
      · exact absurd (hcreat ▸ hflag) (by decide)
    rw [shmgetHelper_honours_of_creating htable hmin hmax hcreating]
    simp only [hbit, hcreating, hexclusive, false_or, and_true, or_false]
  · rw [shmgetHelper_of_not_creating htable.sane hcreating, answer_honours_iff]
    simp only [hcreating, and_false, or_false, imp_iff_not_or]

end Flags

theorem startKernel_hasVacantRun {count : ℕ} (hcount : count ≤ 10000) :
    (startKernel count hcount).shmpgtable.HasVacantRun (sizePages 4096) :=
  InReach.hasVacantRun (startKernel_wellFormed hcount).sane (by decide)
    (Or.inr (show 0 + sizePages 4096 ≤ shmMaxSeg by decide))

/-- With a permission bit next to `IPC_CREAT` no segment is created. -/
theorem shmget_refuses_permission_bit :
    (startKernel 1).shmpgtable.WellFormed ∧ shmMin ≤ 4096 ∧ 4096 ≤ maxSegSize ∧
      (startKernel 1).HasSpace 4096 ∧ ¬ (startKernel 1).shmpgtable.Contains 5 ∧
      (ipcCreat ||| shmR) &&& ipcCreat ≠ 0 ∧
      shmgetHelper (startKernel 1) 2 startClock 5 4096 (ipcCreat ||| shmR) =
        .ok (startKernel 1, eNoent) :=
  ⟨startKernel_wellFormed _, by decide, by decide, ⟨startKernel_hasVacantRun _, by decide⟩,
    by decide, by decide, rfl⟩

theorem shmget_honours_flag_creat : HonoursFlag (startKernel 1) 5 4096 ipcCreat
      (shmgetHelper (startKernel 1) 2 startClock 5 4096 ipcCreat) :=
  (shmget_honours_flag_iff (startKernel_wellFormed _) (by decide) (by decide)).mpr
    ⟨fun _ _ ↦ Or.inr ⟨⟨by decide, Or.inr (by decide)⟩, by decide⟩, fun h ↦ absurd h (by decide)⟩

/-- The call has returned the first slot of a segment of the size asked for. Its slots belonged to
no segment before, and no other slot in use has its key. -/
structure YieldsNewSegment (kernel : Kernel) (size : ℕ) (outcome : Except Fault (Kernel × ℤ))
    (kernel' : Kernel) (s : ℕ) : Prop where
  returns : outcome = .ok (kernel', (s : ℤ))
  pages : kernel'.shmpgtable.pagesAt s = sizePages size
  new : ∀ i, s ≤ i → i < s + sizePages size → i < kernel.shmpgtable.bound →
    kernel.shmpgtable.isLive i = false
  live : ∀ i, s ≤ i → i < s + sizePages size →
    i < kernel'.shmpgtable.bound ∧ kernel'.shmpgtable.isLive i = true
  alone : ∀ i j, s ≤ i → i < s + sizePages size → j < s ∨ s + sizePages size ≤ j →
    j < kernel'.shmpgtable.bound → kernel'.shmpgtable.isLive j = true →
    (kernel'.shmpgtable.shmSegs j).shmPerm.key ≠ (kernel'.shmpgtable.shmSegs i).shmPerm.key

section Private

variable {kernel : Kernel} {p size shmflag : ℕ} {clock : Clock} {key : ℤ}

theorem unlocked_of_allocShmSeg {s : ℕ} (hsane : kernel.shmpgtable.Sane)
    (henough : sizePages size ≤ kernel.kmem.freelist.length)
    (h : allocShmSeg kernel p size key shmflag = .ok (kernel', (s : ℤ))) :
    kernel.shmpgtable.locked = false := by
  rcases allocShmSeg_cases hsane h with ⟨-, hneg⟩ |
    ⟨index, append, frames, kmem, -, -, -, -, ⟨hunlocked, -⟩ | ⟨hshort, -⟩⟩
  · omega
  · exact hunlocked
  · omega

/-- A new segment is alone with its key exactly if the key was in no slot before. -/
theorem yieldsNewSegment_iff {index : ℕ} (hpos : 0 < sizePages size) (hkey : key ≠ -1)
    (hnew : NewSegment kernel.shmpgtable kernel'.shmpgtable index (sizePages size))
    (hperm : ∀ i, index ≤ i → i < index + sizePages size →
      (kernel'.shmpgtable.shmSegs i).shmPerm.key = key) :
    YieldsNewSegment kernel size (.ok (kernel', (index : ℤ))) kernel' index ↔
      kernel.shmpgtable.lookup key = none := by
  have hgrows := hnew.grows
  have hinside := hnew.inside
  constructor
  · intro h
    cases hlookup : kernel.shmpgtable.lookup key with
    | none => rfl
    | some j =>
      -- the slot that was found is still there, beside the new segment
      obtain ⟨hlast, hfound, -⟩ := lookup_some hlookup
      have hj := lt_bound hlast
      have hlive := isLive_iff.mpr (hfound ▸ hkey)
      have hout : j < index ∨ index + sizePages size ≤ j := by
        by_contra hin
        rw [hnew.free j (by omega) (by omega) hj] at hlive
        cases hlive
      have hsame := hnew.others j hout
      have hne := h.alone index j le_rfl (by omega) hout (by omega)
        (by rw [isLive, hsame]; exact hlive)
      rw [hsame, hfound, hperm index le_rfl (by omega)] at hne
      exact absurd rfl hne
  · intro hlookup
    refine ⟨rfl, hnew.pages, hnew.free, fun i hle hlt ↦ ⟨by omega, hnew.live i hle hlt⟩, ?_⟩
    intro i j hle hlt hout hbound hlive
    have hold : j < kernel.shmpgtable.bound := by
      by_contra hbeyond
      have hfills := hnew.fills j (not_lt.mp hbeyond) hbound
      omega
    rw [hnew.others j hout, hperm i hle hlt]
    exact lookup_none hlookup j (le_last hold)

/-- With space, a call for a private segment yields a new one exactly if the lock is free, the key
that the clock gives is neither -1 nor in use, and the search for room finds a vacant run. -/
theorem private_segment_new_iff {start : Kernel} (hboot : Boot start)
    (hrun : Runs step (fun _ _ ↦ True) start kernel) (hmin : shmMin ≤ size)
    (hmax : size ≤ maxSegSize) (hflag : shmflag = ipcCreat ∨ shmflag = ipcCreat ||| ipcExcl) :
    (kernel.HasSpace size → ∃ kernel' s, YieldsNewSegment kernel size
        (shmgetHelper kernel p clock ipcPrivate size shmflag) kernel' s) ↔
      (kernel.HasSpace size → kernel.shmpgtable.locked = false ∧ generateRandomKey clock ≠ -1 ∧
        kernel.shmpgtable.lookup (generateRandomKey clock) = none ∧
        kernel.shmpgtable.InReach (sizePages size)) := by
  refine forall_congr' fun hspace ↦ ?_
  have henough := hspace.memory
  have hsane := (hboot.sane_of_runs hrun).table
  have hpos := (sizePages_spec hmin hmax).1
  have hkey : shmgetKey clock ipcPrivate = generateRandomKey clock := if_pos rfl
  rw [← hasRoom_iff hsane hpos]
  by_cases hcreating : kernel.shmpgtable.Creating (shmgetKey clock ipcPrivate) size shmflag
  · by_cases hfits : kernel.shmpgtable.locked = false ∧ kernel.shmpgtable.HasRoom (sizePages size)
    · obtain ⟨kernel', index, hcall, hperm, hnew⟩ :=
        @shmget_creates _ p _ _ _ _ hsane hfits.1 hmin hmax hfits.2 henough hcreating
      rw [hcall]
      rw [hkey] at hperm hnew
      constructor
      · rintro ⟨kernel'', s, h⟩
        obtain ⟨rfl, hindex⟩ := Prod.mk.inj (Except.ok.inj h.returns)
        cases Int.ofNat_inj.mp hindex
        have hnot : generateRandomKey clock ≠ -1 := by
          have hlive := (h.live index le_rfl (by omega)).2
          rwa [isLive_iff, hperm index le_rfl (by omega)] at hlive
        exact ⟨hfits.1, hnot, (yieldsNewSegment_iff hpos hnot (hnew hnot)
          fun i hle hlt ↦ congrArg IpcPerm.key (hperm i hle hlt)).mp h, hfits.2⟩
      · rintro ⟨-, hnot, hlookup, -⟩
        exact ⟨kernel', index, (yieldsNewSegment_iff hpos hnot (hnew hnot)
          fun i hle hlt ↦ congrArg IpcPerm.key (hperm i hle hlt)).mpr hlookup⟩
    · rw [shmgetHelper_of_creating hsane hcreating]
      constructor
      · rintro ⟨kernel', s, h⟩
        refine absurd ⟨unlocked_of_allocShmSeg hsane henough h.returns, ?_⟩ hfits
        by_contra hfull
        exact natCast_not_refused
          (allocShmSeg_refused hsane hmin hmax (fun hroom ↦ absurd hroom hfull) h.returns)
      · exact fun h ↦ absurd ⟨h.1, h.2.2.2⟩ hfits
  · rw [shmgetHelper_of_not_creating hsane hcreating]
    constructor
    · rintro ⟨kernel', s, h⟩
      obtain ⟨rfl, -⟩ := Prod.mk.inj (Except.ok.inj h.returns)
      obtain ⟨hbound, hlive⟩ := h.live s le_rfl (by omega)
      rw [h.new s le_rfl (by omega) hbound] at hlive
      cases hlive
    · rintro ⟨-, -, hlookup, -⟩
      rw [hkey] at hcreating
      unfold Creating at hcreating
      rw [hlookup] at hcreating
      exact absurd hflag.symm hcreating

end Private

/-- A segment whose key was chosen by its creator is handed out as private. -/
theorem private_segment_shared : ∃ kernel, Runs step (fun _ _ ↦ True) (startKernel 3) kernel ∧
      shmMin ≤ 4096 ∧ 4096 ≤ maxSegSize ∧ kernel.HasSpace 4096 ∧
      kernel.shmpgtable.Contains 1 ∧ 0 ∈ kernel.shmpgtable.bases ∧
      shmgetHelper kernel 2 startClock ipcPrivate 4096 ipcCreat = .ok (kernel, 0) ∧
      shmgetHelper kernel 2 startClock ipcPrivate 4096 (ipcCreat ||| ipcExcl) =
        .ok (kernel, eExist) := by
  obtain ⟨kernel, hreach, hroom, henough, hcontains, hbase, hlookup, hsegsz⟩ :
      ∃ kernel, Runs step (fun _ _ ↦ True) (startKernel 3) kernel ∧
        kernel.shmpgtable.bound + sizePages 4096 ≤ shmMaxSeg ∧
        sizePages 4096 ≤ kernel.kmem.freelist.length ∧ kernel.shmpgtable.Contains 1 ∧
        0 ∈ kernel.shmpgtable.bases ∧
        kernel.shmpgtable.lookup (shmgetKey startClock ipcPrivate) = some 0 ∧
        (kernel.shmpgtable.shmSegs 0).shmSegsz = 4096 := by
    apply Runs.of_labels [startLabel (.shmget 1 4096 ipcCreat)]
    decide +kernel
  have hsane := ((startKernel_boot _).sane_of_runs hreach).table
  refine ⟨kernel, hreach, by decide, by decide, ⟨InReach.hasVacantRun hsane (by decide)
    (Or.inr hroom), henough⟩, hcontains, hbase, ?_, ?_⟩
  · rw [shmgetHelper_of_not_creating hsane]
    · unfold answer
      rw [hlookup]
      rfl
    · unfold Creating
      rw [hlookup]
      simp [hsegsz]
  · rw [shmgetHelper_of_not_creating hsane]
    · unfold answer
      rw [hlookup]
      rfl
    · unfold Creating
      rw [hlookup]
      simp [ipcCreat, ipcExcl]

theorem private_segment_new_first : ∃ kernel' s, YieldsNewSegment (startKernel 3) 4096
      (shmgetHelper (startKernel 3) 2 startClock ipcPrivate 4096 ipcCreat) kernel' s :=
  (private_segment_new_iff (startKernel_boot _) (Runs.refl _) (by decide) (by decide)
    (Or.inl rfl)).mpr (fun _ ↦ ⟨rfl, by decide, by decide, Or.inr (by decide)⟩)
      ⟨startKernel_hasVacantRun _, by decide⟩

section Full

variable {table : ShmPgTable} {kernel : Kernel} {p size shmflag count : ℕ} {key : ℤ}

theorem allocShmSeg_nospc_iff (hsane : kernel.shmpgtable.Sane) (hmin : shmMin ≤ size)
    (hmax : size ≤ maxSegSize) :
    (∃ kernel', allocShmSeg kernel p size key shmflag = .ok (kernel', eNospc)) ↔
      ¬ kernel.shmpgtable.HasRoom (sizePages size) := by
  constructor
  · rintro ⟨kernel', h⟩ hroom
    obtain ⟨index, append, -, heq⟩ := @allocShmSeg_eq _ p _ shmflag key hsane hmin hmax hroom
    rw [heq] at h
    obtain ⟨⟨kmem, table, ok⟩, -, h⟩ := bind_eq_ok.mp h
    cases ok with
    | true => exact natCast_ne_of_neg (by decide) (Prod.mk.inj (Except.ok.inj h)).2
    | false => exact absurd (Prod.mk.inj (Except.ok.inj h)).2 (by decide)
  · intro hfull
    exact ⟨kernel, allocShmSeg_full hsane hmin hmax hfull⟩

/-- In every reachable state `ENOSPC` means that there is no vacant run exactly if none goes on from
freed slots to the slots behind the last one, or there is another. -/
theorem nospc_iff_no_vacant_run_iff {start : Kernel} (hboot : Boot start)
    (hrun : Runs step (fun _ _ ↦ True) start kernel) (hmin : shmMin ≤ size)
    (hmax : size ≤ maxSegSize) :
    ((∃ kernel', allocShmSeg kernel p size key shmflag = .ok (kernel', eNospc)) ↔
        ¬ kernel.shmpgtable.HasVacantRun (sizePages size)) ↔
      (∃ first, first + sizePages size ≤ kernel.shmpgtable.bound ∧
          IsRun kernel.shmpgtable.isFree (sizePages size) first) ∨
        kernel.shmpgtable.bound + sizePages size ≤ shmMaxSeg ∨
        ∃ i, shmMaxSeg - sizePages size ≤ i ∧ i < kernel.shmpgtable.bound ∧
          kernel.shmpgtable.isFree i = false := by
  have hsane := (hboot.sane_of_runs hrun).table
  obtain ⟨hpos, hle, -⟩ := sizePages_spec hmin hmax
  rw [allocShmSeg_nospc_iff hsane hmin hmax, hasRoom_iff hsane hpos,
    hasVacantRun_iff hsane hle, InReach]
  have hbehind : kernel.shmpgtable.bound + sizePages size ≤ shmMaxSeg →
      ∀ i, shmMaxSeg - sizePages size ≤ i → i < kernel.shmpgtable.bound →
        kernel.shmpgtable.isFree i = true := by
    intro hfits i hi hbound
    omega
  have hused : (∃ i, shmMaxSeg - sizePages size ≤ i ∧ i < kernel.shmpgtable.bound ∧
      kernel.shmpgtable.isFree i = false) ↔
      ¬ ∀ i, shmMaxSeg - sizePages size ≤ i → i < kernel.shmpgtable.bound →
        kernel.shmpgtable.isFree i = true := by
    simp
  rw [hused, not_iff_not]
  by_cases hreuse : ∃ first, first + sizePages size ≤ kernel.shmpgtable.bound ∧
      IsRun kernel.shmpgtable.isFree (sizePages size) first
  · simp only [hreuse, true_or]
  · by_cases hfits : kernel.shmpgtable.bound + sizePages size ≤ shmMaxSeg
    · simp only [hreuse, hfits, false_or, true_or, true_iff, iff_true]
      exact hbehind hfits
    · simp only [hreuse, hfits, false_or, false_iff]

end Full

/-- The only segment is removed, and one of as many pages as the table has slots is refused although
all are vacant. -/
theorem nospc_with_all_slots_vacant : ∃ kernel, Runs step (fun _ _ ↦ True) (startKernel 3) kernel ∧
      sizePages maxSegSize = shmMaxSeg ∧ (∀ i < shmMaxSeg, kernel.shmpgtable.isVacant i = true) ∧
      allocShmSeg kernel 2 maxSegSize 5 ipcCreat = .ok (kernel, eNospc) := by
  obtain ⟨kernel, hrun, hfree, hlast, hfull⟩ :
      ∃ kernel, Runs step (fun _ _ ↦ True) (startKernel 3) kernel ∧
        kernel.shmpgtable.isFree 0 = true ∧ kernel.shmpgtable.lastShmSegIndex = 0 ∧
        ¬ kernel.shmpgtable.HasRoom (sizePages maxSegSize) := by
    apply Runs.of_labels [startLabel (.shmget 5 4096 ipcCreat), startLabel (.removeshm 0 0)]
    decide +kernel
  have hsane := ((startKernel_boot _).sane_of_runs hrun).table
  refine ⟨kernel, hrun, by decide, fun i _ ↦ ?_, allocShmSeg_full hsane (by decide) le_rfl hfull⟩
  unfold isVacant
  rw [hlast, Bool.or_eq_true, decide_eq_true_eq]
  by_cases hi : i = 0
  · exact Or.inl (hi ▸ hfree)
  · exact Or.inr (by omega)

/-- A segment in the first slot leaves no room for one of as many pages as the table has slots. -/
theorem nospc_behind_first_segment : ∃ kernel kernel',
    Runs step (fun _ _ ↦ True) (startKernel 3) kernel ∧ kernel.shmpgtable.isFree 0 = false ∧
      allocShmSeg kernel 2 maxSegSize 5 ipcCreat = .ok (kernel', eNospc) ∧
      ((∃ kernel', allocShmSeg kernel 2 maxSegSize 5 ipcCreat = .ok (kernel', eNospc)) ↔
        ¬ kernel.shmpgtable.HasVacantRun (sizePages maxSegSize)) := by
  obtain ⟨kernel, hrun, hused, hbound, hfull⟩ :
      ∃ kernel, Runs step (fun _ _ ↦ True) (startKernel 3) kernel ∧
        kernel.shmpgtable.isFree 0 = false ∧ kernel.shmpgtable.bound = 1 ∧
        ¬ kernel.shmpgtable.HasRoom (sizePages maxSegSize) := by
    apply Runs.of_labels [startLabel (.shmget 5 4096 ipcCreat)]
    decide +kernel
  have hsane := ((startKernel_boot _).sane_of_runs hrun).table
  refine ⟨kernel, kernel, hrun, hused, allocShmSeg_full hsane (by decide) le_rfl hfull, ?_⟩
  exact (nospc_iff_no_vacant_run_iff (startKernel_boot _) hrun (by decide) le_rfl).mpr
    (Or.inr (Or.inr ⟨0, by decide, by omega, hused⟩))

end Xv6Shm
