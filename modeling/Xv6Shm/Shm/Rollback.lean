import Xv6Shm.Shm.Split

/-!
# Creating a segment with too few frames

`allocShmSeg` enters its pages one after the other. With frames enough it returns the first slot; if
they run out, `unmapShmSegPage` counts down from the number of pages entered to the last index.
-/

namespace Xv6Shm

open Fallible ShmPgTable ShmidDs Function

section Loop

variable {key pid : ℤ} {segSize perm : ℕ} {append : Bool}

theorem ShmPgTable.created_one (table : ShmPgTable) (index frame : ℕ) :
    table.created key segSize pid perm append index [frame] = { table with
        shmSegs := update table.shmSegs index (fresh (v2p frame) key segSize pid perm)
        lastShmSegIndex :=
          if append then table.lastShmSegIndex + 1 else table.lastShmSegIndex } := by
  rw [← created_cons, created_nil]

theorem ShmPgTable.created_append (table : ShmPgTable) (index frame : ℕ) (frames : List ℕ) :
    (table.created key segSize pid perm append index [frame]).created key segSize pid perm append
      (index + 1) frames = table.created key segSize pid perm append index (frame :: frames) := by
  rw [created_one, created_cons]

theorem allocShmSegLoop_succ {remaining done index frame : ℕ} {kmem rest : Kmem}
    {table : ShmPgTable} (hunlocked : table.locked = false) (hindex : index < shmMaxSeg)
    (hkalloc : kmem.kalloc = some (frame, rest)) :
    allocShmSegLoop key segSize pid perm append (remaining + 1) done index kmem table =
      allocShmSegLoop key segSize pid perm append remaining (done + 1) (index + 1 : ℕ)
        (rest.memset frame 0 pgSize) (table.created key segSize pid perm append index [frame]) := by
  have hmap : mapShmSegPage table (v2p frame) key segSize index pid perm = .ok { table with
      shmSegs := update table.shmSegs index (fresh (v2p frame) key segSize pid perm) } :=
    mapShmSegPage_eq_ok.mpr ⟨index, rfl, hindex, hunlocked, rfl⟩
  rw [allocShmSegLoop, hkalloc]
  dsimp only
  rw [hmap, ok_bind]
  rw [created_one, Nat.cast_succ]
  cases append with
  | false => rfl
  | true => rfl

theorem allocShmSegLoop_enough {remaining done index : ℕ} {kmem : Kmem} {table : ShmPgTable}
    (hunlocked : table.locked = false) (hroom : index + remaining ≤ shmMaxSeg)
    (henough : remaining ≤ kmem.freelist.length) :
    ∃ frames rest, kmem.freelist = frames ++ rest.freelist ∧ frames.length = remaining ∧
      allocShmSegLoop key segSize pid perm append remaining done index kmem table = .ok (rest,
      table.created key segSize pid perm append index frames, true) := by
  induction remaining generalizing done index kmem table with
  | zero =>
    refine ⟨[], kmem, rfl, rfl, ?_⟩
    rw [created_nil]
    rfl
  | succ remaining ih =>
    cases hkalloc : kmem.kalloc with
    | none =>
      rw [Kmem.kalloc_eq_none.mp hkalloc] at henough
      exact absurd henough (Nat.not_succ_le_zero _)
    | some pair =>
      obtain ⟨frame, rest⟩ := pair
      have hfree := (Kmem.kalloc_eq_some.mp hkalloc).1
      rw [hfree, List.length_cons] at henough
      obtain ⟨frames, last, hlist, hlength, hloop⟩ :=
        @ih (done + 1) (index + 1) (rest.memset frame 0 pgSize)
          (table.created key segSize pid perm append index [frame]) hunlocked (by omega)
          (Nat.le_of_succ_le_succ henough)
      refine ⟨frame :: frames, last, ?_, congrArg Nat.succ hlength, ?_⟩
      · rw [hfree, List.cons_append, ← hlist, Kmem.memset_freelist]
      · rw [allocShmSegLoop_succ hunlocked (by omega) hkalloc, hloop, created_append]

theorem allocShmSegLoop_short : ∀ {remaining done index : ℕ} {kmem : Kmem} {table : ShmPgTable},
    table.locked = false → index + remaining ≤ shmMaxSeg → kmem.freelist.length < remaining →
    ∃ rest : Kmem, rest.freelist = [] ∧ (kmem.freelist = [] → rest = kmem) ∧
      allocShmSegLoop key segSize pid perm append remaining done index kmem table = (do
        let table ← unmapShmSegPage (table.created key segSize pid perm append index kmem.freelist)
          (done + kmem.freelist.length)
        pure (rest, table, false)) := by
  intro remaining
  induction remaining with
  | zero =>
    intro done index kmem table _ _ hshort
    exact absurd hshort (Nat.not_lt_zero _)
  | succ remaining ih =>
    intro done index kmem table hunlocked hroom hshort
    cases hkalloc : kmem.kalloc with
    | none =>
      have hfree := Kmem.kalloc_eq_none.mp hkalloc
      refine ⟨kmem, hfree, fun _ ↦ rfl, ?_⟩
      rw [allocShmSegLoop, hkalloc, hfree, created_nil]
      rfl
    | some pair =>
      obtain ⟨frame, rest⟩ := pair
      have hfree := (Kmem.kalloc_eq_some.mp hkalloc).1
      rw [hfree, List.length_cons] at hshort
      obtain ⟨last, hnone, -, hloop⟩ :=
        @ih (done + 1) (index + 1) (rest.memset frame 0 pgSize)
          (table.created key segSize pid perm append index [frame]) hunlocked (by omega)
          (Nat.lt_of_succ_lt_succ hshort)
      refine ⟨last, hnone, fun hempty ↦ ?_, ?_⟩
      · rw [hfree] at hempty
        cases hempty
      · have hcount : done + 1 + (rest.memset frame 0 pgSize).freelist.length =
            done + kmem.freelist.length := by
          rw [hfree, List.length_cons, Kmem.memset_freelist]
          omega
        rw [allocShmSegLoop_succ hunlocked (by omega) hkalloc, hloop, hcount,
          created_append, hfree, Kmem.memset_freelist]

end Loop

section Unmap

variable {table : ShmPgTable} {endIndex : ℕ}

theorem unmapShmSegPageLoop_last (h : (endIndex : ℤ) = table.lastShmSegIndex) :
    unmapShmSegPageLoop table endIndex = .ok table := by
  cases endIndex with
  | zero => exact if_pos h.symm
  | succ endIndex => exact if_pos (by rw [← h]; rfl)

theorem unmapShmSegPageLoop_next (h : (endIndex : ℤ) = table.lastShmSegIndex + 1)
    (hend : endIndex < shmMaxSeg) :
    unmapShmSegPageLoop table endIndex = .ok (table.onPages endIndex 1 unmapped) := by
  have hmodify : table.modify endIndex unmapped = .ok (table.onPages endIndex 1 unmapped) := by
    rw [onPages_one]
    exact modify_eq_ok.mpr ⟨endIndex, rfl, hend, rfl⟩
  cases endIndex with
  | zero =>
    have hlast : table.lastShmSegIndex = -1 := by
      rw [Nat.cast_zero] at h
      omega
    rw [unmapShmSegPageLoop, if_neg (by omega)]
    rw [Nat.cast_zero] at hmodify
    rw [hmodify, ok_bind]
    exact if_pos hlast
  | succ endIndex =>
    rw [Nat.cast_succ] at h hmodify
    rw [unmapShmSegPageLoop, if_neg (by omega), hmodify, ok_bind]
    exact unmapShmSegPageLoop_last (by dsimp only [onPages_last]; omega)

/-- Below the last index the loop clears all slots and then leaves the array. -/
theorem unmapShmSegPageLoop_below {endIndex : ℕ} {table : ShmPgTable}
    (hbelow : (endIndex : ℤ) < table.lastShmSegIndex) (hend : endIndex < shmMaxSeg) :
    unmapShmSegPageLoop table endIndex = .error (.outOfBounds .shmSegs) := by
  induction endIndex generalizing table with
  | zero =>
    have hmodify : table.modify 0 unmapped = .ok _ :=
      modify_eq_ok.mpr ⟨0, rfl, hend, rfl⟩
    rw [Nat.cast_zero] at hbelow
    rw [unmapShmSegPageLoop, if_neg (by omega), hmodify, ok_bind]
    exact if_neg (by dsimp only; omega)
  | succ endIndex ih =>
    have hmodify : table.modify (endIndex + 1) unmapped = .ok _ :=
      modify_eq_ok.mpr ⟨endIndex + 1, by omega, hend, rfl⟩
    rw [Nat.cast_succ] at hbelow
    rw [unmapShmSegPageLoop, if_neg (by omega), hmodify, ok_bind]
    exact ih (by dsimp only; omega) (by omega)

theorem unmapShmSegPage_eq (hunlocked : table.locked = false) : unmapShmSegPage table endIndex = (do
      let table ← unmapShmSegPageLoop { table with locked := true } endIndex
      pure table.release) := by
  rw [unmapShmSegPage, acquire_eq_ok.mpr ⟨hunlocked, rfl⟩, ok_bind]

/-- Rolling back no page: the count starts at slot zero, one above the last index of an empty table
and below that of a table with two slots. -/
theorem unmapShmSegPage_zero (hunlocked : table.locked = false) (hge : -1 ≤ table.lastShmSegIndex) :
    unmapShmSegPage table 0 =
      if table.lastShmSegIndex = 0 then .ok table
      else if table.lastShmSegIndex = -1 then .ok (table.onPages 0 1 unmapped)
      else .error (.outOfBounds .shmSegs) := by
  have hmax : 0 < shmMaxSeg := by decide
  rw [unmapShmSegPage_eq hunlocked]
  split
  · rename_i hzero
    rw [unmapShmSegPageLoop_last (by exact hzero.symm), ok_bind, pure_eq_ok]
    unfold release
    rw [← hunlocked]
  · rename_i hzero
    split
    · rename_i hnone
      rw [unmapShmSegPageLoop_next (by dsimp only; omega) hmax, ok_bind, pure_eq_ok]
      unfold release onPages
      rw [← hunlocked]
    · rw [unmapShmSegPageLoop_below (by dsimp only; omega) hmax]
      rfl

end Unmap

/-- There is room for `count` pages: the search does not end in `ENOSPC`. -/
def ShmPgTable.HasRoom (table : ShmPgTable) (count : ℕ) : Prop :=
  (table.findRoom count table.bound).1 + count ≤ shmMaxSeg

instance (table : ShmPgTable) (count : ℕ) : Decidable (table.HasRoom count) :=
  inferInstanceAs (Decidable (_ ≤ _))

section AllocShmSeg

variable {kernel : Kernel} {p size shmflag : ℕ} {key : ℤ}

theorem allocShmSeg_invalid (h : size < shmMin ∨ maxSegSize < size) :
    allocShmSeg kernel p size key shmflag = .ok (kernel, eInval) := if_pos h

theorem allocShmSeg_full (hsane : kernel.shmpgtable.Sane) (hmin : shmMin ≤ size)
    (hmax : size ≤ maxSegSize) (hfull : ¬ kernel.shmpgtable.HasRoom (sizePages size)) :
    allocShmSeg kernel p size key shmflag = .ok (kernel, eNospc) := by
  unfold allocShmSeg
  rw [if_neg (by omega), scanBound_eq_ok hsane.last_lt]
  exact if_pos (not_le.mp hfull)

theorem allocShmSeg_eq (hsane : kernel.shmpgtable.Sane) (hmin : shmMin ≤ size)
    (hmax : size ≤ maxSegSize) (hroom : kernel.shmpgtable.HasRoom (sizePages size)) :
    ∃ (index : ℕ) (append : Bool), Placed kernel.shmpgtable (sizePages size) index append ∧
      allocShmSeg kernel p size key shmflag = (do
        let (kmem, table, ok) ← allocShmSegLoop key (pgRoundUp size) (kernel.proc p).pid
          (shmflag &&& 3) append (sizePages size) 0 index kernel.kmem kernel.shmpgtable
        let kernel := { kernel with kmem := kmem, shmpgtable := table }
        if ok then
          let info : ShmInfo :=
            { usedIds := kernel.shmInfo.usedIds + 1
              shmTot := Word.ofInt (table.lastShmSegIndex + 1) }
          pure ({ kernel with shmInfo := info }, (index : ℤ))
        else pure (kernel, -1)) := by
  obtain ⟨hpos, -, -⟩ := sizePages_spec hmin hmax
  obtain ⟨index, append, hfind, hplaced⟩ :=
    findRoom_spec hpos hsane.last_ge hroom
  refine ⟨index, append, hplaced, ?_⟩
  have hfits := hplaced.fits
  have hpages : pgRoundUp size / pgSize = sizePages size := rfl
  unfold allocShmSeg
  rw [if_neg (by omega), scanBound_eq_ok hsane.last_lt]
  dsimp only
  rw [ok_bind, hpages, hfind]
  exact if_neg (by dsimp only; omega)

section

variable (hsane : kernel.shmpgtable.Sane) (hunlocked : kernel.shmpgtable.locked = false)
  (hmin : shmMin ≤ size) (hmax : size ≤ maxSegSize)
  (hroom : kernel.shmpgtable.HasRoom (sizePages size))

include hsane hunlocked hmin hmax hroom

theorem allocShmSeg_enough (henough : sizePages size ≤ kernel.kmem.freelist.length) :
    ∃ (index : ℕ) (append : Bool) (frames : List ℕ) (rest : Kmem),
      Placed kernel.shmpgtable (sizePages size) index append ∧
      kernel.kmem.freelist = frames ++ rest.freelist ∧ frames.length = sizePages size ∧
      allocShmSeg kernel p size key shmflag =
        .ok (kernel.created p size key shmflag index append frames rest, (index : ℤ)) := by
  obtain ⟨index, append, hplaced, heq⟩ := allocShmSeg_eq hsane hmin hmax hroom
  obtain ⟨frames, rest, hfree, hlength, hloop⟩ :=
    allocShmSegLoop_enough hunlocked hplaced.fits henough
  refine ⟨index, append, frames, rest, hplaced, hfree, hlength, ?_⟩
  rw [heq, hloop]
  rfl

/-- With room and too few frames the roll-back decides. -/
theorem allocShmSeg_short (hshort : kernel.kmem.freelist.length < sizePages size) :
    ∃ (index : ℕ) (append : Bool) (rest : Kmem),
      Placed kernel.shmpgtable (sizePages size) index append ∧ rest.freelist = [] ∧
      (kernel.kmem.freelist = [] → rest = kernel.kmem) ∧
      allocShmSeg kernel p size key shmflag = (do
        let table ← unmapShmSegPage (kernel.shmpgtable.created key (pgRoundUp size)
          (kernel.proc p).pid (shmflag &&& 3) append index kernel.kmem.freelist)
          kernel.kmem.freelist.length
        pure ({ kernel with kmem := rest, shmpgtable := table }, -1)) := by
  obtain ⟨index, append, hplaced, heq⟩ := allocShmSeg_eq hsane hmin hmax hroom
  obtain ⟨rest, hnone, hsame, hloop⟩ :=
    @allocShmSegLoop_short _ _ _ _ _ _ 0 _ _ _ hunlocked hplaced.fits hshort
  refine ⟨index, append, rest, hplaced, hnone, hsame, ?_⟩
  rw [heq, hloop, Nat.zero_add, bind_assoc]
  rfl

end

end AllocShmSeg

end Xv6Shm
