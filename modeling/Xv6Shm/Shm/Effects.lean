import Xv6Shm.Memory.Frames
import Xv6Shm.Shm.Calls

/-!
# What the loops of the shared-memory code do to the table

Each loop over the slots of a segment is described by the slots it changes, by what it does to each,
and by the exact condition under which it stays inside the table.
-/

namespace Xv6Shm

open Fallible Function ShmPgTable ShmidDs Cells

namespace ShmPgTable

/-- The table with the slots `shmid, ..., shmid + count - 1` changed. -/
def onPages (table : ShmPgTable) (shmid count : ℕ) (change : ShmidDs → ShmidDs) : ShmPgTable :=
  { table with shmSegs := onRange shmid count (fun _ ↦ change) table.shmSegs }

@[simp] theorem onPages_last (table : ShmPgTable) (shmid count : ℕ) (change : ShmidDs → ShmidDs) :
    (table.onPages shmid count change).lastShmSegIndex = table.lastShmSegIndex := rfl

variable {table : ShmPgTable} {shmid count : ℕ} {change : ShmidDs → ShmidDs}

theorem onPages_of_mem {i : ℕ} (hstart : shmid ≤ i) (hend : i < shmid + count) :
    (table.onPages shmid count change).shmSegs i = change (table.shmSegs i) := by
  unfold onPages
  dsimp only
  rw [onRange_of_mem hstart hend]

theorem onPages_of_not_mem {i : ℕ} (h : i < shmid ∨ shmid + count ≤ i) :
    (table.onPages shmid count change).shmSegs i = table.shmSegs i := by
  unfold onPages
  dsimp only
  rw [onRange_of_not_mem h]

@[simp] theorem onPages_zero : table.onPages shmid 0 change = table := by
  unfold onPages
  rw [onRange_zero]

theorem onPages_one : table.onPages shmid 1 change = { table with
        shmSegs := update table.shmSegs shmid (change (table.shmSegs shmid)) } := by
  unfold onPages
  rw [← update_onRange, onRange_zero]
  rfl

theorem onPages_onPages {first second : ShmidDs → ShmidDs} :
    (table.onPages shmid count first).onPages shmid count second =
      table.onPages shmid count (fun slot ↦ second (first slot)) := by
  unfold onPages onRange
  dsimp only
  congr 1
  funext i
  split <;> rfl

theorem onPages_eq_self_iff : table.onPages shmid count change = table ↔
      ∀ i, shmid ≤ i → i < shmid + count → change (table.shmSegs i) = table.shmSegs i := by
  constructor
  · intro hsame i hstart hend
    calc
      change (table.shmSegs i) = (table.onPages shmid count change).shmSegs i :=
        (onPages_of_mem hstart hend).symm
      _ = table.shmSegs i := by rw [hsame]
  · intro hslots
    have hall : (table.onPages shmid count change).shmSegs = table.shmSegs := by
      funext i
      by_cases hin : shmid ≤ i ∧ i < shmid + count
      · rw [onPages_of_mem hin.1 hin.2, hslots i hin.1 hin.2]
      · exact onPages_of_not_mem (by omega)
    calc table.onPages shmid count change =
          { table with shmSegs := (table.onPages shmid count change).shmSegs } := rfl
      _ = table := by rw [hall]

theorem onPages_field (change : ShmidDs → ShmidDs)
    {Field : Type} (field : ShmidDs → Field) (hkeep : ∀ slot, field (change slot) = field slot)
    (i : ℕ) : field ((table.onPages shmid count change).shmSegs i) = field (table.shmSegs i) := by
  by_cases hin : shmid ≤ i ∧ i < shmid + count
  · rw [onPages_of_mem hin.1 hin.2, hkeep]
  · rw [onPages_of_not_mem (by omega)]

theorem onPages_forall {holds : ShmidDs → Prop} (hchange : ∀ slot, holds slot → holds (change slot))
    (hall : ∀ i, holds (table.shmSegs i)) (i : ℕ) :
    holds ((table.onPages shmid count change).shmSegs i) := by
  by_cases hin : shmid ≤ i ∧ i < shmid + count
  · rw [onPages_of_mem hin.1 hin.2]
    exact hchange _ (hall i)
  · rw [onPages_of_not_mem (by omega)]
    exact hall i

theorem slot_eq_ok {index : ℤ} {slot : ShmidDs} : table.slot index = .ok slot ↔
      ∃ s : ℕ, index = s ∧ s < shmMaxSeg ∧ slot = table.shmSegs s := by
  unfold ShmPgTable.slot
  constructor
  · intro h
    split at h
    · rename_i hrange
      cases h
      exact ⟨index.toNat, by omega, by omega, rfl⟩
    · cases h
  · rintro ⟨s, rfl, hs, rfl⟩
    rw [if_pos (by omega)]
    simp

theorem slot_natCast {s : ℕ} (hs : s < shmMaxSeg) :
    table.slot s = .ok (table.shmSegs s) := slot_eq_ok.mpr ⟨s, rfl, hs, rfl⟩

theorem modify_eq_ok {next : ShmPgTable} {index : ℤ} : table.modify index change = .ok next ↔
      ∃ s : ℕ, index = s ∧ s < shmMaxSeg ∧
        next = { table with shmSegs := update table.shmSegs s (change (table.shmSegs s)) } := by
  unfold modify
  constructor
  · intro h
    split at h
    · rename_i hrange
      cases h
      exact ⟨index.toNat, by omega, by omega, rfl⟩
    · cases h
  · rintro ⟨s, rfl, hs, rfl⟩
    rw [if_pos (by omega)]
    simp

theorem acquire_eq_ok {next : ShmPgTable} :
    table.acquire = .ok next ↔ table.locked = false ∧ next = { table with locked := true } := by
  unfold acquire
  cases table.locked <;> simp [eq_comm]

/-- The loop over the slots of a segment succeeds exactly when they all exist. -/
theorem forPages_eq_ok {table : ShmPgTable} {s : ℕ} {change : ShmidDs → ShmidDs}
    (hs : s ≤ shmMaxSeg) {count : ℕ} {next : ShmPgTable} :
    table.forPages s change count = .ok next ↔ s + count ≤ shmMaxSeg ∧ next = table.onPages s count
      change := by
  induction count generalizing next with
  | zero =>
    rw [forPages, pure_eq_ok, Except.ok.injEq, onPages_zero]
    constructor
    · intro h
      exact ⟨hs, h.symm⟩
    · intro h
      exact h.2.symm
  | succ count ih =>
    have hchange : update (table.onPages s count change).shmSegs (s + count)
        (change ((table.onPages s count change).shmSegs (s + count))) =
          (table.onPages s (count + 1) change).shmSegs := by
      rw [onPages_of_not_mem (Or.inr le_rfl)]
      exact update_onRange s count (fun _ ↦ change) table.shmSegs
    rw [forPages, bind_eq_ok]
    constructor
    · rintro ⟨changed, hloop, hmodify⟩
      obtain ⟨-, rfl⟩ := ih.mp hloop
      obtain ⟨last, hlast, hbound, rfl⟩ := modify_eq_ok.mp hmodify
      have hindex : last = s + count := by omega
      subst hindex
      refine ⟨by omega, ?_⟩
      rw [hchange]
      rfl
    · rintro ⟨hbound, rfl⟩
      refine ⟨_, ih.mpr ⟨by omega, rfl⟩, modify_eq_ok.mpr ⟨s + count, by omega, by omega, ?_⟩⟩
      rw [hchange]
      rfl

end ShmPgTable

variable {table next : ShmPgTable} {pid key : ℤ} {segSize perm : ℕ} {incrementLastIndex : Bool}

theorem updateShmSeg_eq_ok {clock : Clock} {shmid flag : ℤ} :
    updateShmSeg table clock shmid pid flag = .ok next ↔
      ∃ s : ℕ, shmid = s ∧ s < shmMaxSeg ∧ table.locked = false ∧
        s + (table.shmSegs s).pages ≤ shmMaxSeg ∧
        next = table.onPages s (table.shmSegs s).pages (updated clock pid flag) := by
  unfold updateShmSeg
  constructor
  · intro h
    obtain ⟨first, hslot, h⟩ := bind_eq_ok.mp h
    obtain ⟨s, rfl, hs, rfl⟩ := slot_eq_ok.mp hslot
    obtain ⟨locked, hacquire, h⟩ := bind_eq_ok.mp h
    obtain ⟨hunlocked, rfl⟩ := acquire_eq_ok.mp hacquire
    obtain ⟨changed, hpages, h⟩ := bind_eq_ok.mp h
    obtain ⟨hbound, rfl⟩ := (forPages_eq_ok hs.le).mp hpages
    cases h
    refine ⟨s, rfl, hs, hunlocked, hbound, ?_⟩
    unfold release onPages
    rw [hunlocked]
  · rintro ⟨s, rfl, hs, hunlocked, hbound, rfl⟩
    rw [slot_natCast hs, ok_bind, acquire_eq_ok.mpr ⟨hunlocked, rfl⟩, ok_bind]
    rw [(forPages_eq_ok hs.le).mpr ⟨hbound, rfl⟩, ok_bind]
    unfold release onPages
    rw [hunlocked]
    rfl

theorem mapShmSegPage_eq_ok {pa : ℕ} {index : ℤ} :
    mapShmSegPage table pa key segSize index pid perm = .ok next ↔
      ∃ s : ℕ, index = s ∧ s < shmMaxSeg ∧ table.locked = false ∧
        next = { table with
          shmSegs := update table.shmSegs s (fresh pa key segSize pid perm) } := by
  unfold mapShmSegPage
  constructor
  · intro h
    obtain ⟨locked, hacquire, h⟩ := bind_eq_ok.mp h
    obtain ⟨hunlocked, rfl⟩ := acquire_eq_ok.mp hacquire
    obtain ⟨changed, hmodify, h⟩ := bind_eq_ok.mp h
    obtain ⟨s, rfl, hs, rfl⟩ := modify_eq_ok.mp hmodify
    cases h
    refine ⟨s, rfl, hs, hunlocked, ?_⟩
    unfold release
    rw [hunlocked]
  · rintro ⟨s, rfl, hs, hunlocked, rfl⟩
    rw [acquire_eq_ok.mpr ⟨hunlocked, rfl⟩, ok_bind, modify_eq_ok.mpr ⟨s, rfl, hs, rfl⟩, ok_bind]
    rw [hunlocked]
    rfl

/-- The table after the given frames are entered from slot `index` on. -/
def ShmPgTable.created (table : ShmPgTable) (key : ℤ) (segSize : ℕ) (pid : ℤ) (perm : ℕ)
    (incrementLastIndex : Bool) (index : ℕ) (frames : List ℕ) : ShmPgTable :=
  { table with
    shmSegs := onRange index frames.length
      (fun offset _ ↦ fresh (v2p (frames.getD offset 0)) key segSize pid perm) table.shmSegs
    lastShmSegIndex :=
      if incrementLastIndex then table.lastShmSegIndex + frames.length else table.lastShmSegIndex }

theorem ShmPgTable.created_cons {index frame : ℕ} {frames : List ℕ} : created { table with
          shmSegs := update table.shmSegs index (fresh (v2p frame) key segSize pid perm)
          lastShmSegIndex :=
            if incrementLastIndex then table.lastShmSegIndex + 1 else table.lastShmSegIndex }
        key segSize pid perm incrementLastIndex (index + 1) frames =
      table.created key segSize pid perm incrementLastIndex index (frame :: frames) := by
  unfold created
  have hslots := onRange_update index frames.length
    (fun offset _ ↦ fresh (v2p ((frame :: frames).getD offset 0)) key segSize pid perm)
    (fun offset _ ↦ fresh (v2p (frames.getD offset 0)) key segSize pid perm)
    table.shmSegs (fun offset ↦ rfl)
  simp only [List.getD_cons_zero] at hslots
  rw [hslots]
  congr 1
  cases incrementLastIndex with
  | true =>
    simp only [List.length_cons, if_true]
    push_cast
    omega
  | false => rfl

@[simp] theorem ShmPgTable.created_nil {index : ℕ} :
    table.created key segSize pid perm incrementLastIndex index [] = table := by
  unfold created
  cases incrementLastIndex <;> simp

/-- The page loop of `allocShmSeg` takes frames from the free list and enters them; if they do not
suffice, the roll-back follows. -/
theorem allocShmSegLoop_cases {remaining done index : ℕ} {kmem kmem' : Kmem}
    {table table' : ShmPgTable} {ok : Bool} (h : allocShmSegLoop key segSize pid perm
      incrementLastIndex remaining done index kmem table = .ok (kmem', table', ok)) :
    ∃ frames : List ℕ, kmem.freelist = frames ++ kmem'.freelist ∧ (frames = [] ∨ table.locked =
      false ∧ index + frames.length ≤ shmMaxSeg) ∧ ((ok = true ∧ frames.length = remaining ∧ table'
      = table.created key segSize pid perm incrementLastIndex index frames) ∨ (ok = false ∧
      frames.length < remaining ∧ kmem'.freelist = [] ∧ unmapShmSegPage (table.created key segSize
      pid perm incrementLastIndex index frames) (done + frames.length) = .ok table')) := by
  induction remaining generalizing done index kmem kmem' table table' ok with
  | zero =>
    cases h
    exact ⟨[], rfl, Or.inl rfl, Or.inl ⟨rfl, rfl, created_nil.symm⟩⟩
  | succ remaining ih =>
    rw [allocShmSegLoop] at h
    cases hkalloc : kmem.kalloc with
    | none =>
      rw [hkalloc] at h
      obtain ⟨unmapped, hunmap, hpure⟩ := bind_eq_ok.mp h
      cases hpure
      refine ⟨[], rfl, Or.inl rfl, Or.inr ⟨rfl, Nat.succ_pos _, ?_, ?_⟩⟩
      · exact Kmem.kalloc_eq_none.mp hkalloc
      · rw [created_nil]
        exact hunmap
    | some pair =>
      obtain ⟨mem, rest⟩ := pair
      rw [hkalloc] at h
      obtain ⟨mapped, hmap, hrest⟩ := bind_eq_ok.mp h
      obtain ⟨s, hindex, hs, hunlocked, rfl⟩ := mapShmSegPage_eq_ok.mp hmap
      have hsame : s = index := by omega
      subst hsame
      have hbook (slots : ℕ → ShmidDs) : (if incrementLastIndex then
              ({ table with shmSegs := slots, lastShmSegIndex := table.lastShmSegIndex + 1 } :
                ShmPgTable)
            else { table with shmSegs := slots }) =
          { table with
            shmSegs := slots
            lastShmSegIndex :=
              if incrementLastIndex then table.lastShmSegIndex + 1 else table.lastShmSegIndex } := by
        cases incrementLastIndex <;> rfl
      have hnext : ((s : ℤ) + 1) = ((s + 1 : ℕ) : ℤ) := by push_cast; rfl
      rw [hbook, hnext] at hrest
      obtain ⟨frames, hfree, hroom, hcases⟩ := ih hrest
      simp only [created_cons] at hcases
      refine ⟨mem :: frames, ?_, Or.inr ⟨hunlocked, ?_⟩, ?_⟩
      · rw [(Kmem.kalloc_eq_some.mp hkalloc).1, List.cons_append, ← hfree, Kmem.memset_freelist]
      · rcases hroom with rfl | ⟨-, hroom⟩
        · exact hs
        · rw [List.length_cons]
          omega
      · rw [List.length_cons]
        rcases hcases with ⟨hok, hlen, htable⟩ | ⟨hok, hlen, hnone, hunmap⟩
        · exact Or.inl ⟨hok, by omega, htable⟩
        · refine Or.inr ⟨hok, by omega, hnone, ?_⟩
          rw [← hunmap]
          congr 1
          omega

/-- With frames and slots enough, the loop can only be stopped by the lock. -/
theorem allocShmSegLoop_error :
    ∀ {remaining done index : ℕ} {kmem : Kmem} {table : ShmPgTable} {fault : Fault},
      allocShmSegLoop key segSize pid perm incrementLastIndex remaining done index kmem table =
        .error fault →
      index + remaining ≤ shmMaxSeg → remaining ≤ kmem.freelist.length → fault = .blocked := by
  intro remaining
  induction remaining with
  | zero =>
    intro done index kmem table fault h
    cases h
  | succ remaining ih =>
    intro done index kmem table fault h hroom hfree
    rw [allocShmSegLoop] at h
    cases hkalloc : kmem.kalloc with
    | none =>
      rw [Kmem.kalloc_eq_none.mp hkalloc] at hfree
      exact absurd hfree (Nat.not_succ_le_zero _)
    | some pair =>
      obtain ⟨mem, rest⟩ := pair
      rw [hkalloc] at h
      have hlength : remaining ≤ rest.freelist.length := by
        rw [(Kmem.kalloc_eq_some.mp hkalloc).1, List.length_cons] at hfree
        omega
      rcases bind_eq_error.mp h with hmap | ⟨mapped, -, hrest⟩
      · unfold mapShmSegPage at hmap
        rcases bind_eq_error.mp hmap with hacquire | ⟨locked, -, hmodify⟩
        · unfold acquire at hacquire
          split at hacquire
          · cases hacquire
            rfl
          · cases hacquire
        · rw [modify_eq_ok.mpr ⟨index, rfl, by omega, rfl⟩, ok_bind] at hmodify
          cases hmodify
      · have hnext : ((index : ℤ) + 1) = ((index + 1 : ℕ) : ℤ) := by push_cast; rfl
        rw [hnext] at hrest
        exact ih hrest (by omega) hlength

theorem unmapShmSegPageLoop_spec {endIndex : ℕ} {table next : ShmPgTable}
    (h : unmapShmSegPageLoop table endIndex = .ok next) :
    next.locked = table.locked ∧ next.lastShmSegIndex = table.lastShmSegIndex ∧ ∀ i, next.shmSegs i
      = table.shmSegs i ∨ next.shmSegs i = (table.shmSegs i).unmapped := by
  induction endIndex generalizing table next with
  | zero =>
    rw [unmapShmSegPageLoop] at h
    split at h
    · cases h
      exact ⟨rfl, rfl, fun i ↦ Or.inl rfl⟩
    · obtain ⟨cleared, hmodify, hrest⟩ := bind_eq_ok.mp h
      obtain ⟨s, -, -, rfl⟩ := modify_eq_ok.mp hmodify
      split at hrest
      · cases hrest
        refine ⟨rfl, rfl, fun i ↦ ?_⟩
        by_cases hi : i = s
        · subst hi
          exact Or.inr (update_self _ _ _)
        · exact Or.inl (update_of_ne hi _ _)
      · cases hrest
  | succ endIndex ih =>
    rw [unmapShmSegPageLoop] at h
    split at h
    · cases h
      exact ⟨rfl, rfl, fun i ↦ Or.inl rfl⟩
    · obtain ⟨cleared, hmodify, hrest⟩ := bind_eq_ok.mp h
      obtain ⟨s, -, -, rfl⟩ := modify_eq_ok.mp hmodify
      obtain ⟨hlocked, hlast, hslots⟩ := ih hrest
      refine ⟨hlocked, hlast, fun i ↦ ?_⟩
      have hi := hslots i
      by_cases hsame : i = s
      · subst hsame
        dsimp only at hi
        rw [update_self] at hi
        exact Or.inr (hi.elim id id)
      · dsimp only at hi
        rwa [update_of_ne hsame] at hi

theorem unmapShmSegPage_spec {endIndex : ℕ} (h : unmapShmSegPage table endIndex = .ok next) :
    next.lastShmSegIndex = table.lastShmSegIndex ∧
      ∀ i, next.shmSegs i = table.shmSegs i ∨ next.shmSegs i = (table.shmSegs i).unmapped := by
  obtain ⟨locked, hacquire, h⟩ := bind_eq_ok.mp h
  obtain ⟨-, rfl⟩ := acquire_eq_ok.mp hacquire
  obtain ⟨cleared, hloop, hpure⟩ := bind_eq_ok.mp h
  cases hpure
  exact (unmapShmSegPageLoop_spec hloop).2

/-- The frames recorded in the slots `shmid, ..., shmid + count - 1`. -/
def ShmPgTable.framesAt (table : ShmPgTable) (shmid count : ℕ) : Multiset ℕ :=
  ∑ offset ∈ Finset.range count, {v2p (table.shmSegs (shmid + offset)).pa}

theorem freeshmPagesLoop_eq_ok {kmem : Kmem} {s : ℕ} (hs : s ≤ shmMaxSeg) {count : ℕ} {kmem' : Kmem}
    {table' : ShmPgTable} (h : freeshmPagesLoop kmem table s count = .ok (kmem', table')) :
    s + count ≤ shmMaxSeg ∧ table' = table.onPages s count (fun _ ↦ freed) ∧ (kmem'.freelist :
      Multiset ℕ) = table.framesAt s count + (kmem.freelist : Multiset ℕ) ∧ ∀ offset < count,
      IsFrame (v2p (table.shmSegs (s + offset)).pa) := by
  induction count generalizing kmem' table' with
  | zero =>
    cases h
    refine ⟨hs, ?_, ?_, fun offset hoffset ↦ absurd hoffset (Nat.not_lt_zero offset)⟩
    · rw [onPages_zero]
    · simp [framesAt]
  | succ count ih =>
    rw [freeshmPagesLoop] at h
    obtain ⟨⟨kmem₁, table₁⟩, hloop, h⟩ := bind_eq_ok.mp h
    obtain ⟨hbound, rfl, hfree, hframes⟩ := ih hloop
    obtain ⟨slot, hslot, h⟩ := bind_eq_ok.mp h
    obtain ⟨last, hlast, hmax, rfl⟩ := slot_eq_ok.mp hslot
    have hsame : last = s + count := by omega
    subst hsame
    rw [onPages_of_not_mem (Or.inr le_rfl)] at h
    obtain ⟨kmem₂, hkfree, h⟩ := bind_eq_ok.mp h
    obtain ⟨table₂, hmodify, h⟩ := bind_eq_ok.mp h
    cases h
    obtain ⟨t, ht, -, rfl⟩ := modify_eq_ok.mp hmodify
    have htsame : t = s + count := by omega
    subst htsame
    refine ⟨by omega, ?_, ?_, ?_⟩
    · have hrange :=
        update_onRange s count (fun _ (_ : ShmidDs) ↦ freed) table.shmSegs
      unfold onPages
      rw [← hrange]
    · rw [Kmem.freelist_of_kfree hkfree, hfree, framesAt, framesAt, Finset.sum_range_succ]
      abel
    · intro offset hoffset
      by_cases hlastOffset : offset = count
      · rw [hlastOffset]
        exact (Kmem.kfree_eq_ok.mp hkfree).1
      · exact hframes offset (by omega)

/-- Releasing pages stays inside the table if the slots do; then only `kfree` can refuse. -/
theorem freeshmPagesLoop_error {kmem : Kmem} {s : ℕ} :
    ∀ {count : ℕ} {fault : Fault}, freeshmPagesLoop kmem table s count = .error fault →
      s + count ≤ shmMaxSeg → fault = .panic "kfree" := by
  intro count
  induction count with
  | zero =>
    intro fault h
    cases h
  | succ count ih =>
    intro fault h hroom
    rw [freeshmPagesLoop] at h
    have hnext : ((s : ℤ) + count) = ((s + count : ℕ) : ℤ) := by push_cast; rfl
    rcases bind_eq_error.mp h with hloop | ⟨⟨kmem₁, table₁⟩, -, h⟩
    · exact ih hloop (by omega)
    · dsimp only at h
      rw [hnext, slot_natCast (by omega), ok_bind] at h
      rcases bind_eq_error.mp h with hkfree | ⟨kmem₂, -, h⟩
      · unfold Kmem.kfree at hkfree
        split at hkfree
        · cases hkfree
        · cases hkfree
          rfl
      · rw [modify_eq_ok.mpr ⟨s + count, rfl, by omega, rfl⟩, ok_bind] at h
        cases h

end Xv6Shm
