import Xv6Shm.Shm.Attach

/-!
# What each shared-memory call can do

One inversion theorem for each call: a call that returns has left the kernel alone, or has done
exactly one of the things listed. The invariants are derived from these theorems and never look at
the bodies of the calls.
-/

namespace Xv6Shm

open Function

open Fallible ShmPgTable ShmidDs

/-- What every reachable table satisfies, whatever the callers do. -/
structure ShmPgTable.Sane (table : ShmPgTable) : Prop where
  slots : ∀ i, (table.shmSegs i).Sane
  last_ge : -1 ≤ table.lastShmSegIndex
  last_lt : table.lastShmSegIndex < shmMaxSeg

variable {slot : ShmidDs} {count p shmflag w : ℕ} {kernel kernel' : Kernel}
  {result shmaddr shmid : ℤ} {clock : Clock}

theorem ShmidDs.Sane.segsz_lt (h : slot.Sane) : slot.shmSegsz < 2 ^ 31 := by
  have hpages := h.pages
  unfold ShmidDs.pages pgSize shmMaxSeg at hpages
  omega

theorem ShmidDs.Sane.pages_le (h : slot.Sane) : slot.pages ≤ shmMaxSeg := by
  rcases h.pages with hzero | ⟨-, hle⟩
  · rw [ShmidDs.pages, hzero]
    exact Nat.zero_le _
  · exact hle

theorem ShmidDs.Sane.signedPages (h : slot.Sane) :
    (Word.toInt slot.shmSegsz).tdiv pgSize = slot.pages := by
  rw [Word.toInt, if_pos h.segsz_lt]
  exact (Int.ofNat_tdiv slot.shmSegsz pgSize).symm

theorem ShmidDs.Sane.toInt_eq_zero (h : slot.Sane) :
    Word.toInt slot.shmSegsz = 0 ↔ slot.pages = 0 := by
  have hpages := h.pages
  rw [Word.toInt, if_pos h.segsz_lt]
  unfold ShmidDs.pages pgSize at *
  omega

namespace ShmPgTable

variable {table : ShmPgTable} {key : ℤ}

theorem findKeyFrom_some {remaining index i : ℕ}
    (h : table.findKeyFrom key remaining index = some i) :
    index ≤ i ∧ i < index + remaining ∧ (table.shmSegs i).shmPerm.key = key ∧ ∀ j, index ≤ j → j < i
      → (table.shmSegs j).shmPerm.key ≠ key := by
  induction remaining generalizing index i with
  | zero => cases h
  | succ remaining ih =>
    rw [findKeyFrom] at h
    split at h
    · rename_i hkey
      cases h
      exact ⟨le_rfl, by omega, hkey, fun j hle hlt ↦ absurd hlt (Nat.not_lt.mpr hle)⟩
    · rename_i hkey
      obtain ⟨hle, hlt, hfound, hbefore⟩ := ih h
      refine ⟨by omega, by omega, hfound, fun j hj hji ↦ ?_⟩
      by_cases hfirst : j = index
      · rw [hfirst]
        exact hkey
      · exact hbefore j (by omega) hji

theorem findKeyFrom_none : ∀ {remaining index : ℕ}, table.findKeyFrom key remaining index = none →
      ∀ j, index ≤ j → j < index + remaining → (table.shmSegs j).shmPerm.key ≠ key := by
  intro remaining
  induction remaining with
  | zero =>
    intro index _ j hle hlt
    omega
  | succ remaining ih =>
    intro index h j hle hlt
    rw [findKeyFrom] at h
    split at h
    · cases h
    · rename_i hkey
      by_cases hfirst : j = index
      · rw [hfirst]
        exact hkey
      · exact ih h j (by omega) (by omega)

theorem scanBound_eq_ok (hlast : table.lastShmSegIndex < shmMaxSeg) :
    table.scanBound = .ok (table.lastShmSegIndex + 1).toNat := if_pos hlast

/-- The first slot up to the last one that carries the key. -/
def lookup (table : ShmPgTable) (key : ℤ) : Option ℕ :=
  table.findKeyFrom key (table.lastShmSegIndex + 1).toNat 0

theorem findKey_eq (hlast : table.lastShmSegIndex < shmMaxSeg) (key : ℤ) :
    table.findKey key = .ok (table.lookup key) := by
  unfold findKey
  rw [scanBound_eq_ok hlast, ok_bind, pure_eq_ok, lookup]

theorem lookup_some {i : ℕ} (h : table.lookup key = some i) :
    (i : ℤ) ≤ table.lastShmSegIndex ∧ (table.shmSegs i).shmPerm.key = key ∧
      ∀ j < i, (table.shmSegs j).shmPerm.key ≠ key := by
  obtain ⟨-, hlt, hkey, hbefore⟩ := findKeyFrom_some h
  exact ⟨by omega, hkey, fun j hj ↦ hbefore j (Nat.zero_le j) hj⟩

theorem lookup_none (h : table.lookup key = none) :
    ∀ j : ℕ, (j : ℤ) ≤ table.lastShmSegIndex → (table.shmSegs j).shmPerm.key ≠ key := by
  intro j hj
  exact findKeyFrom_none h j (Nat.zero_le j) (by omega)

end ShmPgTable

/-- The number of pages of a segment of the given size. -/
def sizePages (size : ℕ) : ℕ := pgRoundUp size / pgSize

theorem sizePages_spec {size : ℕ} (hmin : shmMin ≤ size) (hmax : size ≤ maxSegSize) :
    0 < sizePages size ∧ sizePages size ≤ shmMaxSeg ∧ pgRoundUp size = sizePages size * pgSize := by
  have hround : pgRoundUp size = (size + (pgSize - 1)) / pgSize * pgSize := by
    apply pgRoundUp_eq
    unfold maxSegSize at hmax
    unfold pgSize Word.size
    omega
  unfold sizePages
  rw [hround, Nat.mul_div_cancel _ (by decide : 0 < pgSize)]
  unfold shmMin maxSegSize at *
  unfold pgSize shmMaxSeg
  omega

/-- Where `allocShmSeg` puts `count` pages: in the first run of free slots, or behind the last slot.
-/
structure Placed (table : ShmPgTable) (count index : ℕ) (append : Bool) : Prop where
  fits : index + count ≤ shmMaxSeg
  reuse : append = false → ((index + count : ℕ) : ℤ) ≤ table.lastShmSegIndex + 1 ∧
    FirstFit.IsRun table.isFree count index
  extend : append = true → (index : ℤ) = table.lastShmSegIndex + 1

theorem ShmPgTable.findRoom_spec {table : ShmPgTable} (hcount : 0 < count)
    (hlast : -1 ≤ table.lastShmSegIndex)
    (hfits : (table.findRoom count (table.lastShmSegIndex + 1).toNat).1 + count ≤ shmMaxSeg) :
    ∃ (index : ℕ) (append : Bool), table.findRoom count (table.lastShmSegIndex + 1).toNat =
        ((index : ℤ), append) ∧ Placed table count index append := by
  unfold findRoom at *
  cases hfind : FirstFit.find table.isFree count (table.lastShmSegIndex + 1).toNat with
  | some si =>
    rw [hfind] at hfits
    obtain ⟨⟨hbound, hrun⟩, -⟩ := FirstFit.find_some hcount hfind
    dsimp only at hfits
    exact ⟨si, false, rfl, by omega, fun _ ↦ ⟨by omega, hrun⟩, fun h ↦ by cases h⟩
  | none =>
    rw [hfind] at hfits
    dsimp only at hfits
    refine ⟨(table.lastShmSegIndex + 1).toNat, true, ?_, by omega, fun h ↦ (by cases h), fun _ ↦ ?_⟩
    · dsimp only
      rw [Int.toNat_of_nonneg (by omega)]
    · omega

/-- The two searches take the first run that fits below any bound, and fail without one. -/
theorem searches_first_fit (table : ShmPgTable) (shmsegs : ℕ → AttachedShmsegs) (bound : ℕ)
    {reqPages : ℕ} (hreq : 1 ≤ reqPages) :
    (∀ i : ℕ, table.findRoom reqPages bound = ((i : ℤ), false) ↔ IsLeast {first |
      first + reqPages ≤ bound ∧
        ∀ offset < reqPages, (table.shmSegs (first + offset)).shmPerm.key = -1} i) ∧
    ((table.findRoom reqPages bound).2 = true ↔ ¬ ∃ first, first + reqPages ≤ bound ∧
      ∀ offset < reqPages, (table.shmSegs (first + offset)).shmPerm.key = -1) ∧
    (∀ i, FirstFit.find (fun i ↦ !(shmsegs i).isAttached) reqPages bound = some i ↔
      IsLeast {first | first + reqPages ≤ bound ∧
        ∀ offset < reqPages, (shmsegs (first + offset)).isAttached = false} i) ∧
    (FirstFit.find (fun i ↦ !(shmsegs i).isAttached) reqPages bound = none ↔
      ¬ ∃ first, first + reqPages ≤ bound ∧
        ∀ offset < reqPages, (shmsegs (first + offset)).isAttached = false) := by
  have hkey (first : ℕ) : FirstFit.IsRun table.isFree reqPages first ↔
      ∀ offset < reqPages, (table.shmSegs (first + offset)).shmPerm.key = -1 := by
    simp [FirstFit.IsRun, isFree]
  have hattached (first : ℕ) : FirstFit.IsRun (fun i ↦ !(shmsegs i).isAttached) reqPages first ↔
        ∀ offset < reqPages, (shmsegs (first + offset)).isAttached = false := by
    simp [FirstFit.IsRun]
  simp only [← hkey, ← hattached, ← FirstFit.find_eq_some_iff hreq, not_exists, not_and,
    ← FirstFit.find_eq_none_iff hreq, findRoom, implies_true, and_true]
  refine ⟨fun i ↦ ?_, ?_⟩
  all_goals cases FirstFit.find table.isFree reqPages bound <;> simp

theorem searches_first_fit_skips_short_run : let used : ℕ → Bool := fun i ↦ i == 1
    IsLeast {first | first + 2 ≤ 5 ∧ ∀ offset < 2, used (first + offset) = false} 2 :=
  ((searches_first_fit ShmPgTable.initial (fun i ↦ ⟨i == 1, 0⟩) 5 (by decide)).2.2.1 2).mp rfl

/-- The kernel after a successful creation. -/
def Kernel.created (kernel : Kernel) (p size : ℕ) (key : ℤ) (shmflag index : ℕ) (append : Bool)
    (frames : List ℕ) (kmem : Kmem) : Kernel :=
  let table := kernel.shmpgtable.created key (pgRoundUp size) (kernel.proc p).pid (shmflag &&& 3)
    append index frames
  { kernel with
    kmem := kmem
    shmpgtable := table
    shmInfo := ⟨kernel.shmInfo.usedIds + 1, Word.ofInt (table.lastShmSegIndex + 1)⟩ }

theorem allocShmSeg_cases {size : ℕ} {key : ℤ} (hsane : kernel.shmpgtable.Sane)
    (h : allocShmSeg kernel p size key shmflag = .ok (kernel', result)) :
    (kernel' = kernel ∧ result < 0) ∨
      ∃ index append frames kmem, shmMin ≤ size ∧ size ≤ maxSegSize ∧
        Placed kernel.shmpgtable (sizePages size) index append ∧
        kernel.kmem.freelist = frames ++ kmem.freelist ∧
        ((kernel.shmpgtable.locked = false ∧ frames.length = sizePages size ∧ result = index ∧
            kernel' = kernel.created p size key shmflag index append frames kmem) ∨
          (kernel.kmem.freelist.length < sizePages size ∧ result = -1 ∧ ∃ table,
            unmapShmSegPage (kernel.shmpgtable.created key (pgRoundUp size) (kernel.proc p).pid
              (shmflag &&& 3) append index frames) frames.length = .ok table ∧
            kernel' = { kernel with kmem := kmem, shmpgtable := table })) := by
  unfold allocShmSeg at h
  split at h
  · cases h
    exact Or.inl ⟨rfl, by decide⟩
  · rename_i hsize
    have hmin : shmMin ≤ size := by omega
    have hmax : size ≤ maxSegSize := by omega
    obtain ⟨hpos, -, -⟩ := sizePages_spec hmin hmax
    dsimp only at h
    rw [scanBound_eq_ok hsane.last_lt, ok_bind] at h
    split at h
    · cases h
      exact Or.inl ⟨rfl, by decide⟩
    · rename_i hfits
      obtain ⟨index, append, hroom, hplaced⟩ :=
        findRoom_spec hpos hsane.last_ge (not_lt.mp hfits)
      change kernel.shmpgtable.findRoom (pgRoundUp size / pgSize) _ = _ at hroom
      rw [hroom] at h
      obtain ⟨⟨kmem, table, ok⟩, hloop, h⟩ := bind_eq_ok.mp h
      obtain ⟨frames, hfree, hslots, hcases⟩ := allocShmSegLoop_cases hloop
      refine Or.inr ⟨index, append, frames, kmem, hmin, hmax, hplaced, hfree, ?_⟩
      rcases hcases with ⟨rfl, hlength, rfl⟩ | ⟨rfl, hlength, hnone, hunmap⟩
      · left
        cases h
        refine ⟨?_, hlength, rfl, rfl⟩
        rcases hslots with rfl | ⟨hunlocked, -⟩
        · exact absurd hlength (Nat.ne_of_lt hpos)
        · exact hunlocked
      · right
        cases h
        refine ⟨?_, rfl, table, ?_, rfl⟩
        · rw [hfree, hnone, List.append_nil]
          exact hlength
        · rwa [Nat.zero_add] at hunmap

/-- A `shmget` that goes on to create a segment: the key is new, or the segment found is larger than
asked for. -/
def ShmPgTable.Creating (table : ShmPgTable) (key : ℤ) (size shmflag : ℕ) : Prop :=
  match table.lookup key with
  | none => shmflag = ipcCreat ||| ipcExcl ∨ shmflag = ipcCreat
  | some i => shmflag = ipcCreat ∧ size < (table.shmSegs i).shmSegsz

instance (table : ShmPgTable) (key : ℤ) (size shmflag : ℕ) :
    Decidable (table.Creating key size shmflag) := by
  unfold ShmPgTable.Creating
  cases table.lookup key <;> exact inferInstance

/-- What `shmget` answers when it does not create a segment. -/
def ShmPgTable.answer (table : ShmPgTable) (key : ℤ) (shmflag : ℕ) : ℤ :=
  match table.lookup key with
  | none => eNoent
  | some i => if shmflag = ipcCreat ||| ipcExcl then eExist else i

section Shmget

variable {kernel : Kernel} {p size shmflag : ℕ} {clock : Clock} {key : ℤ}

section

variable (hsane : kernel.shmpgtable.Sane)

include hsane

theorem shmgetHelper_of_creating
    (hcreating : kernel.shmpgtable.Creating (shmgetKey clock key) size shmflag) :
    shmgetHelper kernel p clock key size shmflag =
      allocShmSeg kernel p size (shmgetKey clock key) shmflag := by
  unfold ShmPgTable.Creating at hcreating
  unfold shmgetHelper
  dsimp only
  rw [findKey_eq hsane.last_lt, ok_bind]
  cases hlookup : kernel.shmpgtable.lookup (shmgetKey clock key) with
  | none =>
    rw [hlookup] at hcreating
    rcases hcreating with hflag | hflag
    · exact if_pos hflag
    · rw [if_neg (by rw [hflag]; decide)]
      exact if_pos hflag
  | some i =>
    rw [hlookup] at hcreating
    obtain ⟨hflag, hsmall⟩ := hcreating
    rw [if_neg (by rw [hflag]; decide), if_pos hflag]
    dsimp only
    rw [if_neg (Nat.not_le.mpr hsmall), if_neg (not_not.mpr hsmall)]

theorem shmgetHelper_of_not_creating
    (hcreating : ¬ kernel.shmpgtable.Creating (shmgetKey clock key) size shmflag) :
    shmgetHelper kernel p clock key size shmflag =
      .ok (kernel, kernel.shmpgtable.answer (shmgetKey clock key) shmflag) := by
  unfold ShmPgTable.Creating at hcreating
  unfold shmgetHelper answer
  dsimp only
  rw [findKey_eq hsane.last_lt, ok_bind]
  cases hlookup : kernel.shmpgtable.lookup (shmgetKey clock key) with
  | none =>
    rw [hlookup, not_or] at hcreating
    rw [if_neg hcreating.1, if_neg hcreating.2]
    rfl
  | some i =>
    rw [hlookup] at hcreating
    dsimp only
    by_cases hexcl : shmflag = ipcCreat ||| ipcExcl
    · rw [if_pos hexcl, if_pos hexcl]
      rfl
    · rw [if_neg hexcl, if_neg hexcl]
      by_cases hflag : shmflag = ipcCreat
      · have hlarge := not_lt.mp fun hsmall ↦ hcreating ⟨hflag, hsmall⟩
        rw [if_pos hflag, if_pos hlarge]
        rfl
      · rw [if_neg hflag]
        rfl

theorem shmgetHelper_cases {kernel' : Kernel} {result : ℤ}
    (h : shmgetHelper kernel p clock key size shmflag = .ok (kernel', result)) :
    (kernel' = kernel ∧ (result < 0 ∨
        ∃ i : ℕ, kernel.shmpgtable.lookup (shmgetKey clock key) = some i ∧ result = i)) ∨
      (kernel.shmpgtable.Creating (shmgetKey clock key) size shmflag ∧
        allocShmSeg kernel p size (shmgetKey clock key) shmflag = .ok (kernel', result)) := by
  by_cases hcreating : kernel.shmpgtable.Creating (shmgetKey clock key) size shmflag
  · rw [shmgetHelper_of_creating hsane hcreating] at h
    exact Or.inr ⟨hcreating, h⟩
  · rw [shmgetHelper_of_not_creating hsane hcreating] at h
    cases h
    refine Or.inl ⟨rfl, ?_⟩
    unfold answer
    split
    · exact Or.inl (by decide)
    · rename_i i hlookup
      split
      · exact Or.inl (by decide)
      · exact Or.inr ⟨i, hlookup, rfl⟩

theorem shmgetHelper_proc {kernel' : Kernel} {result : ℤ}
    (h : shmgetHelper kernel p clock key size shmflag = .ok (kernel', result)) :
    kernel'.proc = kernel.proc := by
  rcases shmgetHelper_cases hsane h with ⟨rfl, -⟩ | ⟨-, halloc⟩
  · rfl
  · rcases allocShmSeg_cases hsane halloc with ⟨rfl, -⟩ |
      ⟨index, append, frames, kmem, -, -, -, -, ⟨-, -, -, rfl⟩ | ⟨-, -, table, -, rfl⟩⟩
    · rfl
    · rfl
    · rfl

end

end Shmget

/-- The state the loops of `shmat` and `shmdt` start from. -/
def Kernel.attaching (kernel : Kernel) (p : ℕ) : Attaching :=
  ⟨{ kernel.shmpgtable with locked := true }, ⟨kernel.kmem, (kernel.proc p).pgdir⟩,
    (kernel.proc p).shmsegs⟩

/-- The kernel with the table and with what such a loop leaves of the process. -/
def Kernel.putAttaching (kernel : Kernel) (p : ℕ) (table : ShmPgTable) (st : Attaching) : Kernel :=
  { kernel with kmem := st.vm.kmem, shmpgtable := table }.setProc p
    { kernel.proc p with pgdir := st.vm.pgdir, shmsegs := st.shmsegs }

@[simp] theorem Kernel.putAttaching_proc (kernel : Kernel) (p : ℕ) (table : ShmPgTable)
    (st : Attaching) : (kernel.putAttaching p table st).proc = update kernel.proc p
        { kernel.proc p with pgdir := st.vm.pgdir, shmsegs := st.shmsegs } := rfl

@[simp] theorem Kernel.putAttaching_shmpgtable (kernel : Kernel) (p : ℕ) (table : ShmPgTable)
    (st : Attaching) : (kernel.putAttaching p table st).shmpgtable = table := rfl

/-- How `shmat` chooses the window slot: the first room, or the given address. -/
inductive WindowSlot (shmsegs : ℕ → AttachedShmsegs) (shmaddr : ℤ) (shmflag count w : ℕ) : Prop
  | search (haddr : shmaddr = 0)
      (hrun : FirstFit.IsRun (fun i ↦ !(shmsegs i).isAttached) count w) :
      WindowSlot shmsegs shmaddr shmflag count w
  | given (haddr : shmaddr ≠ 0) (hflag : shmflag = shmRnd)
      (hslot : w = addrSlot shmaddr) :
      WindowSlot shmsegs shmaddr shmflag count w

theorem allocshmuvm_cases {s : ℕ} (hsane : kernel.shmpgtable.Sane)
    (h : allocshmuvm kernel p clock s (windowAddr w) count w shmflag = .ok (kernel', result)) :
    kernel.shmpgtable.locked = false ∧
      ((∃ st, AttachedPages clock (kernel.proc p).pid s shmflag s w count (kernel.attaching p) st ∧
          kernel' = kernel.putAttaching p
            (kernel.shmpgtable.onPages s count (attached clock (kernel.proc p).pid)) st ∧
          result = Word.toInt (windowAddr w)) ∨
        (kernel.kmem.freelist = [] ∧ w < shmMaxSeg ∧ 0 < count ∧ result = eNomem ∧
          kernel' = kernel.putAttaching p { kernel.shmpgtable with locked := true }
            { kernel.attaching p with
              shmsegs := update (kernel.proc p).shmsegs w ⟨true, s⟩ })) := by
  obtain ⟨locked, hacquire, h⟩ := bind_eq_ok.mp h
  obtain ⟨hunlocked, rfl⟩ := acquire_eq_ok.mp hacquire
  obtain ⟨⟨st, ok⟩, hloop, h⟩ := bind_eq_ok.mp h
  rw [Int.toNat_natCast] at hloop
  refine ⟨hunlocked, ?_⟩
  cases ok with
  | true =>
    have hattached := allocshmuvmLoop_ok hloop
    cases h
    refine Or.inl ⟨st, hattached, ?_, rfl⟩
    have htable := hattached.table
    unfold Kernel.putAttaching
    dsimp only [Nat.add_zero] at htable ⊢
    rw [htable, if_pos rfl]
    unfold release onPages
    rw [hunlocked]
  | false =>
    obtain ⟨-, hpos, hw, hfree, rfl⟩ :=
      allocshmuvmLoop_giveUp hsane.slots (fun h ↦ absurd rfl h) hloop
    cases h
    exact Or.inr ⟨hfree, hw, hpos, rfl, rfl⟩

theorem checkUnattached_index {shmsegs : ℕ → AttachedShmsegs} {i : ℤ} {clear : Bool}
    (h : checkUnattached shmsegs count i = .ok clear) : count = 0 ∨ 0 ≤ i := by
  cases count with
  | zero => exact Or.inl rfl
  | succ count =>
    rw [checkUnattached] at h
    split at h
    · rename_i hrange
      exact Or.inr hrange.1
    · cases h

/-- The window slot for a given address: negative, or that of the page meant. -/
theorem givenSlot_spec (haddr : Word.ofInt shmaddr ≤ kernBase) :
    (Word.toInt (pgRoundDown (Word.ofInt shmaddr)) - heapLimit).tdiv pgSize < 0 ∨
      ∃ w : ℕ, w = addrSlot shmaddr ∧
        (Word.toInt (pgRoundDown (Word.ofInt shmaddr)) - heapLimit).tdiv pgSize = w ∧
        pgRoundDown (Word.ofInt shmaddr) = windowAddr w := by
  unfold addrSlot
  generalize Word.ofInt shmaddr = a at haddr
  have hword : a < Word.size := lt_of_le_of_lt haddr (by decide)
  have hcalc (x : ℤ) (hneg : x < 0) (hpage : x % 4096 = 0) : x.tdiv pgSize < 0 := by
    have hdvd : ((pgSize : ℕ) : ℤ) ∣ x := Int.dvd_of_emod_eq_zero hpage
    rw [Int.tdiv_eq_ediv_of_dvd hdvd]
    unfold pgSize
    omega
  rw [pgRoundDown_eq hword]
  unfold Word.toInt
  split
  · rename_i hlow
    by_cases hheap : heapLimit ≤ a / pgSize * pgSize
    · right
      refine ⟨_, rfl, ?_, ?_⟩
      · have hcast : ((a / pgSize * pgSize : ℕ) : ℤ) - heapLimit =
            ((a - heapLimit) / pgSize * pgSize : ℕ) := by
          unfold heapLimit pgSize at *
          omega
        rw [hcast, ← Int.ofNat_tdiv, Nat.mul_div_cancel _ (by decide : 0 < pgSize)]
      · unfold windowAddr heapLimit pgSize at *
        omega
    · left
      apply hcalc
      · unfold heapLimit pgSize at *
        omega
      · unfold heapLimit pgSize at *
        omega
  · rename_i hhigh
    left
    apply hcalc
    · unfold kernBase at haddr
      unfold Word.size heapLimit pgSize at *
      omega
    · unfold Word.size heapLimit pgSize at *
      omega

/-- Without `SHM_RND` the address stays null, and its slot is negative. -/
theorem nullSlot_neg : (Word.toInt 0 - heapLimit).tdiv pgSize < 0 := by
  have hzero : Word.toInt 0 = 0 := rfl
  have hquotient : 0 < heapLimit / pgSize := by decide
  rw [hzero, zero_sub, Int.neg_tdiv, ← Int.ofNat_tdiv]
  omega

theorem toInt_windowAddr (hw : w < shmMaxSeg) : Word.toInt (windowAddr w) = windowAddr w := by
  have hlt := windowAddr_lt hw
  rw [Word.toInt, if_pos]
  exact hlt

/-- What an attach at window slot `w` of the segment at slot `s` can end in. -/
def AttachOutcome (kernel : Kernel) (p : ℕ) (clock : Clock) (s w shmflag : ℕ) (kernel' : Kernel)
    (result : ℤ) : Prop :=
  let count := (kernel.shmpgtable.shmSegs s).pages
  (∃ st, AttachedPages clock (kernel.proc p).pid s shmflag s w count (kernel.attaching p) st ∧
      kernel' = kernel.putAttaching p
        (kernel.shmpgtable.onPages s count (attached clock (kernel.proc p).pid)) st ∧
      result = windowAddr w) ∨
    (kernel.kmem.freelist = [] ∧ w < shmMaxSeg ∧ result = eNomem ∧
      kernel' = kernel.putAttaching p { kernel.shmpgtable with locked := true }
        { kernel.attaching p with
          shmsegs := update (kernel.proc p).shmsegs w ⟨true, s⟩ })

theorem attachAt_cases {s : ℕ}
    (hsane : kernel.shmpgtable.Sane) (hpos : 0 < (kernel.shmpgtable.shmSegs s).pages)
    (h : shmatHelper.attachAt p clock shmflag kernel s (windowAddr w)
      (kernel.shmpgtable.shmSegs s).pages w = .ok (kernel', result)) :
    kernel.shmpgtable.locked = false ∧ AttachOutcome kernel p clock s w shmflag kernel' result := by
  obtain ⟨⟨kernel₁, va⟩, hattach, h⟩ := bind_eq_ok.mp h
  obtain ⟨hunlocked, hcases⟩ := allocshmuvm_cases hsane hattach
  refine ⟨hunlocked, ?_⟩
  rcases hcases with ⟨st, hpages, rfl, rfl⟩ | ⟨hfree, hw, -, rfl, rfl⟩
  · have hw : w < shmMaxSeg := by
      have hroom := hpages.room
      omega
    dsimp only at h
    rw [toInt_windowAddr hw, if_neg] at h
    · cases h
      exact Or.inl ⟨st, hpages, rfl, rfl⟩
    · unfold windowAddr heapLimit
      omega
  · dsimp only at h
    rw [if_neg (by decide)] at h
    cases h
    exact Or.inr ⟨hfree, hw, rfl, rfl⟩

theorem shmatHelper_cases (hsane : kernel.shmpgtable.Sane)
    (h : shmatHelper kernel p clock shmid shmaddr shmflag = .ok (kernel', result)) :
    (kernel' = kernel ∧ result < 0) ∨
      ∃ s w : ℕ, shmid = s ∧ (s : ℤ) ≤ kernel.shmpgtable.lastShmSegIndex ∧
        0 < (kernel.shmpgtable.shmSegs s).pages ∧ kernel.shmpgtable.locked = false ∧
        WindowSlot (kernel.proc p).shmsegs shmaddr shmflag (kernel.shmpgtable.shmSegs s).pages w ∧
        AttachOutcome kernel p clock s w shmflag kernel' result := by
  unfold shmatHelper at h
  split at h
  · cases h
    exact Or.inl ⟨rfl, by decide⟩
  · rename_i hrange
    obtain ⟨slot, hslot, h⟩ := bind_eq_ok.mp h
    obtain ⟨s, rfl, hs, rfl⟩ := slot_eq_ok.mp hslot
    dsimp only at h
    rw [(hsane.slots s).signedPages] at h
    split at h
    · cases h
      exact Or.inl ⟨rfl, by decide⟩
    · rename_i hsize
      have hpos : 0 < (kernel.shmpgtable.shmSegs s).pages := by
        rw [(hsane.slots s).toInt_eq_zero] at hsize
        omega
      split at h
      · rename_i haddr
        split at h
        · cases h
          exact Or.inl ⟨rfl, by decide⟩
        · rename_i w hfind
          obtain ⟨⟨-, hrun⟩, -⟩ := FirstFit.find_some hpos hfind
          obtain ⟨hunlocked, houtcome⟩ := attachAt_cases hsane hpos h
          exact Or.inr ⟨s, w, rfl, by omega, hpos, hunlocked, .search haddr hrun, houtcome⟩
      · rename_i haddr
        split at h
        · cases h
          exact Or.inl ⟨rfl, by decide⟩
        · rename_i hwindow
          split at h
          · cases h
            exact Or.inl ⟨rfl, by decide⟩
          · obtain ⟨clear, hcheck, h⟩ := bind_eq_ok.mp h
            have hindex := checkUnattached_index hcheck
            split at h
            · by_cases hflag : shmflag = shmRnd
              · rw [if_pos hflag] at h hindex
                rcases givenSlot_spec (not_lt.mp (not_or.mp hwindow).1) with
                  hneg | ⟨w, hw, hslotEq, hva⟩
                · omega
                · rw [hslotEq, hva] at h
                  obtain ⟨hunlocked, houtcome⟩ := attachAt_cases hsane hpos h
                  exact Or.inr ⟨s, w, rfl, by omega, hpos, hunlocked, .given haddr hflag hw,
                    houtcome⟩
              · rw [if_neg hflag] at hindex
                have hnegative := nullSlot_neg
                generalize (Word.toInt 0 - heapLimit).tdiv pgSize = slot at hindex hnegative
                omega
            · cases h
              exact Or.inl ⟨rfl, by decide⟩

/-- The loop of `shmdt` starts with the slot of the given address cleared. -/
def detachStart (shmsegs : ℕ → AttachedShmsegs) (w : ℕ) : ℕ → AttachedShmsegs :=
  update shmsegs w ⟨false, -1⟩

/-- What detaching at an attached window slot does. -/
structure Detaches (kernel : Kernel) (p : ℕ) (clock : Clock) (s w : ℕ) (st : Attaching)
    (kernel' : Kernel) : Prop where
  slot_lt : s < shmMaxSeg
  recorded : ((kernel.proc p).shmsegs w).shmid = s
  unlocked : kernel.shmpgtable.locked = false
  pages : DetachedPages clock (kernel.proc p).pid s w (kernel.shmpgtable.shmSegs s).pages
    { kernel.attaching p with shmsegs := detachStart (kernel.proc p).shmsegs w } st
  result : kernel' = kernel.putAttaching p
    ((kernel.shmpgtable.onPages s (kernel.shmpgtable.shmSegs s).pages
      (detached clock (kernel.proc p).pid)).onPages s 1 markDest) st

theorem detachAt_cases
    (hsane : kernel.shmpgtable.Sane) (h : detachAt kernel p clock w = .ok (kernel', result)) :
    result = 0 ∧ ∃ s st, Detaches kernel p clock s w st kernel' := by
  obtain ⟨slot, hslot, h⟩ := bind_eq_ok.mp h
  obtain ⟨s, hshmid, hs, rfl⟩ := slot_eq_ok.mp hslot
  obtain ⟨locked, hacquire, h⟩ := bind_eq_ok.mp h
  obtain ⟨hunlocked, rfl⟩ := acquire_eq_ok.mp hacquire
  rw [(hsane.slots s).signedPages, Int.toNat_natCast, hshmid] at h
  obtain ⟨st, hloop, h⟩ := bind_eq_ok.mp h
  obtain ⟨table, hmark, h⟩ := bind_eq_ok.mp h
  cases h
  have hdetached : DetachedPages clock (kernel.proc p).pid s w (kernel.shmpgtable.shmSegs s).pages
      { kernel.attaching p with shmsegs := detachStart (kernel.proc p).shmsegs w } st :=
    shmdtLoop_ok hloop
  obtain ⟨t, ht, -, rfl⟩ := modify_eq_ok.mp hmark
  have htsame : t = s := by omega
  subst htsame
  refine ⟨rfl, t, st, hs, hshmid, hunlocked, hdetached, ?_⟩
  have htable := hdetached.table
  dsimp only [Kernel.attaching] at htable
  unfold Kernel.putAttaching
  rw [htable, onPages_one]
  unfold release onPages
  rw [hunlocked]

theorem shmdtHelper_cases (hsane : kernel.shmpgtable.Sane)
    (h : shmdtHelper kernel p clock shmaddr = .ok (kernel', result)) :
    (kernel' = kernel ∧ result < 0) ∨
      (result = 0 ∧ (heapLimit : ℤ) ≤ shmaddr ∧ addrSlot shmaddr < shmMaxSeg ∧
        ((kernel.proc p).shmsegs (addrSlot shmaddr)).isAttached = true ∧
        ∃ s st, Detaches kernel p clock s (addrSlot shmaddr) st kernel') := by
  unfold shmdtHelper at h
  split at h
  · cases h
    exact Or.inl ⟨rfl, by decide⟩
  · rename_i hrange
    dsimp only at h
    split at h
    · rename_i hw
      split at h
      · cases h
        exact Or.inl ⟨rfl, by decide⟩
      · rename_i hattached
        obtain ⟨hresult, hdetaches⟩ := detachAt_cases hsane h
        exact Or.inr ⟨hresult, by omega, hw, by simpa using hattached, hdetaches⟩
    · cases h

theorem shmctlHelper_cases {cmd : ℤ} {buf buf' : ShmidDs}
    (h : shmctlHelper kernel shmid cmd buf = .ok (kernel', result, buf')) :
    kernel' = kernel ∨
      ∃ s : ℕ, shmid = s ∧ s < shmMaxSeg ∧ (s : ℤ) ≤ kernel.shmpgtable.lastShmSegIndex ∧
        (kernel.shmpgtable.shmSegs s).shmPerm.key ≠ -1 ∧
        ((cmd = ipcSet ∧ (kernel.shmpgtable.shmSegs s).shmPerm.mode &&& shmR = 0 ∧
            kernel.shmpgtable.locked = false ∧ s + buf.pages ≤ shmMaxSeg ∧
            kernel' = { kernel with
              shmpgtable := kernel.shmpgtable.onPages s buf.pages buf.set }) ∨
          (cmd = ipcRmid ∧ s + (kernel.shmpgtable.shmSegs s).pages ≤ shmMaxSeg ∧
            kernel' = { kernel with
              shmpgtable := kernel.shmpgtable.onPages s (kernel.shmpgtable.shmSegs s).pages
                markDest })) := by
  unfold shmctlHelper at h
  split at h
  · cases h
    exact Or.inl rfl
  · rename_i hrange
    obtain ⟨slot, hslot, h⟩ := bind_eq_ok.mp h
    obtain ⟨s, rfl, hs, rfl⟩ := slot_eq_ok.mp hslot
    split at h
    · cases h
      exact Or.inl rfl
    · rename_i hkey
      split at h
      · cases h
        exact Or.inl rfl
      · split at h
        · rename_i hset
          split at h
          · cases h
            exact Or.inl rfl
          · rename_i hmode
            obtain ⟨locked, hacquire, h⟩ := bind_eq_ok.mp h
            obtain ⟨hunlocked, rfl⟩ := acquire_eq_ok.mp hacquire
            obtain ⟨table, hpages, h⟩ := bind_eq_ok.mp h
            obtain ⟨hbound, rfl⟩ := (forPages_eq_ok hs.le).mp hpages
            cases h
            refine Or.inr ⟨s, rfl, hs, by omega, hkey,
              Or.inl ⟨hset, by simpa using hmode, hunlocked, hbound, ?_⟩⟩
            unfold release onPages
            rw [hunlocked]
        · split at h
          · rename_i hrmid
            obtain ⟨table, hpages, h⟩ := bind_eq_ok.mp h
            obtain ⟨hbound, rfl⟩ := (forPages_eq_ok hs.le).mp hpages
            cases h
            exact Or.inr ⟨s, rfl, hs, by omega, hkey, Or.inr ⟨hrmid, hbound, rfl⟩⟩
          · split at h
            · cases h
              exact Or.inl rfl
            · split at h
              · cases h
                exact Or.inl rfl
              · cases h
                exact Or.inl rfl

/-- A removal works on the first slot with the key, or on the identifier. -/
def ShmPgTable.Resolves (table : ShmPgTable) (shmIdentifier flag : ℤ) (s : ℕ) : Prop :=
  if flag = 1 then table.lookup shmIdentifier = some s
  else shmIdentifier = s ∧ table.lastShmSegIndex ≠ -1 ∧ shmIdentifier ≠ table.lastShmSegIndex + 1

/-- A removal marks with the destruction bit, so a segment without attachments is released at once.
-/
theorem shmDest_set : shmDest &&& shmDest ≠ 0 := by decide

theorem removeSegment_cases (h : removeSegment kernel shmid = .ok (kernel', result)) :
    ∃ s : ℕ, shmid = s ∧ s < shmMaxSeg ∧ s + (kernel.shmpgtable.shmSegs s).pages ≤ shmMaxSeg ∧
      ((kernel' = { kernel with
          shmpgtable := kernel.shmpgtable.onPages s (kernel.shmpgtable.shmSegs s).pages
            setDest } ∧ result = -1 ∧
          ((kernel.shmpgtable.shmSegs s).pages = 0 ∨ (kernel.shmpgtable.shmSegs s).shmNattch ≠ 0)) ∨
        (∃ kmem, (kernel.shmpgtable.shmSegs s).shmNattch = 0 ∧ kernel' = { kernel with
            kmem := kmem
            shmpgtable := kernel.shmpgtable.onPages s (kernel.shmpgtable.shmSegs s).pages
              fun _ ↦ freed } ∧
          (kmem.freelist : Multiset ℕ) =
            kernel.shmpgtable.framesAt s (kernel.shmpgtable.shmSegs s).pages +
              (kernel.kmem.freelist : Multiset ℕ) ∧
          (∀ offset < (kernel.shmpgtable.shmSegs s).pages,
            IsFrame (v2p (kernel.shmpgtable.shmSegs (s + offset)).pa)) ∧ result = 0)) := by
  obtain ⟨slot, hslot, h⟩ := bind_eq_ok.mp h
  obtain ⟨s, rfl, hs, rfl⟩ := slot_eq_ok.mp hslot
  obtain ⟨marked, hpages, h⟩ := bind_eq_ok.mp h
  obtain ⟨hbound, rfl⟩ := (forPages_eq_ok hs.le).mp hpages
  obtain ⟨slot, hslot, h⟩ := bind_eq_ok.mp h
  rw [slot_natCast hs] at hslot
  cases hslot
  refine ⟨s, rfl, hs, hbound, ?_⟩
  have hnattch : ((kernel.shmpgtable.onPages s (kernel.shmpgtable.shmSegs s).pages
      setDest).shmSegs s).shmNattch = (kernel.shmpgtable.shmSegs s).shmNattch :=
    onPages_field setDest shmNattch (fun _ ↦ rfl) s
  have hsame : ((kernel.shmpgtable.onPages s (kernel.shmpgtable.shmSegs s).pages
      setDest).shmSegs s).pages = (kernel.shmpgtable.shmSegs s).pages :=
    onPages_field setDest pages (fun _ ↦ rfl) s
  have hpa (i : ℕ) : ((kernel.shmpgtable.onPages s (kernel.shmpgtable.shmSegs s).pages
      setDest).shmSegs i).pa = (kernel.shmpgtable.shmSegs i).pa :=
    onPages_field setDest pa (fun _ ↦ rfl) i
  rw [hnattch] at h
  split at h
  · rename_i hfree
    obtain ⟨⟨kmem, table⟩, hrelease, h⟩ := bind_eq_ok.mp h
    cases h
    unfold freeshmPages at hrelease
    rw [slot_natCast hs, ok_bind, hsame] at hrelease
    obtain ⟨-, rfl, hfreelist, hframes⟩ := freeshmPagesLoop_eq_ok hs.le hrelease
    rw [onPages_onPages]
    unfold framesAt at *
    simp only [hpa] at hfreelist hframes
    exact Or.inr ⟨kmem, hfree.1, rfl, hfreelist, hframes, rfl⟩
  · rename_i hkept
    cases h
    refine Or.inl ⟨rfl, rfl, ?_⟩
    by_contra hboth
    rw [not_or, not_not] at hboth
    apply hkept
    refine ⟨hboth.2, ?_⟩
    rw [onPages_of_mem le_rfl (by omega)]
    exact shmDest_set

theorem removeshmHelper_cases {shmIdentifier flag : ℤ} (hsane : kernel.shmpgtable.Sane)
    (h : removeshmHelper kernel shmIdentifier flag = .ok (kernel', result)) :
    (kernel' = kernel ∧ result = -1) ∨ ∃ s : ℕ, kernel.shmpgtable.Resolves shmIdentifier flag s ∧
        removeSegment kernel s = .ok (kernel', result) := by
  unfold removeshmHelper at h
  dsimp only at h
  unfold ShmPgTable.Resolves
  split at h
  · rename_i hflag
    rw [findKey_eq hsane.last_lt, ok_bind] at h
    split at h
    · cases h
      exact Or.inl ⟨rfl, rfl⟩
    · rename_i i hlookup
      refine Or.inr ⟨i, ?_, h⟩
      rw [if_pos hflag]
      exact hlookup
  · rename_i hflag
    split at h
    · cases h
      exact Or.inl ⟨rfl, rfl⟩
    · rename_i hvalid
      obtain ⟨s, rfl, -⟩ := removeSegment_cases h
      refine Or.inr ⟨s, ?_, h⟩
      rw [if_neg hflag]
      exact ⟨rfl, by omega, by omega⟩

end Xv6Shm
