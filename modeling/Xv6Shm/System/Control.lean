import Xv6Shm.System.Shmget

/-!
# Controlling segments

`IPC_SET` copies the caller's buffer into as many slots as the buffer itself says. The theorem of
this file gives the buffers that leave a well-formed table with the same segments, those that
`IPC_STAT` reads back, and the states in which a buffer from `IPC_STAT` can be put back without a
change.
-/

namespace Xv6Shm

open Fallible ShmPgTable

/-- The identifier is that of a slot in use. -/
structure ShmPgTable.InUse (table : ShmPgTable) (shmid : ℤ) (s : ℕ) : Prop where
  id : shmid = s
  bound : s < table.bound
  live : table.isLive s = true

section Commands

variable {kernel : Kernel} {shmid : ℤ} {s : ℕ} {buf : ShmidDs}

section

variable (hlast : kernel.shmpgtable.lastShmSegIndex < shmMaxSeg)

include hlast

theorem shmctlHelper_refuses (h : ¬ ∃ s, kernel.shmpgtable.InUse shmid s) :
    ∃ code ≠ 0, ∀ cmd buf, shmctlHelper kernel shmid cmd buf = .ok (kernel, code, buf) := by
  by_cases hrange : shmid < 0 ∨ shmid > kernel.shmpgtable.lastShmSegIndex
  · refine ⟨eInval, by decide, fun cmd buf ↦ ?_⟩
    unfold shmctlHelper
    rw [if_pos hrange]
    rfl
  · obtain ⟨s, rfl⟩ := Int.eq_ofNat_of_zero_le (by omega : 0 ≤ shmid)
    have hbound : s < kernel.shmpgtable.bound := lt_bound (by omega)
    have hkey : (kernel.shmpgtable.shmSegs s).shmPerm.key = -1 := by
      by_contra hkey
      exact h ⟨s, rfl, hbound, isLive_iff.mpr hkey⟩
    refine ⟨eIdrm, by decide, fun cmd buf ↦ ?_⟩
    unfold shmctlHelper
    rw [if_neg hrange, slot_natCast (by omega), ok_bind, if_pos hkey]
    rfl

theorem ShmPgTable.InUse.shmctl_stat (h : kernel.shmpgtable.InUse shmid s) :
    shmctlHelper kernel shmid ipcStat buf =
      .ok (kernel, 0, (kernel.shmpgtable.shmSegs s).stat buf) := by
  obtain ⟨rfl, hbound, hlive⟩ := h
  have hle := le_last hbound
  unfold shmctlHelper
  rw [if_neg (by omega), slot_natCast (by omega), ok_bind, if_neg (isLive_iff.mp hlive), if_pos rfl]
  rfl

theorem shmctl_stat_perm_iff (hbound : s < kernel.shmpgtable.bound) {perm : IpcPerm} :
    (∀ out, ∃ found, shmctlHelper kernel s ipcStat out = .ok (kernel, 0, found) ∧
        found.shmPerm = perm) ↔
      kernel.shmpgtable.isLive s = true ∧ (kernel.shmpgtable.shmSegs s).shmPerm = perm := by
  by_cases hlive : kernel.shmpgtable.isLive s = true
  · have huse : kernel.shmpgtable.InUse s s := ⟨rfl, hbound, hlive⟩
    constructor
    · intro h
      obtain ⟨found, hstat, hperm⟩ := h (kernel.shmpgtable.shmSegs s)
      rw [huse.shmctl_stat hlast] at hstat
      cases hstat
      exact ⟨hlive, hperm⟩
    · rintro ⟨-, hperm⟩ out
      exact ⟨_, huse.shmctl_stat hlast, hperm⟩
  · refine iff_of_false (fun h ↦ ?_) fun h ↦ hlive h.1
    obtain ⟨code, hcode, hrefused⟩ := @shmctlHelper_refuses kernel s hlast (by
      rintro ⟨t, hid, -, ht⟩
      cases Int.ofNat_inj.mp hid
      exact hlive ht)
    obtain ⟨found, hstat, -⟩ := h (kernel.shmpgtable.shmSegs s)
    rw [hrefused] at hstat
    cases hstat
    exact hcode rfl

theorem ShmPgTable.InUse.shmctl_set (h : kernel.shmpgtable.InUse shmid s) :
    shmctlHelper kernel shmid ipcSet buf =
      if (kernel.shmpgtable.shmSegs s).shmPerm.mode &&& shmR ≠ 0 then .ok (kernel, -1, buf)
      else (do
        let table ← kernel.shmpgtable.acquire
        let table ← table.forPages s buf.set buf.pages
        pure ({ kernel with shmpgtable := table.release }, 0, buf)) := by
  obtain ⟨rfl, hbound, hlive⟩ := h
  have hle := le_last hbound
  unfold shmctlHelper
  rw [if_neg (by omega), slot_natCast (by omega), ok_bind, if_neg (isLive_iff.mp hlive),
    if_neg (by decide), if_pos rfl]
  rfl

theorem ShmPgTable.InUse.shmctl_set_eq_ok (h : kernel.shmpgtable.InUse shmid s)
    (hmode : (kernel.shmpgtable.shmSegs s).shmPerm.mode &&& shmR = 0)
    {outcome : Kernel × ℤ × ShmidDs} :
    shmctlHelper kernel shmid ipcSet buf = .ok outcome ↔
      kernel.shmpgtable.locked = false ∧ s + buf.pages ≤ shmMaxSeg ∧ outcome = ({ kernel with
          shmpgtable := kernel.shmpgtable.onPages s buf.pages buf.set }, 0, buf) := by
  have hs : s ≤ shmMaxSeg := by
    have hle := le_last h.bound
    omega
  rw [h.shmctl_set hlast, if_neg (not_not.mpr hmode), bind_eq_ok]
  constructor
  · rintro ⟨locked, hacquire, hrest⟩
    obtain ⟨hunlocked, rfl⟩ := acquire_eq_ok.mp hacquire
    obtain ⟨table, hpages, hrest⟩ := bind_eq_ok.mp hrest
    obtain ⟨hroom, rfl⟩ := (forPages_eq_ok hs).mp hpages
    refine ⟨hunlocked, hroom, (Except.ok.inj hrest).symm.trans ?_⟩
    unfold release onPages
    rw [hunlocked]
  · rintro ⟨hunlocked, hroom, rfl⟩
    refine ⟨_, acquire_eq_ok.mpr ⟨hunlocked, rfl⟩, bind_eq_ok.mpr
      ⟨_, (forPages_eq_ok hs).mpr ⟨hroom, rfl⟩, ?_⟩⟩
    unfold release onPages
    rw [hunlocked]
    rfl

end

end Commands

/-- The table is still well formed, and nothing outside the slots of segment `s` has changed. -/
structure StaysInside (kernel : Kernel) (s : ℕ) (kernel' : Kernel) : Prop where
  wellFormed : kernel'.shmpgtable.WellFormed
  others : ∀ i, i < s ∨ s + kernel.shmpgtable.pagesAt s ≤ i →
    kernel'.shmpgtable.shmSegs i = kernel.shmpgtable.shmSegs i
  last : kernel'.shmpgtable.lastShmSegIndex = kernel.shmpgtable.lastShmSegIndex
  kmem : kernel'.kmem = kernel.kmem
  proc : kernel'.proc = kernel.proc

section Inside

variable {kernel : Kernel} {table : ShmPgTable} {s : ℕ} {buf : ShmidDs}

theorem Coherent.inUse (h : Coherent table) (hs : s ∈ table.bases) : table.InUse s s :=
  ⟨rfl, h.tiling.lt_bound hs, h.isLive_of_mem hs⟩

theorem Coherent.pagesAt_eq (h : Coherent table) :
    ∀ t ∈ table.bases, ∀ i, t ≤ i → i < t + table.pagesAt t → table.pagesAt i = table.pagesAt t :=
  fun t ht i hti hlt ↦ (h.agree t ht i hti hlt).pages

/-- A buffer with another number of pages would shift the segments behind it. -/
theorem Coherent.pages_of_set (h : Coherent table) (hs : s ∈ table.bases) (hpos : 0 < buf.pages)
    (h' : Coherent (table.onPages s buf.pages buf.set))
    (hothers : ∀ i, i < s ∨ s + table.pagesAt s ≤ i →
      (table.onPages s buf.pages buf.set).shmSegs i = table.shmSegs i) :
    buf.pages = table.pagesAt s ∧ buf.shmPerm.key ≠ -1 := by
  have hlt := h.tiling.lt_bound hs
  have hold := h.tiling.positive s hs
  have hin (i : ℕ) (hsi : s ≤ i) (hend : i < s + buf.pages) :
      (table.onPages s buf.pages buf.set).shmSegs i = buf.set (table.shmSegs i) :=
    onPages_of_mem hsi hend
  have hlive : (table.onPages s buf.pages buf.set).isLive s = true := by
    by_contra hdead
    have hsegsz := (h'.vacant s hlt (Bool.not_eq_true _ ▸ hdead)).segsz
    rw [hin s le_rfl (by omega)] at hsegsz
    have hzero : buf.pages = 0 := by
      unfold ShmidDs.pages
      rw [show buf.shmSegsz = 0 from hsegsz, Nat.zero_div]
    omega
  have hkey : buf.shmPerm.key ≠ -1 := by
    rw [isLive_iff, hin s le_rfl (by omega)] at hlive
    exact hlive
  have hsame (i : ℕ) (hslot : (table.onPages s buf.pages buf.set).shmSegs i = table.shmSegs i) :
      (table.onPages s buf.pages buf.set).isLive i = table.isLive i ∧
        (table.onPages s buf.pages buf.set).pagesAt i = table.pagesAt i := by
    unfold isLive pagesAt
    rw [hslot]
    exact ⟨rfl, rfl⟩
  have hbehind (i : ℕ) (hi : s + buf.pages ≤ i) := hsame i (onPages_of_not_mem (Or.inr hi))
  have hpages : (table.onPages s buf.pages buf.set).pagesAt s = buf.pages := by
    rw [pagesAt, hin s le_rfl (by omega)]
    rfl
  have hs' :=
    h.tiling.mem_of_same_before h'.tiling hs hlive fun j hj ↦ hsame j (hothers j (Or.inl hj))
  refine ⟨?_, hkey⟩
  rcases Nat.lt_trichotomy buf.pages (table.pagesAt s) with hless | heq | hmore
  · exfalso
    have hend := h.tiling.inside s hs
    have hfilled := h.tiling.filled s hs (s + buf.pages) (by omega) (by omega)
    rw [← (hbehind _ le_rfl).1] at hfilled
    have hnext := h'.tiling.next_mem hs' (hpages.symm ▸ lt_of_lt_of_le (by omega) hend)
      (hpages.symm ▸ hfilled)
    rw [hpages] at hnext
    have hwidth : (table.onPages s buf.pages buf.set).pagesAt (s + buf.pages) = table.pagesAt s := by
      rw [(hbehind _ le_rfl).2, h.pagesAt_eq s hs _ (by omega) (by omega)]
    exact h.tiling.not_shifted h'.tiling h.pagesAt_eq h'.pagesAt_eq hs rfl hnext hwidth (by omega)
      (by omega) hbehind
  · exact heq
  · exfalso
    have hend := h'.tiling.inside s hs'
    rw [hpages] at hend
    -- the slots behind the segment must have been like the buffer already
    have hafter := hsame (s + table.pagesAt s) (hothers _ (Or.inr le_rfl))
    have hfilled := h'.tiling.filled s hs' (s + table.pagesAt s) (by omega) (by omega)
    rw [hafter.1] at hfilled
    have hnext := h.tiling.next_mem hs (lt_of_lt_of_le (by omega) hend) hfilled
    have hwidth : table.pagesAt (s + table.pagesAt s) = buf.pages := by
      rw [← hafter.2, h'.pagesAt_eq s hs' _ (by omega) (by omega), hpages]
    have hinside := h.tiling.inside _ hnext
    rw [hwidth] at hinside
    have hpast := h.tiling.filled _ hnext (s + buf.pages) (by omega) (by omega)
    rw [← (hbehind _ le_rfl).1] at hpast
    have hlater := h'.tiling.next_mem hs' (hpages.symm ▸ lt_of_lt_of_le (by omega) hinside)
      (hpages.symm ▸ hpast)
    rw [hpages] at hlater
    have hwidth' : (table.onPages s buf.pages buf.set).pagesAt (s + buf.pages) = buf.pages := by
      rw [(hbehind _ le_rfl).2, h.pagesAt_eq _ hnext _ (by omega) (by omega), hwidth]
    exact h.tiling.not_shifted h'.tiling h.pagesAt_eq h'.pagesAt_eq hnext hwidth hlater hwidth'
      (by omega) (by omega) hbehind

/-- The buffers with which `IPC_SET` stays inside segment `s`. -/
theorem set_staysInside_iff (htable : kernel.shmpgtable.WellFormed)
    (hs : s ∈ kernel.shmpgtable.bases) :
    (∃ kernel' result buf', shmctlHelper kernel s ipcSet buf = .ok (kernel', result, buf') ∧
        StaysInside kernel s kernel') ↔
      (kernel.shmpgtable.shmSegs s).shmPerm.mode &&& shmR ≠ 0 ∨ buf.pages = 0 ∨
        buf.pages = kernel.shmpgtable.pagesAt s ∧ buf.shmPerm.key ≠ -1 := by
  have huse := htable.coherent.inUse hs
  have hroom := htable.coherent.room hs
  by_cases hmode : (kernel.shmpgtable.shmSegs s).shmPerm.mode &&& shmR = 0
  · have hcall (outcome) := @ShmPgTable.InUse.shmctl_set_eq_ok _ _ _ buf htable.sane.last_lt
      huse hmode outcome
    constructor
    · rintro ⟨kernel', result, buf', hset, hinside⟩
      obtain ⟨-, -, houtcome⟩ := (hcall _).mp hset
      cases houtcome
      by_cases hzero : buf.pages = 0
      · exact Or.inr (Or.inl hzero)
      · exact Or.inr (Or.inr (htable.coherent.pages_of_set hs (Nat.pos_of_ne_zero hzero)
          hinside.wellFormed.coherent hinside.others))
    · rintro (hrefused | hzero | ⟨hpages, hkey⟩)
      · exact absurd hmode hrefused
      · refine ⟨_, _, _, (hcall _).mpr ⟨htable.unlocked, by omega, rfl⟩, ?_⟩
        rw [hzero, onPages_zero]
        exact ⟨htable, fun _ _ ↦ rfl, rfl, rfl, rfl⟩
      · refine ⟨_, _, _, (hcall _).mpr ⟨htable.unlocked, by omega, rfl⟩, ?_⟩
        rw [hpages]
        refine ⟨⟨htable.sane.onPages fun slot hslot ↦ ⟨Or.inr ?_, hslot.aligned, hslot.below⟩,
          (htable.coherent.onPages hs (KeepsSegment.set hpages hkey)).1, htable.unlocked⟩,
          fun i hout ↦ onPages_of_not_mem hout, rfl, rfl, rfl⟩
        have hpos := htable.coherent.tiling.positive s hs
        have hsame : (buf.set slot).pages = kernel.shmpgtable.pagesAt s := hpages
        omega
  · refine iff_of_true ?_ (Or.inl hmode)
    rw [huse.shmctl_set htable.sane.last_lt, if_pos hmode]
    exact ⟨_, _, _, rfl, htable, fun _ _ ↦ rfl, rfl, rfl, rfl⟩

/-- `IPC_SET` stays in the table, and if it returns zero `IPC_STAT` finds the permissions of the
buffer. -/
def ReadsBack (kernel : Kernel) (s : ℕ) (buf : ShmidDs) : Prop :=
  ∃ kernel' result buf', shmctlHelper kernel s ipcSet buf = .ok (kernel', result, buf') ∧
    (result = 0 → ∀ out, ∃ found,
      shmctlHelper kernel' s ipcStat out = .ok (kernel', 0, found) ∧ found.shmPerm = buf.shmPerm)

theorem set_readsBack_iff (htable : kernel.shmpgtable.WellFormed)
    (hs : s ∈ kernel.shmpgtable.bases) :
    ReadsBack kernel s buf ↔ (kernel.shmpgtable.shmSegs s).shmPerm.mode &&& shmR ≠ 0 ∨
        buf.pages = 0 ∧ (kernel.shmpgtable.shmSegs s).shmPerm = buf.shmPerm ∨
        0 < buf.pages ∧ s + buf.pages ≤ shmMaxSeg ∧ buf.shmPerm.key ≠ -1 := by
  have huse := htable.coherent.inUse hs
  have hlast := htable.sane.last_lt
  by_cases hmode : (kernel.shmpgtable.shmSegs s).shmPerm.mode &&& shmR = 0
  · have hcall (outcome) := @ShmPgTable.InUse.shmctl_set_eq_ok _ _ _ buf hlast huse hmode outcome
    have hreads : ReadsBack kernel s buf ↔ s + buf.pages ≤ shmMaxSeg ∧
        (kernel.shmpgtable.onPages s buf.pages buf.set).isLive s = true ∧
        ((kernel.shmpgtable.onPages s buf.pages buf.set).shmSegs s).shmPerm = buf.shmPerm := by
      have hstat := @shmctl_stat_perm_iff
        { kernel with shmpgtable := kernel.shmpgtable.onPages s buf.pages buf.set } s
        (by exact hlast) (by exact huse.bound) buf.shmPerm
      constructor
      · rintro ⟨kernel', result, buf', hset, hfound⟩
        obtain ⟨-, hroom, houtcome⟩ := (hcall _).mp hset
        cases houtcome
        exact ⟨hroom, hstat.mp (hfound rfl)⟩
      · rintro ⟨hroom, hfound⟩
        exact ⟨_, _, _, (hcall _).mpr ⟨htable.unlocked, hroom, rfl⟩, fun _ ↦ hstat.mpr hfound⟩
    rw [hreads, or_iff_right (not_not.mpr hmode)]
    rcases Nat.eq_zero_or_pos buf.pages with hzero | hpos
    · have hbound := le_last huse.bound
      rw [hzero, onPages_zero, and_iff_right huse.live, and_iff_right (by omega), and_iff_right rfl,
        or_iff_left fun h ↦ absurd h.1 (lt_irrefl 0)]
    · have hslot : (kernel.shmpgtable.onPages s buf.pages buf.set).shmSegs s =
          buf.set (kernel.shmpgtable.shmSegs s) :=
        onPages_of_mem le_rfl (by omega)
      have hperm : ((kernel.shmpgtable.onPages s buf.pages buf.set).shmSegs s).shmPerm =
          buf.shmPerm := by
        rw [hslot]
        rfl
      rw [isLive_iff, hperm, and_iff_left rfl, and_iff_right hpos,
        or_iff_right fun h ↦ absurd h.1 hpos.ne']
  · refine iff_of_true ⟨kernel, -1, buf, ?_, fun hzero ↦ absurd hzero (by decide)⟩ (Or.inl hmode)
    rw [huse.shmctl_set hlast, if_pos hmode]

/-- `IPC_SET` with the buffer that `IPC_STAT` has filled changes nothing. -/
def PutsBack (kernel : Kernel) (shmid : ℤ) (buf : ShmidDs) : Prop :=
  ∃ code found, shmctlHelper kernel shmid ipcStat buf = .ok (kernel, code, found) ∧
    ∃ code' buf', shmctlHelper kernel shmid ipcSet found = .ok (kernel, code', buf')

/-- The slots that `IPC_SET` would write from the description in slot `s` are in the table and have
this description already. -/
structure ShmPgTable.Uniform (table : ShmPgTable) (s : ℕ) : Prop where
  unlocked : table.locked = false
  inTable : s + table.pagesAt s ≤ shmMaxSeg
  same : ∀ i, s ≤ i → i < s + table.pagesAt s →
    (table.shmSegs s).set (table.shmSegs i) = table.shmSegs i

theorem putsBack_iff {shmid : ℤ} (hlast : kernel.shmpgtable.lastShmSegIndex < shmMaxSeg) :
    PutsBack kernel shmid buf ↔ ∀ s, kernel.shmpgtable.InUse shmid s →
      (kernel.shmpgtable.shmSegs s).shmPerm.mode &&& shmR ≠ 0 ∨ kernel.shmpgtable.Uniform s := by
  by_cases hfound : ∃ s, kernel.shmpgtable.InUse shmid s
  · obtain ⟨s, huse⟩ := hfound
    have honly : (∀ t, kernel.shmpgtable.InUse shmid t →
        (kernel.shmpgtable.shmSegs t).shmPerm.mode &&& shmR ≠ 0 ∨ kernel.shmpgtable.Uniform t) ↔
        (kernel.shmpgtable.shmSegs s).shmPerm.mode &&& shmR ≠ 0 ∨ kernel.shmpgtable.Uniform s := by
      constructor
      · intro h
        exact h s huse
      · intro h t ht
        cases Int.ofNat_inj.mp (huse.id.symm.trans ht.id)
        exact h
    rw [honly]
    by_cases hmode : (kernel.shmpgtable.shmSegs s).shmPerm.mode &&& shmR = 0
    · rw [or_iff_right (not_not.mpr hmode)]
      have hcall (outcome) := @ShmPgTable.InUse.shmctl_set_eq_ok _ _ _
        ((kernel.shmpgtable.shmSegs s).stat buf) hlast huse hmode outcome
      constructor
      · rintro ⟨code, found, hstat, code', buf', hset⟩
        rw [huse.shmctl_stat hlast] at hstat
        cases hstat
        obtain ⟨hunlocked, hroom, houtcome⟩ := (hcall _).mp hset
        have hsame := congrArg (fun outcome ↦ outcome.1.shmpgtable) houtcome
        exact ⟨hunlocked, hroom, onPages_eq_self_iff.mp hsame.symm⟩
      · intro h
        refine ⟨_, _, huse.shmctl_stat hlast, 0, (kernel.shmpgtable.shmSegs s).stat buf,
          (hcall _).mpr ⟨h.unlocked, h.inTable, ?_⟩⟩
        have hsame : kernel.shmpgtable.onPages s ((kernel.shmpgtable.shmSegs s).stat buf).pages
            ((kernel.shmpgtable.shmSegs s).stat buf).set = kernel.shmpgtable :=
          onPages_eq_self_iff.mpr h.same
        rw [hsame]
    · refine iff_of_true ⟨_, _, huse.shmctl_stat hlast, -1,
        (kernel.shmpgtable.shmSegs s).stat buf, ?_⟩ (Or.inl hmode)
      rw [huse.shmctl_set hlast, if_pos hmode]
  · obtain ⟨code, -, hrefused⟩ := shmctlHelper_refuses hlast hfound
    exact iff_of_true ⟨code, buf, hrefused _ _, code, buf, hrefused _ _⟩
      fun s huse ↦ absurd ⟨s, huse⟩ hfound

end Inside

/-- When `IPC_SET` stays inside the segment, when what it has set is read back, and, in every
reachable state, when a buffer can be put back without a change. -/
theorem shmctl_set_iff {kernel : Kernel} {buf : ShmidDs} :
    (∀ s : ℕ, kernel.shmpgtable.WellFormed → s ∈ kernel.shmpgtable.bases →
        ((∃ kernel' result buf', shmctlHelper kernel s ipcSet buf = .ok (kernel', result, buf') ∧
            StaysInside kernel s kernel') ↔
          (kernel.shmpgtable.shmSegs s).shmPerm.mode &&& shmR ≠ 0 ∨ buf.pages = 0 ∨
            buf.pages = kernel.shmpgtable.pagesAt s ∧ buf.shmPerm.key ≠ -1) ∧
        (ReadsBack kernel s buf ↔ (kernel.shmpgtable.shmSegs s).shmPerm.mode &&& shmR ≠ 0 ∨
            buf.pages = 0 ∧ (kernel.shmpgtable.shmSegs s).shmPerm = buf.shmPerm ∨
            0 < buf.pages ∧ s + buf.pages ≤ shmMaxSeg ∧ buf.shmPerm.key ≠ -1)) ∧
    ∀ (start : Kernel) (shmid : ℤ), Boot start → Runs step (fun _ _ ↦ True) start kernel →
        (PutsBack kernel shmid buf ↔ ∀ s, kernel.shmpgtable.InUse shmid s →
          (kernel.shmpgtable.shmSegs s).shmPerm.mode &&& shmR ≠ 0 ∨
            kernel.shmpgtable.Uniform s) := by
  constructor
  · intro s htable hs
    exact ⟨set_staysInside_iff htable hs, set_readsBack_iff htable hs⟩
  · intro start shmid hboot hrun
    exact putsBack_iff (hboot.sane_of_runs hrun).table.last_lt

/-- A buffer that claims two pages for a segment of one. -/
def twoPagesBuf : ShmidDs := { ShmidDs.zero with shmPerm := ⟨5, 0⟩, shmSegsz := 8192 }

/-- The buffer is copied over the next segment. -/
theorem set_overwrites_next_segment : ∃ kernel kernel' buf',
    kernel.shmpgtable.WellFormed ∧ 0 ∈ kernel.shmpgtable.bases ∧ kernel.shmpgtable.pagesAt 0 = 1 ∧
      1 ∈ kernel.shmpgtable.bases ∧ (kernel.shmpgtable.shmSegs 1).shmPerm.key = 6 ∧
      shmctlHelper kernel 0 ipcSet twoPagesBuf = .ok (kernel', 0, buf') ∧
      (kernel'.shmpgtable.shmSegs 1).shmPerm.key = 5 := by
  obtain ⟨kernel, hrun, ⟨hunlocked, hstate⟩, kernel', ⟨result, buf'⟩, hset, rfl, hchanged⟩ :
      ∃ kernel, Runs step Structured (startKernel 3) kernel ∧
        (kernel.shmpgtable.locked = false ∧ 0 ∈ kernel.shmpgtable.bases ∧
          kernel.shmpgtable.pagesAt 0 = 1 ∧ 1 ∈ kernel.shmpgtable.bases ∧
          (kernel.shmpgtable.shmSegs 1).shmPerm.key = 6) ∧
        ∃ kernel' outcome, shmctlHelper kernel 0 ipcSet twoPagesBuf = .ok (kernel', outcome) ∧
          outcome.1 = 0 ∧ (kernel'.shmpgtable.shmSegs 1).shmPerm.key = 5 := by
    apply Runs.of_labels [startLabel (.shmget 5 4096 ipcCreat), startLabel (.shmget 6 4096 ipcCreat)]
    decide +kernel
  obtain ⟨hbase, hpages, hnext, hkey⟩ := hstate
  exact ⟨kernel, kernel', buf', ((startKernel_boot _).intact_of_runs hrun).wellFormed hunlocked,
    hbase, hpages, hnext, hkey, hset, hchanged⟩

/-- A buffer of the length of the segment, with a new mode. -/
def onePageBuf : ShmidDs := { ShmidDs.zero with shmPerm := ⟨5, shmW⟩, shmSegsz := 4096 }

theorem set_staysInside_one_page : ∃ kernel, Runs step (fun _ _ ↦ True) (startKernel 3) kernel ∧
      0 ∈ kernel.shmpgtable.bases ∧
      (∃ kernel' result buf', shmctlHelper kernel 0 ipcSet onePageBuf = .ok (kernel', result, buf') ∧
        StaysInside kernel 0 kernel') ∧
      ReadsBack kernel 0 onePageBuf ∧ PutsBack kernel 0 ShmidDs.zero := by
  obtain ⟨kernel, hrun, hunlocked, hbase, hpages⟩ :
      ∃ kernel, Runs step Structured (startKernel 3) kernel ∧
        kernel.shmpgtable.locked = false ∧ 0 ∈ kernel.shmpgtable.bases ∧
        kernel.shmpgtable.pagesAt 0 = 1 := by
    apply Runs.of_labels [startLabel (.shmget 5 4096 ipcCreat)]
    decide +kernel
  have htable := ((startKernel_boot _).intact_of_runs hrun).wellFormed hunlocked
  have hreachable := hrun.mono fun _ _ _ ↦ trivial
  obtain ⟨hinside, hreads⟩ := (@shmctl_set_iff kernel onePageBuf).1 0 htable hbase
  have hputs := (@shmctl_set_iff kernel ShmidDs.zero).2 _ 0 (startKernel_boot _) hreachable
  refine ⟨kernel, hreachable, hbase,
    hinside.mpr (Or.inr (Or.inr ⟨by rw [hpages]; decide, by decide⟩)),
    hreads.mpr (Or.inr (Or.inr ⟨by decide, by decide, by decide⟩)),
    hputs.mpr fun s huse ↦ Or.inr ?_⟩
  have hid := huse.id
  obtain rfl : s = 0 := by omega
  refine ⟨hunlocked, by rw [hpages]; decide, fun i hi hi' ↦ ?_⟩
  rw [hpages] at hi'
  obtain rfl : i = 0 := by omega
  rfl

end Xv6Shm
