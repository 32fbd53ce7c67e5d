import Xv6Shm.Fs.Icache

/-!
# References to inodes

The count of an entry is the number of references that processes hold, no inode has two entries in
use, and an entry is recycled only without references. `iput` frees an inode after it has read a
count of one and dropped `icache.lock`: an `iget` of the same inode in between gets a second
reference, and the inode is freed under it. This cannot happen if `iget` is called for linked inodes
only.
-/

namespace Xv6Shm

open Fallible Function IcacheState

/-- From here on `iput` has nothing more to do with the inode on disk. -/
def PutPos.isLeaving : PutPos → Bool
  | .freed | .unlocking | .dropping => true
  | .entered | .locked | .checked | .freeing | .truncated => false

/-- The process is about to truncate the inode or to give up its type. -/
def PutPos.isFreeing : PutPos → Bool
  | .freeing | .truncated => true
  | .entered | .locked | .checked | .freed | .unlocking | .dropping => false

section References

variable {Pid : Type}

/-- The references to an entry. -/
def refsTo (refs : List (Pid × Fin nInode)) (e : Fin nInode) : ℕ :=
  refs.countP fun reference ↦ decide (reference.2 = e)

theorem refsTo_cons_self (refs : List (Pid × Fin nInode)) (p : Pid) (e : Fin nInode) :
    refsTo ((p, e) :: refs) e = refsTo refs e + 1 := by
  simp [refsTo]

variable {e : Fin nInode} {refs : List (Pid × Fin nInode)} {p : Pid}

theorem refsTo_cons_of_ne (refs : List (Pid × Fin nInode)) (p : Pid) {f : Fin nInode}
    (h : f ≠ e) : refsTo ((p, e) :: refs) f = refsTo refs f := by
  simp [refsTo, h.symm]

theorem refsTo_pos (h : (p, e) ∈ refs) : 0 < refsTo refs e :=
  List.countP_pos_iff.mpr ⟨(p, e), h, by simp⟩

variable [DecidableEq Pid]

theorem refsTo_erase (h : (p, e) ∈ refs) (f : Fin nInode) :
    refsTo (refs.erase (p, e)) f = if f = e then refsTo refs f - 1 else refsTo refs f := by
  have hperm := (List.perm_cons_erase h).countP_eq fun reference ↦ decide (reference.2 = f)
  rw [List.countP_cons] at hperm
  unfold refsTo
  split
  · rename_i hf
    simp only [hf, decide_true, if_true] at hperm
    rw [hf]
    omega
  · rename_i hf
    simpa [Ne.symm hf] using hperm.symm

theorem eq_of_refsTo_eq_one {q : Pid}
    (hone : refsTo refs e = 1) (hp : (p, e) ∈ refs) (hq : (q, e) ∈ refs) : q = p := by
  by_contra hne
  have hrest := refsTo_erase hp e
  rw [if_pos rfl, hone] at hrest
  have hmem : (q, e) ∈ refs.erase (p, e) := (List.mem_erase_of_ne (by simp [hne])).mpr hq
  have := refsTo_pos hmem
  omega

end References

namespace IcacheState

variable {Pid : Type}

/-- The inode is free on disk, or `ialloc` has not yet given it out. -/
def Unclaimed (state : IcacheState Pid) (id : ℕ × ℕ) : Prop :=
  (state.disk id).type = none ∨ ∃ q, state.phase q = .allocating id

/-- The process is about to give back a reference to an inode that it need not touch any more. -/
def Leaving (state : IcacheState Pid) (e : Fin nInode) (p : Pid) : Prop :=
  ∃ pos, pos.isLeaving = true ∧ state.phase p = .putting e pos

/-- What is known of an entry from where a process is in `iput`. -/
def PutFits (state : IcacheState Pid) (p : Pid) (e : Fin nInode) : PutPos → Prop
  | .entered => True
  | .locked | .freed | .unlocking => (state.inode e).holder = some p
  | .checked => (state.inode e).holder = some p ∧ (state.inode e).valid = true ∧
      (state.inode e).copy.nlink = 0
  | .freeing | .truncated => (state.inode e).holder = some p ∧ (state.inode e).valid = true ∧
      (state.inode e).copy.nlink = 0 ∧ (state.inode e).ref = 1
  | .dropping => (state.inode e).holder ≠ some p

/-- `q` has the lock as before, and while it has it the copy of the inode. -/
def KeptFor (q : Pid) (old new : IcacheEntry Pid) : Prop :=
  (old.holder = some q ↔ new.holder = some q) ∧
    (old.holder = some q → new.valid = old.valid ∧ new.copy = old.copy)

theorem KeptFor.refl (q : Pid) (entry : IcacheEntry Pid) : KeptFor q entry entry :=
  ⟨Iff.rfl, fun _ ↦ ⟨rfl, rfl⟩⟩

theorem KeptFor.of_not {q : Pid} {old new : IcacheEntry Pid} (hold : old.holder ≠ some q)
    (hnew : new.holder ≠ some q) : KeptFor q old new :=
  ⟨by simp [hold, hnew], fun h ↦ absurd h hold⟩

variable {state state' : IcacheState Pid} {p q : Pid} {e : Fin nInode} {phase : InodePhase}

theorem PutFits.congr {pos : PutPos} (h : state.PutFits p e pos)
    (hkept : KeptFor p (state.inode e) (state'.inode e))
    (href : pos.isFreeing = true → (state'.inode e).ref = (state.inode e).ref) :
    state'.PutFits p e pos := by
  obtain ⟨hholder, hcopy⟩ := hkept
  cases pos with
  | entered => trivial
  | locked | freed | unlocking => exact hholder.mp h
  | dropping => exact fun hnew ↦ h (hholder.mpr hnew)
  | checked =>
    rw [PutFits, (hcopy h.1).1, (hcopy h.1).2]
    exact ⟨hholder.mp h.1, h.2⟩
  | freeing | truncated =>
    rw [PutFits, (hcopy h.1).1, (hcopy h.1).2, href rfl]
    exact ⟨hholder.mp h.1, h.2⟩

theorem PutFits.ref_eq_one {pos : PutPos}
    (h : state.PutFits p e pos) (hfreeing : pos.isFreeing = true) : (state.inode e).ref = 1 := by
  cases pos with
  | freeing | truncated => exact h.2.2.2
  | entered | locked | checked | freed | unlocking | dropping => cases hfreeing

/-- What is known from what a process is doing. -/
def Fits (state : IcacheState Pid) (p : Pid) : InodePhase → Prop
  | .free => True
  | .locking e => (p, e) ∈ state.refs ∧ (state.inode e).holder = some p
  | .allocating id => (state.disk id).type ≠ none ∧ (state.disk id).nlink = 0
  | .putting e pos => (p, e) ∈ state.refs ∧ state.PutFits p e pos

/-- An inode that was given out before is so still, unless it is freed or marked now. -/
theorem Unclaimed.imp {id : ℕ × ℕ} (h : state'.Unclaimed id)
    (hdisk : (state'.disk id).type = none → (state.disk id).type = none)
    (hphase : ∀ q, state'.phase q = .allocating id → state.phase q = .allocating id) :
    state.Unclaimed id :=
  Or.imp hdisk (Exists.imp hphase) h

/-- What a process knows is kept with its references, the entries that it has locked, the inode it
is allocating and the count of an entry whose inode it frees. -/
theorem Fits.congr
    (h : state.Fits p phase) (hrefs : ∀ f, (p, f) ∈ state.refs → (p, f) ∈ state'.refs)
    (hkept : ∀ f, KeptFor p (state.inode f) (state'.inode f))
    (hdisk : ∀ id, phase = .allocating id → state'.disk id = state.disk id)
    (hcount : ∀ f pos, phase = .putting f pos → pos.isFreeing = true →
      (state'.inode f).ref = (state.inode f).ref) : state'.Fits p phase := by
  cases phase with
  | free => trivial
  | locking f => exact ⟨hrefs f h.1, (hkept f).1.mp h.2⟩
  | allocating id => rwa [Fits, hdisk id rfl]
  | putting f pos => exact ⟨hrefs f h.1, h.2.congr (hkept f) (hcount f pos rfl)⟩

/-- Nobody has freed the entry's inode without having cleared `valid`. -/
def Current (state : IcacheState Pid) (e : Fin nInode) : Prop :=
  ∀ p, state.phase p ≠ .putting e .freed

/-- A step that `p` makes with the entry `e`: the other entries and processes are as before, and
what the other processes know of this one. -/
structure Changes (state : IcacheState Pid) (p : Pid) (e : Fin nInode) (next : IcacheState Pid) :
    Prop where
  inode : ∀ f ≠ e, next.inode f = state.inode f
  phase : ∀ q ≠ p, next.phase q = state.phase q
  refs : ∀ q f, q ≠ p ∨ f ≠ e → (q, f) ∈ state.refs → (q, f) ∈ next.refs
  count : ∀ f ≠ e, refsTo next.refs f = refsTo state.refs f
  disk : ∀ f ≠ e, 0 < (state.inode f).ref →
    next.disk (state.inode f).id = state.disk (state.inode f).id
  putting : ∀ f pos, state.phase p = .putting f pos → f = e
  allocating : ∀ id, next.phase p ≠ .allocating id
  kept : ∀ q ≠ p, KeptFor q (state.inode e) (next.inode e)
  claimed : ∀ q id, state.phase q = .allocating id → next.disk id = state.disk id
  freeing : ∀ q ≠ p, ∀ pos, state.phase q = .putting e pos → pos.isFreeing = true →
    (next.inode e).ref = (state.inode e).ref

namespace Changes

variable {next : IcacheState Pid} {f : Fin nInode} {id : ℕ × ℕ} {pos : PutPos}

section

variable (h : state.Changes p e next)

include h

theorem allocated (hq : next.phase q = .allocating id) : state.phase q = .allocating id := by
  rw [← h.phase q, hq]
  rintro rfl
  exact h.allocating id hq

theorem put (hf : f ≠ e) (hq : state.phase q = .putting f pos) : next.phase q = .putting f pos := by
  rw [h.phase q, hq]
  rintro rfl
  exact hf (h.putting f pos hq)

theorem current (hphase : state.phase p ≠ .putting e .freed) (hcurrent : next.Current e) :
    state.Current e := by
  intro q hq
  have hqp : q ≠ p := fun hqp ↦ hphase (hqp ▸ hq)
  exact hcurrent q ((h.phase q hqp).trans hq)

theorem fits (hq : q ≠ p) (hfits : state.Fits q (state.phase q)) : next.Fits q (next.phase q) := by
  rw [h.phase q hq]
  refine hfits.congr (fun f ↦ h.refs q f (Or.inl hq)) (fun f ↦ ?_) (h.claimed q)
    fun f pos hput hfreeing ↦ ?_
  · by_cases hf : f = e
    · exact hf ▸ h.kept q hq
    · exact h.inode f hf ▸ KeptFor.refl q _
  · by_cases hf : f = e
    · subst hf
      exact h.freeing q hq pos hput hfreeing
    · rw [h.inode f hf]

end

end Changes

section Touch

variable [DecidableEq Pid] (state : IcacheState Pid) {f : Fin nInode}
  {inode : IcacheEntry Pid} {disk : ℕ × ℕ → InodeInfo}

@[simp] theorem touch_inode_self : (state.touch p e inode disk phase).inode e = inode :=
  update_self ..

@[simp] theorem touch_phase_self : (state.touch p e inode disk phase).phase p = phase :=
  update_self ..

end Touch

/-- The invariant of the inode cache. -/
structure Counted (state : IcacheState Pid) : Prop where
  counts : ∀ e, (state.inode e).ref = refsTo state.refs e
  unique : ∀ e f, 0 < (state.inode e).ref → 0 < (state.inode f).ref →
    (state.inode e).id = (state.inode f).id → e = f
  owner : ∀ e p, (state.inode e).holder = some p → (p, e) ∈ state.refs
  fits : ∀ p, state.Fits p (state.phase p)
  alone : ∀ p q id, state.phase p = .allocating id → state.phase q = .allocating id → p = q
  synced : ∀ e, 0 < (state.inode e).ref → (state.inode e).valid = true → state.Current e →
    (state.inode e).copy = state.disk (state.inode e).id ∧ (state.inode e).copy.type ≠ none
  leaving : ∀ e, 0 < (state.inode e).ref → state.Unclaimed (state.inode e).id →
    (state.inode e).ref = 1 ∧ ∃ p, (p, e) ∈ state.refs ∧ state.Leaving e p

namespace Counted

theorem start (disk : ℕ × ℕ → InodeInfo) : (start disk : IcacheState Pid).Counted where
  counts _ := rfl
  unique _ _ h := absurd h (lt_irrefl 0)
  owner _ _ h := nomatch h
  fits _ := trivial
  alone _ _ _ h := nomatch h
  synced _ h := absurd h (lt_irrefl 0)
  leaving _ h := absurd h (lt_irrefl 0)

section

variable (h : state.Counted)

include h

theorem ref_pos (href : (p, e) ∈ state.refs) : 0 < (state.inode e).ref := by
  rw [h.counts]
  exact refsTo_pos href

theorem fits_of_phase (hphase : state.phase p = phase) : state.Fits p phase := hphase ▸ h.fits p

theorem current_of_holder (hholder : (state.inode e).holder = some p)
    (hphase : state.phase p ≠ .putting e .freed) : state.Current e := by
  intro q hq
  have hsame : q = p := Option.some.inj ((h.fits_of_phase hq).2.symm.trans hholder)
  exact hphase (hsame ▸ hq)

theorem synced_of_holder (hholder : (state.inode e).holder = some p)
    (hvalid : (state.inode e).valid = true) (hphase : state.phase p ≠ .putting e .freed) :
    (state.inode e).copy = state.disk (state.inode e).id ∧ (state.inode e).copy.type ≠ none :=
  h.synced e (h.ref_pos (h.owner e p hholder)) hvalid (h.current_of_holder hholder hphase)

/-- After a step that `p` makes with the entry `e`, only this entry has to be looked at, and what `p`
itself knows. -/
theorem of_changes {next : IcacheState Pid} (hchanges : state.Changes p e next)
    (hcount : (next.inode e).ref = refsTo next.refs e)
    (hunique : ∀ f ≠ e, 0 < (state.inode f).ref → (state.inode f).id ≠ (next.inode e).id)
    (howner : (next.inode e).holder = some p → (p, e) ∈ next.refs)
    (hself : next.Fits p (next.phase p))
    (hsynced : (next.inode e).valid = true → next.Current e →
      (next.inode e).copy = next.disk (next.inode e).id ∧ (next.inode e).copy.type ≠ none)
    (hleaving : 0 < (next.inode e).ref → next.Unclaimed (next.inode e).id →
      (next.inode e).ref = 1 ∧ ∃ q, (q, e) ∈ next.refs ∧ next.Leaving e q) :
    next.Counted where
  counts f := by
    by_cases hf : f = e
    · exact hf ▸ hcount
    · rw [hchanges.inode f hf, hchanges.count f hf, h.counts]
  unique f g hf hg hid := by
    by_cases hfe : f = e
    · by_cases hge : g = e
      · rw [hfe, hge]
      · rw [hchanges.inode g hge] at hg hid
        exact absurd (hfe ▸ hid.symm) (hunique g hge hg)
    · rw [hchanges.inode f hfe] at hf hid
      by_cases hge : g = e
      · exact absurd (hge ▸ hid) (hunique f hfe hf)
      · rw [hchanges.inode g hge] at hg hid
        exact h.unique f g hf hg hid
  owner f q hq := by
    by_cases hf : f = e
    · subst hf
      by_cases hqp : q = p
      · subst hqp
        exact howner hq
      · exact hchanges.refs q f (Or.inl hqp) (h.owner f q ((hchanges.kept q hqp).1.mpr hq))
    · rw [hchanges.inode f hf] at hq
      exact hchanges.refs q f (Or.inr hf) (h.owner f q hq)
  fits q := by
    by_cases hqp : q = p
    · exact hqp ▸ hself
    · exact hchanges.fits hqp (h.fits q)
  alone q r id hq hr := h.alone q r id (hchanges.allocated hq) (hchanges.allocated hr)
  synced f hused hvalid hcurrent := by
    by_cases hf : f = e
    · subst hf
      exact hsynced hvalid hcurrent
    · rw [hchanges.inode f hf] at hused hvalid ⊢
      rw [hchanges.disk f hf hused]
      exact h.synced f hused hvalid fun q hq ↦ hcurrent q (hchanges.put hf hq)
  leaving f hused hunclaimed := by
    by_cases hf : f = e
    · subst hf
      exact hleaving hused hunclaimed
    · rw [hchanges.inode f hf] at hused hunclaimed ⊢
      obtain ⟨hone, q, hq, pos, hpos, hphase⟩ := h.leaving f hused
        (hunclaimed.imp (hchanges.disk f hf hused ▸ id) fun _ ↦ hchanges.allocated)
      exact ⟨hone, q, hchanges.refs q f (Or.inr hf) hq, pos, hpos, hchanges.put hf hphase⟩

end

variable [DecidableEq Pid]

theorem eq_of_ref_eq_one (h : state.Counted) (hone : (state.inode e).ref = 1)
    (hp : (p, e) ∈ state.refs) (hq : (q, e) ∈ state.refs) : q = p :=
  eq_of_refsTo_eq_one ((h.counts e).symm.trans hone) hp hq

theorem not_unclaimed (h : state.Counted) (href : (p, e) ∈ state.refs)
    (hstays : ¬ state.Leaving e p) : ¬ state.Unclaimed (state.inode e).id := by
  intro hunclaimed
  obtain ⟨hone, q, hq, hleaving⟩ := h.leaving e (h.ref_pos href) hunclaimed
  rw [h.eq_of_ref_eq_one hone href hq] at hleaving
  exact hstays hleaving

theorem not_freeing (h : state.Counted) (href : (p, e) ∈ state.refs) (hqp : q ≠ p) {pos : PutPos}
    (hq : state.phase q = .putting e pos) : pos.isFreeing = false := by
  by_contra hpos
  obtain ⟨hmem, hput⟩ := h.fits_of_phase hq
  exact hqp (h.eq_of_ref_eq_one (hput.ref_eq_one (Bool.eq_true_of_not_eq_false hpos)) href hmem)

end Counted

section Touches

variable {call : IcacheCall} {inode : IcacheEntry Pid} {disk : ℕ × ℕ → InodeInfo}

theorem Touches.id_eq (h : state.Touches p e call inode disk phase) :
    inode.id = (state.inode e).id := by
  cases h <;> rfl

theorem Touches.ref_eq (h : state.Touches p e call inode disk phase) :
    inode.ref = (state.inode e).ref := by
  cases h <;> rfl

theorem Touches.ref_mem (htouch : state.Touches p e call inode disk phase) (h : state.Counted) :
    (p, e) ∈ state.refs := by
  cases htouch with
  | ilock _ href _ | iput _ href => exact href
  | iunlock _ hholder | write _ hholder _ _ => exact h.owner e p hholder
  | loaded hphase | load hphase _ | enter hphase _ | check hphase _ _ | linked hphase | last hphase _
    | shared hphase | truncate hphase | release hphase | invalidate hphase | unlock hphase =>
    exact (h.fits_of_phase hphase).1

theorem Touches.kept (htouch : state.Touches p e call inode disk phase) (h : state.Counted)
    (hq : q ≠ p) : KeptFor q (state.inode e) inode := by
  have hlocked {new : IcacheEntry Pid} (hholder : (state.inode e).holder = some p)
      (hnew : new.holder = some p ∨ new.holder = none) : KeptFor q (state.inode e) new := by
    refine .of_not (by simp [hholder, hq.symm]) ?_
    rcases hnew with hnew | hnew <;> simp [hnew, hq.symm]
  cases htouch with
  | ilock _ _ hfree | enter _ hfree => exact .of_not (by simp [hfree]) (by simp [hq.symm])
  | loaded | iput | check | linked | last | shared => exact .refl q _
  | load hphase _ =>
    have hholder := (h.fits_of_phase hphase).2
    exact hlocked hholder (Or.inl hholder)
  | iunlock _ hholder => exact hlocked hholder (Or.inr rfl)
  | write _ hholder _ _ => exact hlocked hholder (Or.inl hholder)
  | truncate hphase | release hphase =>
    have hholder := (h.fits_of_phase hphase).2.1
    exact hlocked hholder (Or.inl hholder)
  | invalidate hphase =>
    have hholder := (h.fits_of_phase hphase).2
    exact hlocked hholder (Or.inl hholder)
  | unlock hphase => exact hlocked (h.fits_of_phase hphase).2 (Or.inr rfl)

variable [DecidableEq Pid]

variable (htouch : state.Touches p e call inode disk phase) (h : state.Counted)

include htouch h

/-- The disk is as before, or the process writes the inode of the entry, which has been claimed. -/
theorem Touches.disk_eq :
    disk = state.disk ∨ disk = update state.disk (state.inode e).id inode.copy ∧
      ¬ state.Unclaimed (state.inode e).id := by
  have hclaimed := h.not_unclaimed (htouch.ref_mem h)
  cases htouch with
  | write hphase | truncate hphase | release hphase =>
    exact Or.inr ⟨rfl, hclaimed (by simp [Leaving, hphase, PutPos.isLeaving])⟩
  | ilock | loaded | load | iunlock | iput | enter | check | linked | last | shared | invalidate
    | unlock => exact Or.inl rfl

theorem Touches.changes : state.Changes p e (state.touch p e inode disk phase) where
  inode f hf := update_of_ne hf ..
  phase q hq := update_of_ne hq ..
  refs _ _ _ hmem := hmem
  count _ _ := rfl
  disk f hf hused := by
    rcases htouch.disk_eq h with rfl | ⟨rfl, -⟩
    · rfl
    · refine update_of_ne (fun hid ↦ hf (h.unique f e hused ?_ hid)) _ _
      exact h.ref_pos (htouch.ref_mem h)
  putting := by cases htouch <;> simp_all
  allocating := by cases htouch <;> simp
  kept q hq := by
    rw [touch_inode_self]
    exact htouch.kept h hq
  claimed q id hq := by
    rcases htouch.disk_eq h with rfl | ⟨rfl, hclaimed⟩
    · rfl
    · exact update_of_ne (fun hid : id = (state.inode e).id ↦ hclaimed (Or.inr ⟨q, hid ▸ hq⟩)) _ _
  freeing _ _ _ _ _ := by rw [touch_inode_self, htouch.ref_eq]

theorem Touches.fits : (state.touch p e inode disk phase).Fits p phase := by
  have href := htouch.ref_mem h
  cases htouch with
  | loaded | load | iunlock | write => trivial
  | ilock => exact ⟨href, by simp⟩
  | iput => exact ⟨href, trivial⟩
  | enter | unlock => exact ⟨href, by simp [PutFits]⟩
  | check hphase hvalid hnlink =>
    exact ⟨href, by simpa [PutFits, hvalid, hnlink] using (h.fits_of_phase hphase).2⟩
  | last hphase hone => exact ⟨href, by simpa [PutFits, hone] using (h.fits_of_phase hphase).2⟩
  | linked hphase | truncate hphase | invalidate hphase =>
    exact ⟨href, by simpa [PutFits] using (h.fits_of_phase hphase).2⟩
  | shared hphase | release hphase =>
    exact ⟨href, by simpa [PutFits] using (h.fits_of_phase hphase).2.1⟩

theorem Touches.synced
    (hvalid : inode.valid = true) (hcurrent : (state.touch p e inode disk phase).Current e) :
    inode.copy = disk inode.id ∧ inode.copy.type ≠ none := by
  have hsynced := h.synced e (h.ref_pos (htouch.ref_mem h))
  have hbefore hphase := (htouch.changes h).current hphase hcurrent
  cases htouch with
  | ilock hphase | loaded hphase | iunlock hphase | iput hphase | enter hphase | check hphase
    | linked hphase | last hphase | shared hphase | unlock hphase =>
    exact hsynced hvalid (hbefore (by simp [hphase]))
  | load _ htype => exact ⟨rfl, htype⟩
  | write hphase | truncate hphase =>
    exact ⟨by simp, (hsynced hvalid (hbefore (by simp [hphase]))).2⟩
  | release => exact absurd (touch_phase_self _) (hcurrent p)
  | invalidate => cases hvalid

/-- A process that has given up the type of an inode, or that uses an entry of an inode which is free
or being allocated, is about to give its reference back. -/
theorem Touches.leaving (hunclaimed : (state.touch p e inode disk phase).Unclaimed inode.id) :
    inode.ref = 1 ∧ (state.touch p e inode disk phase).Leaving e p := by
  have href := htouch.ref_mem h
  rw [htouch.id_eq] at hunclaimed
  have hbefore (htype : (disk (state.inode e).id).type = none →
      (state.disk (state.inode e).id).type = none) :
      (state.inode e).ref = 1 ∧ state.Leaving e p := by
    obtain ⟨hone, q, hq, hleaving⟩ := h.leaving e (h.ref_pos href)
      (hunclaimed.imp htype fun _ ↦ (htouch.changes h).allocated)
    exact ⟨hone, h.eq_of_ref_eq_one hone href hq ▸ hleaving⟩
  cases htouch with
  | release hphase =>
    exact ⟨(h.fits_of_phase hphase).2.ref_eq_one rfl, .freed, rfl, touch_phase_self _⟩
  | invalidate => exact ⟨(hbefore id).1, .unlocking, rfl, touch_phase_self _⟩
  | unlock => exact ⟨(hbefore id).1, .dropping, rfl, touch_phase_self _⟩
  | ilock hphase | loaded hphase | load hphase | iunlock hphase | iput hphase | enter hphase
    | check hphase | linked hphase | last hphase | shared hphase =>
    obtain ⟨-, pos, hpos, hleaving⟩ := hbefore id
    rw [hphase] at hleaving
    cases hleaving <;> cases hpos
  | write hphase hholder hvalid =>
    have hcopy := (h.synced_of_holder hholder hvalid (by simp [hphase])).1
    obtain ⟨-, pos, hpos, hleaving⟩ := hbefore (by simp [← hcopy])
    rw [hphase] at hleaving
    cases hleaving
  | truncate hphase =>
    obtain ⟨-, hholder, hvalid, -⟩ := h.fits_of_phase hphase
    have hcopy := (h.synced_of_holder hholder hvalid (by simp [hphase])).1
    obtain ⟨-, pos, hpos, hleaving⟩ := hbefore (by simp [← hcopy])
    rw [hphase] at hleaving
    cases hleaving
    cases hpos

theorem Touches.counted : (state.touch p e inode disk phase).Counted := by
  have href := htouch.ref_mem h
  refine h.of_changes (htouch.changes h) ?_ (fun f hf hused hid ↦ ?_) (fun _ ↦ href) ?_ ?_
    fun _ hunclaimed ↦ ?_
  · rw [touch_inode_self, htouch.ref_eq]
    exact h.counts e
  · rw [touch_inode_self, htouch.id_eq] at hid
    exact hf (h.unique f e hused (h.ref_pos href) hid)
  · rw [touch_phase_self]
    exact htouch.fits h
  · rw [touch_inode_self]
    exact htouch.synced h
  · rw [touch_inode_self] at hunclaimed ⊢
    obtain ⟨hone, hleaving⟩ := htouch.leaving h hunclaimed
    exact ⟨hone, p, href, hleaving⟩

end Touches

namespace Counted

variable [DecidableEq Pid]

theorem grow {inode : IcacheEntry Pid} (h : state.Counted)
    (hfrom : ∀ f pos, state.phase p ≠ .putting f pos) (href : inode.ref = (state.inode e).ref + 1)
    (hholder : inode.holder = (state.inode e).holder)
    (hsame : 0 < (state.inode e).ref → inode.id = (state.inode e).id ∧
      inode.valid = (state.inode e).valid ∧ inode.copy = (state.inode e).copy)
    (hfresh : (state.inode e).ref = 0 → inode.valid = false ∧
      ∀ f, 0 < (state.inode f).ref → (state.inode f).id ≠ inode.id)
    (hclaimed : (state.disk inode.id).type ≠ none ∧
      ∀ q, update state.phase p .free q ≠ .allocating inode.id)
    (hkept : ∀ q ≠ p, ∀ pos, state.phase q = .putting e pos → pos.isFreeing = false) :
    ({ state.touch p e inode state.disk .free with refs := (p, e) :: state.refs } :
      IcacheState Pid).Counted := by
  have hchanges : state.Changes p e
      { state.touch p e inode state.disk .free with refs := (p, e) :: state.refs } := by
    refine ⟨fun f hf ↦ update_of_ne hf .., fun q hq ↦ update_of_ne hq ..,
      fun _ _ _ ↦ List.mem_cons_of_mem _, fun f ↦ refsTo_cons_of_ne _ _, fun _ _ _ ↦ rfl,
      fun f pos hphase ↦ absurd hphase (hfrom f pos), by simp, fun q _ ↦ ?_, fun _ _ _ ↦ rfl,
      fun q hq pos hput hfreeing ↦ ?_⟩
    · rw [touch_inode_self, KeptFor, hholder]
      exact ⟨Iff.rfl, fun hlocked ↦ (hsame (h.ref_pos (h.owner e q hlocked))).2⟩
    · rw [hkept q hq pos hput] at hfreeing
      cases hfreeing
  refine h.of_changes hchanges ?_ (fun f hf hused hid ↦ ?_) (fun _ ↦ List.mem_cons_self)
    (by simp [Fits]) (fun hvalid hcurrent ↦ ?_) fun _ hunclaimed ↦ ?_
  · rw [touch_inode_self, refsTo_cons_self, href, h.counts]
  · rw [touch_inode_self] at hid
    rcases Nat.eq_zero_or_pos (state.inode e).ref with hzero | hpos
    · exact (hfresh hzero).2 f hused hid
    · exact hf (h.unique f e hused hpos (hid.trans (hsame hpos).1))
  · rw [touch_inode_self] at hvalid ⊢
    rcases Nat.eq_zero_or_pos (state.inode e).ref with hzero | hpos
    · rw [(hfresh hzero).1] at hvalid
      cases hvalid
    · obtain ⟨hid, hsameValid, hcopy⟩ := hsame hpos
      rw [hid, hcopy]
      exact h.synced e hpos (hsameValid ▸ hvalid) (hchanges.current (hfrom e .freed) hcurrent)
  · rw [touch_inode_self] at hunclaimed
    exact absurd hunclaimed (not_or.mpr ⟨hclaimed.1, not_exists.mpr hclaimed.2⟩)

theorem ialloc {id : ℕ × ℕ} {type : FileType} (h : state.Counted) (hphase : state.phase p = .free)
    (hfree : (state.disk id).type = none) :
    ({ state with
      disk := update state.disk id ⟨some type, 0, 0⟩
      phase := update state.phase p (.allocating id) } : IcacheState Pid).Counted := by
  have hself : update state.phase p (.allocating id) p = .allocating id :=
    update_self ..
  have hother {q : Pid} (hq : q ≠ p) :
      update state.phase p (.allocating id) q = state.phase q := update_of_ne hq ..
  have hput {q : Pid} {f : Fin nInode} {pos : PutPos} (hq : state.phase q = .putting f pos) :
      update state.phase p (.allocating id) q = .putting f pos := by
    rw [hother (by rintro rfl; simp [hphase] at hq), hq]
  -- Nobody else is allocating the inode, since it has no type.
  have hnone (q : Pid) : state.phase q ≠ .allocating id := fun hq ↦ (h.fits_of_phase hq).1 hfree
  refine ⟨h.counts, h.unique, h.owner, fun q ↦ ?_, fun q r other hq hr ↦ ?_,
    fun f hused hvalid hcurrent ↦ ?_, fun f hused hunclaimed ↦ ?_⟩
  · dsimp only
    by_cases hq : q = p
    · rw [hq, hself]
      exact ⟨by simp, by simp⟩
    · have hfits := h.fits q
      rw [hother hq]
      refine hfits.congr (fun _ hf ↦ hf) (fun _ ↦ .refl q _) (fun other hqphase ↦ ?_)
        fun _ _ _ _ ↦ rfl
      have hne : other ≠ id := fun hsame ↦ hnone q (hsame ▸ hqphase)
      exact update_of_ne hne _ _
  · dsimp only at hq hr
    by_cases hqp : q = p
    · by_cases hrp : r = p
      · rw [hqp, hrp]
      · rw [hqp, hself] at hq
        rw [hother hrp, ← InodePhase.allocating.inj hq] at hr
        exact absurd hr (hnone r)
    · rw [hother hqp] at hq
      by_cases hrp : r = p
      · rw [hrp, hself] at hr
        rw [← InodePhase.allocating.inj hr] at hq
        exact absurd hq (hnone q)
      · rw [hother hrp] at hr
        exact h.alone q r other hq hr
  · have hsynced := h.synced f hused hvalid fun q hq ↦ hcurrent q (hput hq)
    dsimp only
    have hne : (state.inode f).id ≠ id := by
      intro hid
      rw [hsynced.1, hid] at hsynced
      exact hsynced.2 hfree
    rw [update_of_ne hne]
    exact hsynced
  · have hcase : state.Unclaimed (state.inode f).id := by
      by_cases hid : (state.inode f).id = id
      · exact Or.inl (hid ▸ hfree)
      · rcases hunclaimed with hnotype | ⟨q, hq⟩
        · dsimp only at hnotype
          rw [update_of_ne hid] at hnotype
          exact Or.inl hnotype
        · dsimp only at hq
          by_cases hqp : q = p
          · rw [hqp, hself] at hq
            exact absurd (InodePhase.allocating.inj hq).symm hid
          · rw [hother hqp] at hq
            exact Or.inr ⟨q, hq⟩
    obtain ⟨hone, q, hq, pos, hpos, hputting⟩ := h.leaving f hused hcase
    exact ⟨hone, q, hq, pos, hpos, hput hputting⟩

theorem drop (h : state.Counted) (hphase : state.phase p = .putting e .dropping) :
    ({ state.touch p e { state.inode e with ref := (state.inode e).ref - 1 } state.disk .free
      with refs := state.refs.erase (p, e) } : IcacheState Pid).Counted := by
  obtain ⟨href, hunlocked⟩ := h.fits_of_phase hphase
  have hchanges : state.Changes p e
      { state.touch p e { state.inode e with ref := (state.inode e).ref - 1 } state.disk .free
        with refs := state.refs.erase (p, e) } := by
    refine ⟨fun f hf ↦ update_of_ne hf .., fun q hq ↦ update_of_ne hq .., fun q f hne hmem ↦ ?_,
      fun f hf ↦ ?_, fun _ _ _ ↦ rfl, fun f pos hput ↦ ?_, by simp, fun q _ ↦ ?_, fun _ _ _ ↦ rfl,
      fun q hq pos hput hfreeing ↦ ?_⟩
    · exact (List.mem_erase_of_ne (by simpa [imp_iff_not_or])).mpr hmem
    · rw [refsTo_erase href, if_neg hf]
    · rw [hphase] at hput
      exact (InodePhase.putting.inj hput).1.symm
    · rw [touch_inode_self]
      exact ⟨Iff.rfl, fun _ ↦ ⟨rfl, rfl⟩⟩
    · rw [h.not_freeing href hq hput] at hfreeing
      cases hfreeing
  refine h.of_changes hchanges ?_ (fun f hf hused hid ↦ ?_) (fun hlocked ↦ ?_) (by simp [Fits])
    (fun hvalid hcurrent ↦ ?_) fun hused hunclaimed ↦ ?_
  · rw [touch_inode_self, refsTo_erase href, if_pos rfl, h.counts]
  · rw [touch_inode_self] at hid
    exact hf (h.unique f e hused (h.ref_pos href) hid)
  · rw [touch_inode_self] at hlocked
    exact absurd hlocked hunlocked
  · rw [touch_inode_self] at hvalid ⊢
    exact h.synced e (h.ref_pos href) hvalid (hchanges.current (by simp [hphase]) hcurrent)
  · -- The sole reference would be gone.
    rw [touch_inode_self] at hused hunclaimed
    have hone := (h.leaving e (h.ref_pos href) (hunclaimed.imp id fun _ ↦ hchanges.allocated)).1
    rw [hone] at hused
    exact absurd hused (lt_irrefl 0)

end Counted

/-- `iget` is called for allocated inodes that have links. -/
def LinkedOnly (state : IcacheState Pid) (label : IcacheLabel Pid) : Prop :=
  match label.call with
  | .iget id => (state.disk id).type ≠ none ∧ (state.disk id).nlink ≠ 0
  | .idup _ | .ialloc _ _ | .ilock _ | .iunlock _ | .write _ _ _ | .iput _ | .goOn => True

instance (state : IcacheState Pid) (label : IcacheLabel Pid) :
    Decidable (state.LinkedOnly label) := by
  unfold LinkedOnly
  split <;> infer_instance

section Runs

variable [DecidableEq Pid] {state next : IcacheState Pid} {p : Pid} {id : ℕ × ℕ}

variable {call : IcacheCall}

/-- An inode that is given out has been claimed, and nobody is freeing it. -/
theorem Counted.get_claims (h : state.Counted) (hlinked : state.LinkedOnly ⟨p, call⟩)
    (hphase : state.phase p = .free ∧ call = .iget id ∨ state.phase p = .allocating id) :
    ((state.disk id).type ≠ none ∧ ∀ q, update state.phase p InodePhase.free q ≠ .allocating id) ∧
    ∀ q e pos, (state.inode e).id = id → state.phase q = .putting e pos →
      pos.isFreeing = false := by
  have hfreeing {q : Pid} {e : Fin nInode} {pos : PutPos} (hq : state.phase q = .putting e pos)
      (hpos : pos.isFreeing = true) :
      (q, e) ∈ state.refs ∧ (state.disk (state.inode e).id).nlink = 0 := by
    obtain ⟨href, hput⟩ := h.fits_of_phase hq
    have hput' : (state.inode e).holder = some q ∧ (state.inode e).valid = true ∧
        (state.inode e).copy.nlink = 0 ∧ (state.inode e).ref = 1 := by
      cases pos with
      | freeing | truncated => exact hput
      | entered | locked | checked | freed | unlocking | dropping => cases hpos
    rw [← (h.synced_of_holder hput'.1 hput'.2.1 (by rw [hq]; rintro ⟨⟩; cases hpos)).1]
    exact ⟨href, hput'.2.2.1⟩
  rcases hphase with ⟨-, rfl⟩ | hphase
  · obtain ⟨htype, hnlink⟩ := hlinked
    refine ⟨⟨htype, fun q hq ↦ ?_⟩, fun q e pos hid hq ↦ ?_⟩
    · by_cases hqp : q = p
      · rw [hqp, update_self] at hq
        cases hq
      · rw [update_of_ne hqp] at hq
        exact hnlink (h.fits_of_phase hq).2
    · by_contra hpos
      rw [Bool.not_eq_false] at hpos
      exact hnlink (hid ▸ (hfreeing hq hpos).2)
  · refine ⟨⟨(h.fits_of_phase hphase).1, fun q hq ↦ ?_⟩, fun q e pos hid hq ↦ ?_⟩
    · by_cases hqp : q = p
      · rw [hqp, update_self] at hq
        cases hq
      · rw [update_of_ne hqp] at hq
        exact hqp (h.alone q p id hq hphase)
    · by_contra hpos
      rw [Bool.not_eq_false] at hpos
      refine h.not_unclaimed (hfreeing hq hpos).1 ?_ (Or.inr ⟨p, hid ▸ hphase⟩)
      rintro ⟨pos', hleaving, hq'⟩
      rw [hq] at hq'
      cases hq'
      cases pos with
      | freeing | truncated => cases hleaving
      | entered | locked | checked | freed | unlocking | dropping => cases hpos

section

variable (hstep : state.Steps p call next) (h : state.Counted)

include hstep h

theorem Steps.counted (hlinked : state.LinkedOnly ⟨p, call⟩) : next.Counted := by
  cases hstep with
  | touch htouch => exact htouch.counted h
  | @get _ id inode e hphase hgot =>
    obtain ⟨hclaimed, hkept⟩ := h.get_claims hlinked hphase
    have hfrom (f : Fin nInode) (pos : PutPos) : state.phase p ≠ .putting f pos := by
      rcases hphase with ⟨hphase, -⟩ | hphase <;> simp [hphase]
    cases hgot with
    | hit hused hid =>
      exact h.grow hfrom rfl rfl (fun _ ↦ ⟨rfl, rfl, rfl⟩) (fun hzero ↦ absurd hzero hused.ne')
        (hid ▸ hclaimed) fun q _ pos ↦ hkept q e pos hid
    | recycle hnone hempty =>
      refine h.grow hfrom (by rw [hempty]) rfl (fun hused ↦ absurd hempty hused.ne')
        (fun _ ↦ ⟨rfl, hnone⟩) hclaimed fun q _ pos hq ↦ ?_
      exact absurd hempty (h.ref_pos (h.fits_of_phase hq).1).ne'
  | @idup e hphase href =>
    have hclaimed := h.not_unclaimed href (by simp [Leaving, hphase])
    rw [Unclaimed, not_or, not_exists] at hclaimed
    refine h.grow (by simp [hphase]) rfl rfl (fun _ ↦ ⟨rfl, rfl, rfl⟩)
      (fun hzero ↦ absurd hzero (h.ref_pos href).ne') ?_ fun q hq _ ↦ h.not_freeing href hq
    rwa [← hphase, update_eq_self]
  | ialloc hphase htype => exact h.ialloc hphase htype
  | drop hphase => exact h.drop hphase

/-- An entry is given to another inode only if there is no reference to it. -/
theorem Steps.refsTo_eq_zero {e : Fin nInode} (hne : (next.inode e).id ≠ (state.inode e).id) :
    refsTo state.refs e = 0 := by
  have hset {f : Fin nInode} {inode : IcacheEntry Pid}
      (hchanged : (update state.inode f inode e).id ≠ (state.inode e).id)
      (hsame : inode.id = (state.inode f).id) : False := by
    by_cases hef : e = f
    · subst hef
      rw [update_self] at hchanged
      exact hchanged hsame
    · rw [update_of_ne hef] at hchanged
      exact hchanged rfl
  cases hstep with
  | touch htouch => exact (hset hne htouch.id_eq).elim
  | @get _ id inode f hphase hgot =>
    cases hgot with
    | hit hused hid => exact (hset hne rfl).elim
    | recycle hnone hempty =>
      by_cases hef : e = f
      · rw [hef, ← h.counts, hempty]
      · dsimp only at hne
        rw [update_of_ne hef] at hne
        exact absurd rfl hne
  | idup => exact (hset hne rfl).elim
  | ialloc => exact absurd rfl hne
  | drop => exact (hset hne rfl).elim

/-- An allocated inode is truncated or loses its type only by an `iput` that has the sole reference
to it, when it has no links. -/
theorem Steps.sole_of_freed (htype : (state.disk id).type ≠ none)
    (hfreed : (next.disk id).type = none ∨ (next.disk id).size < (state.disk id).size) :
    ∃ e pos, state.phase p = .putting e pos ∧ pos.isFreeing = true ∧ (state.inode e).id = id ∧
      (p, e) ∈ state.refs ∧ refsTo state.refs e = 1 ∧ (state.disk id).nlink = 0 := by
  have hsame {disk : ℕ × ℕ → InodeInfo} (hdisk : disk id = state.disk id)
      (hfreed : (disk id).type = none ∨ (disk id).size < (state.disk id).size) : False := by
    rw [hdisk] at hfreed
    exact hfreed.elim htype (lt_irrefl _)
  have hput {e : Fin nInode} {pos : PutPos} {inode : InodeInfo} (hphase : state.phase p = .putting e pos)
      (hpos : pos.isFreeing = true) (hfits : state.PutFits p e .freeing)
      (href : (p, e) ∈ state.refs)
      (hfreed : (update state.disk (state.inode e).id inode id).type = none ∨
        (update state.disk (state.inode e).id inode id).size < (state.disk id).size) :
      ∃ e pos, state.phase p = .putting e pos ∧ pos.isFreeing = true ∧ (state.inode e).id = id ∧
        (p, e) ∈ state.refs ∧ refsTo state.refs e = 1 ∧ (state.disk id).nlink = 0 := by
    obtain ⟨hholder, hvalid, hnlink, hone⟩ := hfits
    by_cases hid : id = (state.inode e).id
    · obtain ⟨hcopy, -⟩ := h.synced_of_holder hholder hvalid (by rw [hphase]; rintro ⟨⟩; cases hpos)
      refine ⟨e, pos, hphase, hpos, hid.symm, href, by rw [← h.counts, hone], ?_⟩
      rw [hid, ← hcopy, hnlink]
    · exact (hsame (update_of_ne hid _ _) hfreed).elim
  have hfits := h.fits p
  cases hstep with
  | @touch _ e inode disk phase htouch =>
    cases htouch with
    | write hphase hholder hvalid hsize =>
      obtain ⟨hcopy, hcopytype⟩ := h.synced_of_holder hholder hvalid (by simp [hphase])
      by_cases hid : id = (state.inode e).id
      · rw [hid, ← hcopy] at hfreed
        simp only [IcacheState.touch, update_self] at hfreed
        rcases hfreed with hnone | hless
        · exact absurd hnone hcopytype
        · exact absurd hless (not_lt.mpr hsize)
      · exact (hsame (update_of_ne hid _ _) hfreed).elim
    | truncate hphase =>
      rw [hphase] at hfits
      exact hput hphase rfl hfits.2 hfits.1 hfreed
    | release hphase =>
      rw [hphase] at hfits
      exact hput hphase rfl hfits.2 hfits.1 hfreed
    | ilock | loaded | load | iunlock | iput | enter | check | linked | last | shared | invalidate
      | unlock => exact (hsame rfl hfreed).elim
  | get => exact (hsame rfl hfreed).elim
  | idup => exact (hsame rfl hfreed).elim
  | @ialloc other type hphase hnone =>
    have hid : id ≠ other := by
      rintro rfl
      exact htype hnone
    exact (hsame (update_of_ne hid _ _) hfreed).elim
  | drop => exact (hsame rfl hfreed).elim

end

end Runs

end IcacheState

/-- As long as `iget` is called for linked inodes only, the counts are the numbers of references,
and an inode is truncated and freed only by the `iput` of the sole reference to it, when it has no
links. -/
theorem inode_refs_exact {Pid : Type} [DecidableEq Pid] {disk : ℕ × ℕ → InodeInfo}
    {state : IcacheState Pid}
    (hrun : Runs step LinkedOnly (start disk) state) :
    (∀ e f, 0 < (state.inode e).ref → 0 < (state.inode f).ref →
      (state.inode e).id = (state.inode f).id → e = f) ∧
    (∀ e, (state.inode e).ref = refsTo state.refs e) ∧
    (∀ label next e, state.step label = .ok (next, ()) →
      (next.inode e).id ≠ (state.inode e).id → refsTo state.refs e = 0) ∧
    ∀ label next id, state.step label = .ok (next, ()) → (state.disk id).type ≠ none →
      (next.disk id).type = none ∨ (next.disk id).size < (state.disk id).size →
      ∃ e pos, state.phase label.proc = .putting e pos ∧ pos.isFreeing = true ∧
        (state.inode e).id = id ∧ (label.proc, e) ∈ state.refs ∧ refsTo state.refs e = 1 ∧
        (state.disk id).nlink = 0 := by
  have h : state.Counted :=
    hrun.invariant Counted (.start disk) fun _ _ _ _ hcounted hlinked hok ↦
      (step_cases hok).counted hcounted hlinked
  exact ⟨h.unique, h.counts, fun _ _ _ hok ↦ (step_cases hok).refsTo_eq_zero h,
    fun _ _ _ hok ↦ (step_cases hok).sole_of_freed h⟩

/-- The inode 5 has a link, all others are free. -/
def oneFile : ℕ × ℕ → InodeInfo := fun id ↦ if id = (1, 5) then ⟨some .file, 1, 100⟩ else ⟨none, 0, 0⟩

/-- After `iput` has read a count of one, another process gets a reference, and the inode is freed
under it. -/
theorem iput_frees_referenced : ∃ state next : IcacheState Bool,
    Runs step (fun _ _ ↦ True) (start oneFile) state ∧
    state.step ⟨false, .goOn⟩ = .ok (next, ()) ∧
    (state.disk (1, 5)).type = some .file ∧ (next.disk (1, 5)).type = none ∧
    (state.inode ⟨0, by decide⟩).id = (1, 5) ∧ refsTo state.refs ⟨0, by decide⟩ = 2 := by
  simp only [exists_and_left]
  apply Runs.of_labels [⟨false, .iget (1, 5)⟩, ⟨false, .ilock ⟨0, by decide⟩⟩, ⟨false, .goOn⟩,
    ⟨false, .write ⟨0, by decide⟩ 0 100⟩, ⟨false, .iunlock ⟨0, by decide⟩⟩,
    ⟨false, .iput ⟨0, by decide⟩⟩, ⟨false, .goOn⟩, ⟨false, .goOn⟩, ⟨false, .goOn⟩,
    ⟨true, .iget (1, 5)⟩, ⟨false, .goOn⟩]
  decide +kernel

/-- A process removes the last link of an inode, puts its sole reference and frees it. -/
theorem inode_refs_exact_freed : ∃ state : IcacheState Bool,
    Runs step LinkedOnly (start oneFile) state ∧
    state.phase false = .putting ⟨0, by decide⟩ .truncated ∧
    ∀ e, (state.inode e).ref = refsTo state.refs e := by
  obtain ⟨state, hrun, hphase⟩ : ∃ state : IcacheState Bool,
      Runs step LinkedOnly (start oneFile) state ∧
        state.phase false = .putting ⟨0, by decide⟩ .truncated := by
    apply Runs.of_labels [⟨false, .iget (1, 5)⟩, ⟨false, .ilock ⟨0, by decide⟩⟩, ⟨false, .goOn⟩,
      ⟨false, .write ⟨0, by decide⟩ 0 100⟩, ⟨false, .iunlock ⟨0, by decide⟩⟩,
      ⟨false, .iput ⟨0, by decide⟩⟩, ⟨false, .goOn⟩, ⟨false, .goOn⟩, ⟨false, .goOn⟩,
      ⟨false, .goOn⟩]
    decide +kernel
  exact ⟨state, hrun, hphase, (inode_refs_exact hrun).2.1⟩

end Xv6Shm
