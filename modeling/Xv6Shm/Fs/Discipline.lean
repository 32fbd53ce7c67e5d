import Mathlib.Algebra.BigOperators.Fin
import Xv6Shm.Fs.Entries
import Xv6Shm.Fs.Sysfile

/-!
# How processes use inodes

The count of an inode in memory is the number of the references that the processes hold; a lock has
one holder, who also holds a reference; a valid copy of an inode in memory is the inode on disk; and
a file that is open for writing is not a directory. Every call changes what one process has of one
inode.
-/

namespace Xv6Shm

open FileSys Function Fault

/-- How a process holds the lock of an inode: taken by `ilock`, which loads the inode; taken by
`iput`; or taken by `iput`, which is about to free the inode. -/
inductive Hold where
  | unlocked
  | loaded (type : ℕ)
  | acquired
  | doomed
deriving DecidableEq, Repr

/-- The references that are given back before the process is idle or that it has as a reader, those
of files that are open for writing, and the lock. -/
structure Share where
  loose : ℕ
  kept : ℕ
  lock : Hold
deriving DecidableEq, Repr

def Share.refs (share : Share) : ℕ := share.loose + share.kept

/-- What a process has of each inode. -/
abbrev Token := ℕ → Share

namespace Token

def gain (token : Token) (i : ℕ) : Token :=
  update token i { token i with loose := (token i).loose + 1 }

def lose (token : Token) (i : ℕ) : Token :=
  update token i { token i with loose := (token i).loose - 1 }

def setLock (token : Token) (i : ℕ) (hold : Hold) : Token :=
  update token i { token i with lock := hold }

/-- Keep a reference and give the lock back. -/
def keep (token : Token) (i : ℕ) : Token :=
  update token i ⟨(token i).loose - 1, (token i).kept + 1, .unlocked⟩

/-- Stop keeping a reference. -/
def unkeep (token : Token) (i : ℕ) : Token :=
  update token i ⟨(token i).loose + 1, (token i).kept - 1, (token i).lock⟩

end Token

/-- The inode in memory and on disk, and what the processes have of it. -/
structure InodeHeld {Pid : Type} [Fintype Pid] (inRange : Prop) (ip : MemInode Pid) (d : Dinode)
    (share : Pid → Share) : Prop where
  refs : ip.ref = ∑ p, (share p).refs
  range : 0 < ip.ref → inRange
  holder : ∀ p, ip.holder = some p ↔ (share p).lock ≠ .unlocked
  backed : ∀ p, (share p).lock ≠ .unlocked → 0 < (share p).refs
  synced : 0 < ip.ref → ip.valid = true → ip.copy = d ∧ d.type ≠ 0
  loaded : ∀ p t, (share p).lock = .loaded t → ip.valid = true ∧ d.type = t
  doomed : ∀ p, (share p).lock = .doomed → ip.valid = true ∧ ∀ q, (share q).kept = 0
  kept : ∀ p, 0 < (share p).kept → d.type ≠ 0 ∧ d.type ≠ FileType.dir.code

namespace InodeHeld

variable {Pid : Type} [Fintype Pid] {inRange : Prop} {ip ip' : MemInode Pid} {d d' : Dinode}
  {share : Pid → Share} {p : Pid}

variable (h : InodeHeld inRange ip d share)

include h

theorem refs_le (p : Pid) : (share p).refs ≤ ip.ref := by
  rw [h.refs]
  exact Finset.single_le_sum_of_canonicallyOrdered (f := fun q ↦ (share q).refs) (Finset.mem_univ p)

theorem ref_pos (hrefs : 0 < (share p).refs) : 0 < ip.ref :=
  hrefs.trans_le (h.refs_le p)

theorem ready {t : ℕ} (hlock : (share p).lock = .loaded t) :
    inRange ∧ ip.copy = d ∧ d.type = t ∧ t ≠ 0 := by
  obtain ⟨hvalid, htype⟩ := h.loaded p t hlock
  have hpos := h.ref_pos (h.backed p (by rw [hlock]; exact Hold.noConfusion))
  obtain ⟨hcopy, hzero⟩ := h.synced hpos hvalid
  exact ⟨h.range hpos, hcopy, htype, htype ▸ hzero⟩

theorem lock_alone (hlock : (share p).lock ≠ .unlocked) : ∀ q ≠ p, (share q).lock = .unlocked := by
  intro q hq
  by_contra hother
  have hp := (h.holder p).mpr hlock
  have hq' := (h.holder q).mpr hother
  rw [hp] at hq'
  exact hq (Option.some.inj hq').symm

theorem lock_free (hnone : ip.holder = none) (q : Pid) : (share q).lock = .unlocked := by
  by_contra hlock
  rw [(h.holder q).mpr hlock] at hnone
  cases hnone

theorem rewrite {t : ℕ} (hlock : (share p).lock = .loaded t)
    (htype : d'.type = d.type) (hcopy : ip' = ip.withCopy d') : InodeHeld inRange ip' d' share := by
  obtain ⟨-, -, ht, hzero⟩ := h.ready hlock
  subst hcopy
  exact ⟨h.refs, h.range, h.holder, h.backed, fun _ _ ↦ ⟨rfl, htype ▸ ht ▸ hzero⟩,
    fun q t hq ↦ ⟨(h.loaded q t hq).1, htype.trans (h.loaded q t hq).2⟩, h.doomed,
    fun q hq ↦ htype ▸ h.kept q hq⟩

theorem allocate (hfree : d.type = 0) (d' : Dinode) : InodeHeld inRange ip d' share := by
  have hinvalid (hpos : 0 < ip.ref) : ip.valid ≠ true := fun hvalid ↦ (h.synced hpos hvalid).2 hfree
  refine ⟨h.refs, h.range, h.holder, h.backed, fun hpos hvalid ↦ absurd hvalid (hinvalid hpos),
    fun q t hq ↦ ?_, h.doomed, fun q hq ↦ absurd hfree (h.kept q hq).1⟩
  have hpos := h.ref_pos (h.backed q (by rw [hq]; exact Hold.noConfusion))
  exact absurd (h.loaded q t hq).1 (hinvalid hpos)

omit h

variable [DecidableEq Pid]

theorem sum_refs_update (share : Pid → Share) (p : Pid) (new : Share) :
    ∑ q, (update share p new q).refs + (share p).refs = ∑ q, (share q).refs + new.refs := by
  have hexchange := Cells.sum_exchange (fun q ↦ (share q).refs)
    (fun q ↦ (update share p new q).refs) (Finset.mem_univ p)
    fun q _ hq ↦ by rw [update_of_ne hq]
  rwa [update_self] at hexchange

/-- The number of references that one process has and does not keep changes, and the inode may
become invalid with its first reference. -/
theorem recount (h : InodeHeld inRange ip d share) {ref loose : ℕ} {valid : Bool}
    (href : ref + (share p).loose = ip.ref + loose) (hrange : 0 < ref → inRange)
    (hbacked : (share p).lock ≠ .unlocked → 0 < loose + (share p).kept)
    (hvalid : valid = (ip.valid && decide (0 < ip.ref))) :
    InodeHeld inRange { ip with ref := ref, valid := valid } d
      (update share p { share p with loose := loose }) := by
  have hlock (q : Pid) : (update share p { share p with loose := loose } q).lock =
      (share q).lock := by
    by_cases hq : q = p
    · subst hq
      rw [update_self]
    · rw [update_of_ne hq]
  have hkept (q : Pid) : (update share p { share p with loose := loose } q).kept =
      (share q).kept := by
    by_cases hq : q = p
    · subst hq
      rw [update_self]
    · rw [update_of_ne hq]
  have hstays {q : Pid} (hq : (share q).lock ≠ .unlocked) (hip : ip.valid = true) :
      valid = true := by
    rw [hvalid, hip, decide_eq_true (h.ref_pos (h.backed q hq))]
    rfl
  refine ⟨?_, hrange, fun q ↦ ?_, fun q hq ↦ ?_, fun _ hnew ↦ ?_, fun q t hq ↦ ?_, fun q hq ↦ ?_,
    fun q hq ↦ ?_⟩
  · have hsum := sum_refs_update share p { share p with loose := loose }
    have hold := h.refs
    simp only [Share.refs] at hsum hold ⊢
    omega
  · rw [hlock]
    exact h.holder q
  · rw [hlock] at hq
    by_cases hqp : q = p
    · subst hqp
      rw [update_self]
      exact hbacked hq
    · rw [update_of_ne hqp]
      exact h.backed q hq
  · rw [hvalid, Bool.and_eq_true, decide_eq_true_eq] at hnew
    exact h.synced hnew.2 hnew.1
  · rw [hlock] at hq
    obtain ⟨hip, htype⟩ := h.loaded q t hq
    exact ⟨hstays (by rw [hq]; exact Hold.noConfusion) hip, htype⟩
  · rw [hlock] at hq
    obtain ⟨hip, hnone⟩ := h.doomed q hq
    refine ⟨hstays (by rw [hq]; exact Hold.noConfusion) hip, fun r ↦ ?_⟩
    rw [hkept]
    exact hnone r
  · rw [hkept] at hq
    exact h.kept q hq

theorem regroup (h : InodeHeld inRange ip d share) {new : Share} (hrefs : new.refs = (share p).refs)
    (hlock : new.lock = (share p).lock) (hkept : new.kept ≤ (share p).kept) :
    InodeHeld inRange ip d (update share p new) := by
  have hsame (q : Pid) : (update share p new q).refs = (share q).refs ∧
      (update share p new q).lock = (share q).lock ∧
      (update share p new q).kept ≤ (share q).kept := by
    by_cases hq : q = p
    · subst hq
      rw [update_self]
      exact ⟨hrefs, hlock, hkept⟩
    · rw [update_of_ne hq]
      exact ⟨rfl, rfl, le_rfl⟩
  refine ⟨?_, h.range, fun q ↦ ?_, fun q hq ↦ ?_, h.synced, fun q t hq ↦ ?_, fun q hq ↦ ?_,
    fun q hq ↦ ?_⟩
  · rw [h.refs]
    exact Finset.sum_congr rfl fun q _ ↦ (hsame q).1.symm
  · rw [(hsame q).2.1]
    exact h.holder q
  · rw [(hsame q).2.1] at hq
    rw [(hsame q).1]
    exact h.backed q hq
  · rw [(hsame q).2.1] at hq
    exact h.loaded q t hq
  · rw [(hsame q).2.1] at hq
    obtain ⟨hvalid, hnone⟩ := h.doomed q hq
    exact ⟨hvalid, fun r ↦ Nat.eq_zero_of_le_zero ((hsame r).2.2.trans_eq (hnone r))⟩
  · exact h.kept q (hq.trans_le (hsame q).2.2)

theorem relock (h : InodeHeld inRange ip d share) {new : Share}
    (href : ip'.ref = ip.ref) (hrefs : new.refs = (share p).refs) (hpos : 0 < (share p).refs)
    (hholder : ip'.holder = if new.lock = .unlocked then none else some p)
    (hfree : ∀ q ≠ p, (share q).lock = .unlocked)
    (hsynced : ip'.valid = true → ip'.copy = d' ∧ d'.type ≠ 0)
    (hloaded : ∀ t, new.lock = .loaded t → ip'.valid = true ∧ d'.type = t)
    (hdoomed : new.lock = .doomed → ip'.valid = true ∧ new.kept = 0 ∧ ∀ q ≠ p, (share q).kept = 0)
    (hkept : 0 < new.kept → d'.type ≠ 0 ∧ d'.type ≠ FileType.dir.code)
    (hothers : ∀ q ≠ p, 0 < (share q).kept → d'.type ≠ 0 ∧ d'.type ≠ FileType.dir.code) :
    InodeHeld inRange ip' d' (update share p new) := by
  have hself : update share p new p = new := update_self _ _ _
  have hne (q : Pid) (hq : q ≠ p) : update share p new q = share q :=
    update_of_ne hq _ _
  refine ⟨?_, fun hnew ↦ h.range (href ▸ hnew), fun q ↦ ?_, fun q hq ↦ ?_, fun _ ↦ hsynced,
    fun q t hq ↦ ?_, fun q hq ↦ ?_, fun q hq ↦ ?_⟩
  · have hsum := sum_refs_update share p new
    have hold := h.refs
    omega
  · by_cases hq : q = p
    · subst hq
      rw [hself, hholder]
      split <;> simp_all
    · rw [hne q hq, hfree q hq, hholder]
      split <;> simp [Ne.symm hq]
  · by_cases hqp : q = p
    · subst hqp
      rw [hself, hrefs]
      exact hpos
    · rw [hne q hqp] at hq ⊢
      exact h.backed q hq
  · by_cases hqp : q = p
    · subst hqp
      rw [hself] at hq
      exact hloaded t hq
    · rw [hne q hqp, hfree q hqp] at hq
      cases hq
  · by_cases hqp : q = p
    · subst hqp
      rw [hself] at hq
      obtain ⟨hvalid, hown, hrest⟩ := hdoomed hq
      refine ⟨hvalid, fun r ↦ ?_⟩
      by_cases hr : r = q
      · rw [hr, hself, hown]
      · rw [hne r hr]
        exact hrest r hr
    · rw [hne q hqp, hfree q hqp] at hq
      cases hq
  · by_cases hqp : q = p
    · subst hqp
      rw [hself] at hq
      exact hkept hq
    · rw [hne q hqp] at hq
      exact hothers q hqp hq

end InodeHeld

variable {Pid : Type} [Fintype Pid] {sb : Superblock}

/-- What the processes have accounts for every inode, and the disk is consistent. -/
structure Disciplined (sb : Superblock) (fs : FileSys Pid) (tokens : Pid → Token) : Prop where
  disk : (fs.image sb).Consistent sb
  account : ∀ i, InodeHeld (i < sb.ninodes) (fs.inode i) ((fs.image sb).dinode i) fun p ↦ tokens p i

namespace Disciplined

variable {fs fs' : FileSys Pid} {tokens : Pid → Token} {p : Pid} {i : ℕ}

theorem of_self (h : Disciplined sb fs tokens) (hcons : (fs'.image sb).Consistent sb)
    (hothers : ∀ j ≠ i, fs'.inode j = fs.inode j ∧ (fs'.image sb).dinode j = (fs.image sb).dinode j)
    (hself : InodeHeld (i < sb.ninodes) (fs'.inode i) ((fs'.image sb).dinode i)
      fun p ↦ tokens p i) : Disciplined sb fs' tokens := by
  refine ⟨hcons, fun j ↦ ?_⟩
  by_cases hj : j = i
  · exact hj ▸ hself
  · rw [(hothers j hj).1, (hothers j hj).2]
    exact h.account j

theorem allocInode_ends (hsb : sb.LaidOut) (h : Disciplined sb fs tokens) (type : FileType) :
    Ends Harmless (fun i fs' ↦ i < sb.ninodes ∧
      ((fs'.image sb).dinode i).type = type.code ∧ Disciplined sb fs' tokens)
      (FileSys.allocInode sb type fs) := by
  refine (FileSys.allocInode_ends hsb h.disk.sound type).mono ?_
  rintro i fs' ⟨-, hi, hfree, hinode, himage, -⟩
  refine ⟨hi, ?_, h.of_self (i := i) (himage ▸ h.disk.setFresh hfree type.code)
    (fun j hj ↦ ⟨?_, ?_⟩) ?_⟩
  · rw [himage, Image.dinode_setDinode_self]
    rfl
  · rw [hinode]
  · rw [himage, Image.dinode_setDinode_of_ne hj]
  · rw [hinode]
    exact (h.account i).allocate hfree _

section Loaded

variable (hsb : sb.LaidOut) (h : Disciplined sb fs tokens) {t : ℕ}
  (hlock : (tokens p i).lock = .loaded t)

include h hlock

theorem synced : Synced sb fs i := ((h.account i).ready hlock).2.1

theorem type_eq : ((fs.image sb).dinode i).type = t := ((h.account i).ready hlock).2.2.1

theorem type_ne : ((fs.image sb).dinode i).type ≠ 0 := by
  obtain ⟨-, -, htype, hzero⟩ := (h.account i).ready hlock
  rwa [htype]

theorem lt_ninodes : i < sb.ninodes := ((h.account i).ready hlock).1

variable {off n : ℕ}

theorem of_wrote {src : ℕ → UInt8} (hcons : (fs'.image sb).Consistent sb)
    (hwrote : Wrote sb i src off n fs fs') : Disciplined sb fs' tokens := by
  obtain ⟨copy, hinode⟩ := hwrote.copy
  have hcopy : copy = (fs'.image sb).dinode i := by
    have hsynced := hwrote.synced
    rwa [Synced, hinode, update_self] at hsynced
  refine h.of_self hcons (fun j hj ↦ ⟨?_, hwrote.others j hj⟩) ?_
  · rw [hinode, update_of_ne hj]
  · rw [hinode, update_self, hcopy]
    exact (h.account i).rewrite hlock (hwrote.type_eq i) rfl

theorem lookup_ends (name : Name) :
    Ends Harmless (fun answer fs' ↦ fs' = fs ∧ ∀ inum off, answer = some (inum, off) →
      inum < sb.ninodes ∧ ∃ e, off = direntSize * e) (FileSys.lookup sb i name fs) := by
  refine (FileSys.lookup_ends h.disk (h.synced hlock) (h.type_ne hlock) name).mono ?_
  rintro answer fs' ⟨rfl, hdir, stop, result, hscan, rfl⟩
  refine ⟨rfl, fun inum off hsome ↦ ?_⟩
  rcases hscan.result with ⟨rfl, -, hwithin⟩ | ⟨rfl, -⟩
  · cases hsome
    exact ⟨h.disk.entries i stop hdir hwithin, stop, rfl⟩
  · cases hsome

theorem emptyEntry_ends : Ends Harmless (fun off fs' ↦ fs' = fs ∧ ∃ e, off = direntSize * e)
      (FileSys.emptyEntry sb i fs) := by
  refine (FileSys.emptyEntry_ends h.disk (h.synced hlock) (h.type_ne hlock)).mono ?_
  rintro off fs' ⟨rfl, stop, result, rfl, -⟩
  exact ⟨rfl, stop, rfl⟩

theorem isdirempty_ends : Ends Harmless (fun _ fs' ↦ fs' = fs) (FileSys.isdirempty sb i fs) := by
  refine (FileSys.isdirempty_ends h.disk (h.synced hlock) (h.type_ne hlock)).mono ?_
  rintro empty fs' ⟨rfl, -⟩
  rfl

theorem readi_ends (hn : n < Word.size) :
    Ends Harmless (fun _ fs' ↦ fs' = fs) (FileSys.readi sb i off n fs) := by
  refine (FileSys.readi_ends (h.synced hlock) (h.type_ne hlock) h.disk.sound
    (h.disk.mapped i (h.type_ne hlock)) hn).mono ?_
  rintro result fs' ⟨rfl, -⟩
  rfl

include hsb

theorem change_ends {allowed : Fault → Prop} {new : Dinode → Dinode}
    (hnew : ∀ d, (new d).type = d.type ∧ (new d).size = d.size ∧ (new d).addrs = d.addrs)
    (hrange : ∀ d : Dinode, d.InRange → (new d).InRange) :
    Ends allowed (fun _ fs' ↦ Disciplined sb fs' tokens) (change sb i new fs) := by
  have hcopy := h.synced hlock
  have hi := h.lt_ninodes hlock
  obtain ⟨htype, hsize, haddrs⟩ := hnew ((fs.image sb).dinode i)
  unfold change
  rw [ends_bind, ends_setCopy, hcopy]
  refine (iupdate_ends hsb hi ?_).mono ?_
  · simpa [MemInode.withCopy] using hrange _ (image_dinode_inRange fs i)
  rintro _ fs' ⟨hinode, himage⟩
  have himage' : fs'.image sb = (fs.image sb).setDinode i (new ((fs.image sb).dinode i)) := by
    rw [himage]
    simp [MemInode.withCopy]
  refine h.of_self (i := i) (himage' ▸ h.disk.setFields htype hsize haddrs) (fun j hj ↦ ⟨?_, ?_⟩) ?_
  · rw [hinode, inode_withInode, update_of_ne hj]
  · rw [himage', Image.dinode_setDinode_of_ne hj]
  · rw [hinode, inode_withInode, update_self, himage', Image.dinode_setDinode_self]
    exact (h.account i).rewrite hlock htype rfl

theorem putEntry_ends {message : String} (hmessage : (panic message).Harmless) (e : ℕ)
    {de : Dirent} (hde : de.inum < sb.ninodes) :
    Ends Harmless (fun _ fs' ↦ Disciplined sb fs' tokens)
      (FileSys.putEntry sb i (direntSize * e) de message fs) := by
  refine (FileSys.putEntry_ends hsb (h.lt_ninodes hlock) h.disk (h.synced hlock) (h.type_ne hlock)
    hmessage e hde).mono ?_
  rintro _ fs' ⟨hcons, -, hwrote⟩
  exact h.of_wrote hlock hcons hwrote

theorem writei_ends {src : ℕ → UInt8} (hn : n < Word.size) (hdir : t ≠ FileType.dir.code) :
    Ends Harmless (fun _ fs' ↦ Disciplined sb fs' tokens) (FileSys.writei sb i src off n fs) := by
  refine (FileSys.writei_ends hsb (h.lt_ninodes hlock) (h.synced hlock) (h.type_ne hlock)
    h.disk.sound (h.disk.mapped i (h.type_ne hlock)) hn fun _ _ ↦ .harmless).mono ?_
  rintro result fs' (⟨-, -, hlimit, hwrote⟩ | ⟨-, rfl, -⟩)
  · refine h.of_wrote hlock (hwrote.consistent h.disk hlimit fun hdir' ↦ ?_) hwrote
    exact absurd ((h.type_eq hlock).symm.trans hdir') hdir
  · exact h

end Loaded

variable [DecidableEq Pid]

section

variable (h : Disciplined sb fs tokens)

include h

theorem of_update {new : Share} (hcons : (fs'.image sb).Consistent sb)
    (hothers : ∀ j ≠ i, fs'.inode j = fs.inode j ∧ (fs'.image sb).dinode j = (fs.image sb).dinode j)
    (hself : InodeHeld (i < sb.ninodes) (fs'.inode i) ((fs'.image sb).dinode i)
      (update (fun q ↦ tokens q i) p new)) :
    Disciplined sb fs' (update tokens p (update (tokens p) i new)) := by
  refine ⟨hcons, fun j ↦ ?_⟩
  by_cases hj : j = i
  · subst hj
    convert hself using 2 with q
    by_cases hq : q = p
    · subst hq
      rw [update_self, update_self, update_self]
    · rw [update_of_ne hq, update_of_ne hq]
  · rw [(hothers j hj).1, (hothers j hj).2]
    convert h.account j using 2 with q
    by_cases hq : q = p
    · subst hq
      rw [update_self, update_of_ne hj]
    · rw [update_of_ne hq]

theorem of_memory {new : Share} {ip : MemInode Pid}
    (hself : InodeHeld (i < sb.ninodes) ip ((fs.image sb).dinode i)
      (update (fun q ↦ tokens q i) p new)) :
    Disciplined sb (fs.withInode i ip) (update tokens p (update (tokens p) i new)) := by
  refine h.of_update h.disk (fun j hj ↦ ⟨?_, rfl⟩) ?_
  · rw [inode_withInode, update_of_ne hj]
  · rw [inode_withInode, update_self]
    exact hself

theorem unkeep (hkept : 0 < (tokens p i).kept) :
    Disciplined sb fs (update tokens p ((tokens p).unkeep i)) := by
  refine h.of_update h.disk (fun j _ ↦ ⟨rfl, rfl⟩) ((h.account i).regroup ?_ rfl ?_)
  · unfold Share.refs
    dsimp only
    omega
  · exact Nat.sub_le _ _

theorem iget_ends (p : Pid) (hi : i < sb.ninodes) :
    Ends Harmless (fun _ fs' ↦ fs'.image sb = fs.image sb ∧
      Disciplined sb fs' (update tokens p ((tokens p).gain i))) (FileSys.iget sb i fs) := by
  have hend {ip : MemInode Pid} (hip : ip = { fs.inode i with
      ref := (fs.inode i).ref + 1, valid := (fs.inode i).valid && decide (0 < (fs.inode i).ref) }) :
      Disciplined sb (fs.withInode i ip) (update tokens p ((tokens p).gain i)) := by
    subst hip
    apply h.of_memory
    refine (h.account i).recount ?_ (fun _ ↦ hi) (fun _ ↦ ?_) rfl
    · omega
    · omega
  unfold FileSys.iget
  rw [ends_bind, ends_get]
  apply ends_ite
  · intro hpos
    rw [ends_setInode]
    exact ⟨rfl, hend (by simp [hpos])⟩
  intro hzero
  apply ends_ite
  · intro _
    exact ⟨by decide, by decide⟩
  · intro _
    rw [ends_setInode]
    exact ⟨rfl, hend (by simp [Nat.eq_zero_of_not_pos hzero])⟩

end

variable {allowed : Fault → Prop}

variable (h : Disciplined sb fs tokens)

include h

theorem idup_ends (hrefs : 0 < (tokens p i).refs) : Ends allowed (fun _ fs' ↦
      Disciplined sb fs' (update tokens p ((tokens p).gain i))) (idup i fs) := by
  have hpos := (h.account i).ref_pos hrefs
  have hsame : ({ fs.inode i with ref := (fs.inode i).ref + 1 } : MemInode Pid) = { fs.inode i with
      ref := (fs.inode i).ref + 1, valid := (fs.inode i).valid && decide (0 < (fs.inode i).ref) } := by
    rw [decide_eq_true hpos, Bool.and_true]
  unfold idup
  rw [ends_setInode, hsame]
  apply h.of_memory
  refine (h.account i).recount ?_ (fun _ ↦ (h.account i).range hpos) (fun _ ↦ ?_) rfl
  · omega
  · omega

theorem drop_ends (hloose : 0 < (tokens p i).loose) (hlock : (tokens p i).lock = .unlocked) :
    Ends allowed (fun _ fs' ↦
      Disciplined sb fs' (update tokens p ((tokens p).lose i))) (drop i fs) := by
  have hle := (h.account i).refs_le p
  have hpos : 0 < (fs.inode i).ref := by
    unfold Share.refs at hle
    omega
  have hsame : ({ fs.inode i with ref := (fs.inode i).ref - 1 } : MemInode Pid) = { fs.inode i with
      ref := (fs.inode i).ref - 1, valid := (fs.inode i).valid && decide (0 < (fs.inode i).ref) } := by
    rw [decide_eq_true hpos, Bool.and_true]
  unfold drop
  rw [ends_setInode, hsame]
  apply h.of_memory
  refine (h.account i).recount ?_ (fun _ ↦ (h.account i).range hpos) (fun hlocked ↦ ?_) rfl
  · omega
  · exact absurd hlock hlocked

theorem relock {ip : MemInode Pid} {hold : Hold} (hrefs : 0 < (tokens p i).refs)
    (href : ip.ref = (fs.inode i).ref)
    (hholder : ip.holder = if hold = .unlocked then none else some p)
    (hfree : ∀ q ≠ p, (tokens q i).lock = .unlocked) (hsynced : ip.valid = true →
      ip.copy = (fs.image sb).dinode i ∧ ((fs.image sb).dinode i).type ≠ 0)
    (hloaded : ∀ t, hold = .loaded t → ip.valid = true ∧ ((fs.image sb).dinode i).type = t)
    (hdoomed : hold = .doomed → ip.valid = true ∧ ∀ q, (tokens q i).kept = 0) :
    Disciplined sb (fs.withInode i ip) (update tokens p ((tokens p).setLock i hold)) := by
  apply h.of_memory
  refine (h.account i).relock href rfl hrefs hholder hfree hsynced hloaded (fun hdoom ↦ ?_)
    ((h.account i).kept p) fun q _ ↦ (h.account i).kept q
  obtain ⟨hvalid, hnone⟩ := hdoomed hdoom
  exact ⟨hvalid, hnone p, fun q _ ↦ hnone q⟩

theorem acquiresleep_ends (hrefs : 0 < (tokens p i).refs) :
    Ends Harmless (fun _ fs' ↦ (tokens p i).lock = .unlocked ∧
      Disciplined sb fs' (update tokens p ((tokens p).setLock i .acquired)))
      (acquiresleep p i fs) := by
  have hpos := (h.account i).ref_pos hrefs
  unfold acquiresleep
  rw [ends_bind, ends_peek]
  apply ends_ite
  · intro _
    exact ⟨by decide, by decide⟩
  · intro hnone
    rw [Bool.not_eq_true, Option.isSome_eq_false_iff, Option.isNone_iff_eq_none] at hnone
    rw [ends_setInode]
    have hfree := (h.account i).lock_free hnone
    exact ⟨hfree p, h.relock hrefs rfl rfl (fun q _ ↦ hfree q) ((h.account i).synced hpos)
      (fun _ ↦ Hold.noConfusion) Hold.noConfusion⟩

theorem releasesleep_ends (hlock : (tokens p i).lock ≠ .unlocked) : Ends allowed (fun _ fs' ↦
      Disciplined sb fs' (update tokens p ((tokens p).setLock i .unlocked)))
      (releasesleep i fs) := by
  have hrefs := (h.account i).backed p hlock
  unfold releasesleep
  rw [ends_setInode]
  exact h.relock hrefs rfl rfl ((h.account i).lock_alone hlock)
    ((h.account i).synced ((h.account i).ref_pos hrefs)) (fun _ ↦ Hold.noConfusion)
    Hold.noConfusion

theorem iunlock_eq (hlock : (tokens p i).lock ≠ .unlocked) :
    iunlock p i fs = releasesleep i fs := by
  have hpos := (h.account i).ref_pos ((h.account i).backed p hlock)
  have hholder := ((h.account i).holder p).mpr hlock
  change (if (fs.inode i).holder ≠ some p ∨ (fs.inode i).ref < 1 then _ else _ :
    Action Pid Unit) fs = _
  rw [if_neg]
  rintro (hother | hzero)
  · exact hother hholder
  · omega

theorem iunlock_keep_ends {t : ℕ} (hlock : (tokens p i).lock = .loaded t)
    (ht : t ≠ FileType.dir.code) (hloose : 0 < (tokens p i).loose) :
    Ends allowed (fun _ fs' ↦ Disciplined sb fs' (update tokens p ((tokens p).keep i)))
      (iunlock p i fs) := by
  have hlocked : (tokens p i).lock ≠ .unlocked := by
    rw [hlock]
    exact Hold.noConfusion
  have hrefs := (h.account i).backed p hlocked
  obtain ⟨-, -, htype, hzero⟩ := (h.account i).ready hlock
  rw [h.iunlock_eq hlocked]
  unfold releasesleep
  rw [ends_setInode]
  apply h.of_memory
  refine (h.account i).relock rfl ?_ hrefs rfl ((h.account i).lock_alone hlocked)
    ((h.account i).synced ((h.account i).ref_pos hrefs)) (fun _ ↦ Hold.noConfusion)
    Hold.noConfusion (fun _ ↦ htype ▸ ⟨hzero, ht⟩) fun q _ ↦ (h.account i).kept q
  unfold Share.refs
  dsimp only
  omega

/-- `ilock` loads the inode, which is not free; it is not a directory if a reference to it is
kept. -/
theorem ilock_ends (hrefs : 0 < (tokens p i).refs) :
    Ends (fun fault ↦ fault ≠ .panic "freeing free block")
      (fun _ fs' ↦ (tokens p i).lock = .unlocked ∧
        (0 < (tokens p i).kept → ((fs.image sb).dinode i).type ≠ FileType.dir.code) ∧
        Disciplined sb fs' (update tokens p
          ((tokens p).setLock i (.loaded ((fs.image sb).dinode i).type))))
      (FileSys.ilock sb p i fs) := by
  have haccount := h.account i
  have hpos := haccount.ref_pos hrefs
  refine ((FileSys.ilock_ends (haccount.range hpos) (haccount.synced hpos)).allow
    fun fault hfault ↦ hfault.1).mono ?_
  rintro _ fs' ⟨hnone, htype, rfl⟩
  have hfree := haccount.lock_free hnone
  refine ⟨hfree p, fun hkept ↦ (haccount.kept p hkept).2, ?_⟩
  exact h.relock hrefs rfl rfl (fun q _ ↦ hfree q) (fun _ ↦ ⟨rfl, htype⟩)
    (fun t ht ↦ ⟨rfl, Hold.loaded.inj ht⟩) Hold.noConfusion

/-- If `iput` finds that it has the only reference, then nobody keeps one. -/
theorem orphaned_ends (hlock : (tokens p i).lock = .acquired) (hloose : 0 < (tokens p i).loose) :
    Ends allowed (fun (last : Bool) fs' ↦ if last then
        Disciplined sb fs' (update tokens p ((tokens p).setLock i .doomed))
      else fs' = fs) (orphaned i fs) := by
  have haccount := h.account i
  have hlocked : (tokens p i).lock ≠ .unlocked := by
    rw [hlock]
    exact Hold.noConfusion
  have hrefs := haccount.backed p hlocked
  unfold orphaned
  rw [ends_bind, ends_peek, ends_pure]
  split
  · rename_i hlast
    simp only [Bool.and_eq_true, decide_eq_true_eq] at hlast
    obtain ⟨⟨hvalid, -⟩, hone⟩ := hlast
    -- the references of the other processes and those that are kept add up to none
    have hkept (q : Pid) : (tokens q i).kept = 0 := by
      have hsum := haccount.refs
      rw [hone, ← Finset.add_sum_erase _ _ (Finset.mem_univ p)] at hsum
      unfold Share.refs at hsum
      by_cases hq : q = p
      · rw [hq]
        omega
      · have hle := Finset.single_le_sum_of_canonicallyOrdered
          (f := fun q ↦ (tokens q i).loose + (tokens q i).kept)
          (Finset.mem_erase.mpr ⟨hq, Finset.mem_univ q⟩)
        omega
    have hself : fs = fs.withInode i (fs.inode i) := by
      rw [withInode, update_eq_self]
    rw [hself]
    exact h.relock hrefs rfl ((haccount.holder p).mpr hlocked) (haccount.lock_alone hlocked)
      (haccount.synced (haccount.ref_pos hrefs)) (fun _ ↦ Hold.noConfusion) fun _ ↦ ⟨hvalid, hkept⟩
  · rfl

omit h

theorem free_ends (hsb : sb.LaidOut) (h : Disciplined sb fs tokens)
    (hlock : (tokens p i).lock = .doomed) :
    Ends Harmless (fun _ fs' ↦
      Disciplined sb fs' (update tokens p ((tokens p).setLock i .acquired)))
      (free sb i fs) := by
  have haccount := h.account i
  have hlocked : (tokens p i).lock ≠ .unlocked := by
    rw [hlock]
    exact Hold.noConfusion
  have hrefs := haccount.backed p hlocked
  have hpos := haccount.ref_pos hrefs
  obtain ⟨hvalid, hkept⟩ := haccount.doomed p hlock
  obtain ⟨hsynced, htype⟩ := haccount.synced hpos hvalid
  have hview : fs.view sb i = fs.image sb := Synced.view_eq hsynced
  refine (FileSys.free_ends hsb (haccount.range hpos) (hview ▸ h.disk.sound) (hsynced ▸ htype)
    (hsynced ▸ image_dinode_inRange fs i)).mono ?_
  rintro _ fs' hfreed
  obtain ⟨copy, hinode⟩ := hfreed.inode
  refine h.of_update (hfreed.consistent h.disk) (fun j hj ↦ ⟨?_, hfreed.others j hj⟩) ?_
  · rw [hinode, update_of_ne hj]
  · rw [hinode, update_self]
    refine haccount.relock rfl rfl hrefs ((haccount.holder p).mpr hlocked)
      (haccount.lock_alone hlocked) Bool.noConfusion (fun _ ↦ Hold.noConfusion) Hold.noConfusion
      (fun hpositive ↦ ?_) fun q _ hpositive ↦ ?_
    · exact absurd (hkept p) hpositive.ne'
    · exact absurd (hkept q) hpositive.ne'

end Disciplined

end Xv6Shm
