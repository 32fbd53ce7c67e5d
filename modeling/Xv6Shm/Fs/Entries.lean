import Xv6Shm.Fs.Dir
import Xv6Shm.Fs.Release

/-!
# Consistent images and the entries of directories

On a consistent image the blocks are sound, no file has holes, and the entries of directories are
numbers of inodes. The loops over the entries of a directory read them one by one and change
nothing. Allocating, changing, writing and freeing inodes keep an image consistent.
-/

namespace Xv6Shm

open Fault

/-- An entry as it is stored: the number of the inode is cut to a `ushort`. -/
def Dirent.stored (de : Dirent) : Dirent :=
  ⟨de.inum % 65536, fun k ↦ if k < dirSiz then de.name k else 0⟩

namespace Image

variable {image before after : Image} {sb : Superblock} {i : ℕ}

/-- An entry of a directory. -/
def entry (image : Image) (d e : ℕ) : Dirent :=
  .ofBytes (image.bytes d (direntSize * e) direntSize)

structure Consistent (sb : Superblock) (image : Image) : Prop where
  sound : image.Sound sb []
  limit : ∀ i, (image.dinode i).type ≠ 0 → (image.dinode i).size ≤ maxFile * bsize
  mapped : ∀ i, (image.dinode i).type ≠ 0 → image.Mapped i (image.dinode i).size
  entries : ∀ d e, (image.dinode d).type = FileType.dir.code →
    direntSize * e + direntSize ≤ (image.dinode d).size → (image.entry d e).inum < sb.ninodes

theorem entry_congr {d e : ℕ}
    (h : ∀ t < direntSize, after.byte d (direntSize * e + t) = before.byte d (direntSize * e + t)) :
    after.entry d e = before.entry d e := by
  rw [entry, entry]
  congr 1
  funext t
  unfold bytes
  split
  · exact h t ‹_›
  · rfl

theorem ofBytes_bytes (de : Dirent) :
    Dirent.ofBytes (fun t ↦ if t < direntSize then de.bytes t else 0) = de.stored := by
  unfold Dirent.ofBytes Dirent.stored
  congr 1
  · have hone : (Block.littleEndian de.inum 1).toNat = de.inum / 256 % 256 := by
      rw [Block.toNat_littleEndian, pow_one]
    have hzero : (Block.littleEndian de.inum 0).toNat = de.inum % 256 := by
      rw [Block.toNat_littleEndian, pow_zero, Nat.div_one]
    rw [Block.half]
    simp only [direntSize, Dirent.bytes, Nat.zero_add]
    norm_num
    rw [hone, hzero]
    omega
  · funext k
    have hiff : k + 2 < direntSize ↔ k < dirSiz := by
      unfold direntSize dirSiz
      omega
    simp only [hiff, Dirent.bytes]
    rw [if_neg (by omega : ¬ k + 2 < 2), Nat.add_sub_cancel]

end Image

namespace FileSys

variable {Pid : Type} {sb : Superblock} {fs fs' : FileSys Pid} {dp : ℕ}

/-- Where a loop over the entries of a directory stops that started at entry `e`. -/
structure Scanned (image : Image) (dp : ℕ) (found : Dirent → Bool) (e stop : ℕ)
    (result : Option Dirent) : Prop where
  le : e ≤ stop
  passed : ∀ l, e ≤ l → l < stop →
    direntSize * l + direntSize ≤ (image.dinode dp).size ∧ found (image.entry dp l) = false
  result : result = some (image.entry dp stop) ∧ found (image.entry dp stop) = true ∧
      direntSize * stop + direntSize ≤ (image.dinode dp).size ∨
    result = none ∧ (image.dinode dp).size ≤ direntSize * stop

section Reading

variable (hcons : (fs.image sb).Consistent sb) (hsynced : Synced sb fs dp)
  (htype : ((fs.image sb).dinode dp).type ≠ 0)

include hcons hsynced htype

variable {message : String}

theorem readEntry_ends (hmessage : (panic message).Harmless) (e : ℕ) :
    Ends Harmless (fun de fs' ↦ fs' = fs ∧ de = (fs.image sb).entry dp e ∧
      direntSize * e + direntSize ≤ ((fs.image sb).dinode dp).size)
      (readEntry sb dp (direntSize * e) message fs) := by
  unfold readEntry
  rw [ends_bind]
  refine (readi_ends hsynced htype hcons.sound (hcons.mapped dp htype) (by decide)).mono ?_
  rintro result fs' ⟨rfl, hresult, -⟩
  cases result with
  | failed => exact hmessage
  | driver major => exact hmessage
  | moved n data =>
    obtain ⟨hoff, hn, hdata⟩ := hresult n data rfl
    apply ends_ite
    · intro hfull
      refine ⟨rfl, ?_, by omega⟩
      rw [hdata, hfull, Image.entry]
    · intro _
      exact hmessage

theorem scan_ends (hmessage : (panic message).Harmless) (found : Dirent → Bool) {rounds e : ℕ}
    (hrounds : ((fs.image sb).dinode dp).size ≤ direntSize * (e + rounds)) :
    Ends Harmless (fun result fs' ↦ fs' = fs ∧ ∃ stop, result.1 = direntSize * stop ∧ Scanned
      (fs.image sb) dp found e stop result.2) (scan sb dp message found rounds (direntSize * e) fs)
      := by
  have hcopy := hsynced
  induction rounds generalizing e with
  | zero => exact ⟨rfl, e, rfl, le_rfl, fun l hl hlt ↦ absurd hlt (by omega), Or.inr ⟨rfl, hrounds⟩⟩
  | succ rounds ih =>
    rw [scan, ends_bind, ends_peek, hcopy]
    apply ends_ite
    · intro hlt
      rw [ends_bind]
      refine (readEntry_ends hcons hsynced htype hmessage e).mono ?_
      rintro de fs' ⟨rfl, rfl, hwithin⟩
      apply ends_ite
      · intro hfound
        exact ⟨rfl, e, rfl, le_rfl, fun l hl hlt ↦ absurd hlt (by omega),
          Or.inl ⟨rfl, hfound, hwithin⟩⟩
      · intro hfound
        have hnext : direntSize * e + direntSize = direntSize * (e + 1) := by rw [Nat.mul_succ]
        rw [hnext]
        refine (ih (by rw [Nat.add_right_comm, Nat.add_assoc]; exact hrounds)).mono ?_
        rintro result fs'' ⟨rfl, stop, hstop, hscan⟩
        refine ⟨rfl, stop, hstop, by have := hscan.le; omega, fun l hl hlt ↦ ?_, hscan.result⟩
        rcases hl.eq_or_lt with rfl | hl
        · exact ⟨hwithin, by simpa using hfound⟩
        · exact hscan.passed l hl hlt
    · intro hge
      exact ⟨rfl, e, rfl, le_rfl, fun l hl hlt ↦ absurd hlt (by omega), Or.inr ⟨rfl, not_lt.mp hge⟩⟩

theorem scan_all_ends (hmessage : (panic message).Harmless) (found : Dirent → Bool) (e : ℕ) :
    Ends Harmless (fun result fs' ↦ fs' = fs ∧ ∃ stop, result.1 = direntSize * stop ∧
      Scanned (fs.image sb) dp found e stop result.2)
      (scan sb dp message found (fs.inode dp).copy.size (direntSize * e) fs) := by
  apply scan_ends hcons hsynced htype hmessage
  rw [hsynced]
  unfold direntSize
  omega

theorem lookup_ends (name : Name) : Ends Harmless (fun answer fs' ↦ fs' = fs ∧
      ((fs.image sb).dinode dp).type = FileType.dir.code ∧ ∃ stop result,
        Scanned (fs.image sb) dp (Dirent.named name) 0 stop result ∧
        answer = result.map fun de ↦ (de.inum, direntSize * stop)) (lookup sb dp name fs) := by
  have hcopy := hsynced
  unfold lookup
  rw [ends_bind, ends_peek]
  apply ends_ite
  · intro _
    exact ⟨by decide, by decide⟩
  · intro hdir
    rw [ends_bind]
    refine (scan_all_ends hcons hsynced htype ⟨by decide, by decide⟩ _ 0).mono ?_
    rintro ⟨off, result⟩ fs' ⟨rfl, stop, rfl, hscan⟩
    exact ⟨rfl, hcopy ▸ not_not.mp hdir, stop, result, hscan, rfl⟩

theorem emptyEntry_ends :
    Ends Harmless (fun off fs' ↦ fs' = fs ∧ ∃ stop result, off = direntSize * stop ∧
      Scanned (fs.image sb) dp (fun de ↦ decide (de.inum = 0)) 0 stop result)
      (emptyEntry sb dp fs) := by
  unfold emptyEntry
  rw [ends_bind, ends_peek, ends_bind]
  refine (scan_all_ends hcons hsynced htype ⟨by decide, by decide⟩ _ 0).mono ?_
  rintro ⟨off, result⟩ fs' ⟨rfl, stop, rfl, hscan⟩
  exact ⟨rfl, stop, result, rfl, hscan⟩

theorem isdirempty_ends :
    Ends Harmless (fun empty fs' ↦ fs' = fs ∧ ∃ stop result, empty = Option.isNone result ∧
      Scanned (fs.image sb) dp (fun de ↦ decide (de.inum ≠ 0)) 2 stop result)
      (isdirempty sb dp fs) := by
  unfold isdirempty
  rw [ends_bind, ends_peek, ends_bind, Nat.mul_comm]
  refine (scan_all_ends hcons hsynced htype ⟨by decide, by decide⟩ _ 2).mono ?_
  rintro ⟨off, result⟩ fs' ⟨rfl, stop, -, hscan⟩
  exact ⟨rfl, stop, result, rfl, hscan⟩

end Reading

namespace Wrote

variable {i : ℕ} {src : ℕ → UInt8} {off n : ℕ}

theorem type_eq (h : Wrote sb i src off n fs fs') (j : ℕ) :
    ((fs'.image sb).dinode j).type = ((fs.image sb).dinode j).type := by
  by_cases hj : j = i
  · subst hj
    obtain ⟨addrs, haddrs⟩ := h.fields
    rw [haddrs]
  · rw [h.others j hj]

theorem size_self (h : Wrote sb i src off n fs fs') :
    ((fs'.image sb).dinode i).size = max ((fs.image sb).dinode i).size (off + n) := by
  obtain ⟨addrs, haddrs⟩ := h.fields
  rw [haddrs]

variable (hcons : (fs.image sb).Consistent sb)

include hcons

theorem entry_eq (h : Wrote sb i src off n fs fs') {d e : ℕ}
    (htype : ((fs.image sb).dinode d).type ≠ 0)
    (hwithin : direntSize * e + direntSize ≤ ((fs.image sb).dinode d).size)
    (hapart : d ≠ i ∨ direntSize * e + direntSize ≤ off ∨ off + n ≤ direntSize * e) :
    (fs'.image sb).entry d e = (fs.image sb).entry d e := by
  apply Image.entry_congr
  intro t ht
  rw [h.bytes d _ (Or.inl (hcons.mapped d htype _ (by omega))), if_neg]
  rintro ⟨rfl, hstart, hend⟩
  rcases hapart with hne | hbefore | hbehind
  · exact hne rfl
  · omega
  · omega

omit hcons in
theorem entry_self {e : ℕ} {de : Dirent}
    (h : Wrote sb i de.bytes (direntSize * e) direntSize fs fs') :
    (fs'.image sb).entry i e = de.stored := by
  rw [Image.entry, ← Image.ofBytes_bytes]
  congr 1
  funext t
  unfold Image.bytes
  split
  · rename_i ht
    rw [h.bytes i _ (Or.inr ⟨rfl, Nat.le_add_right _ _, by omega⟩),
      if_pos ⟨rfl, Nat.le_add_right _ _, by omega⟩, Nat.add_sub_cancel_left]
  · rfl

theorem consistent (h : Wrote sb i src off n fs fs') (hlimit : off + n ≤ maxFile * bsize)
    (hentries : ((fs.image sb).dinode i).type = FileType.dir.code →
      ∀ e, direntSize * e + direntSize ≤ max ((fs.image sb).dinode i).size (off + n) →
        ((fs'.image sb).entry i e).inum < sb.ninodes) :
    (fs'.image sb).Consistent sb := by
  refine ⟨h.sound, fun j hj ↦ ?_, fun j hj ↦ ?_, fun d e hd he ↦ ?_⟩
  · rw [h.type_eq j] at hj
    by_cases hji : j = i
    · subst hji
      rw [h.size_self]
      exact max_le (hcons.limit j hj) hlimit
    · rw [h.others j hji]
      exact hcons.limit j hj
  · rw [h.type_eq j] at hj
    by_cases hji : j = i
    · subst hji
      rw [h.size_self]
      exact h.mapped
    · rw [h.others j hji]
      intro t ht
      obtain ⟨b, hb⟩ := hcons.mapped j hj t ht
      rcases h.owner (j, fileSlot (t / bsize)) with hsame | ⟨hself, -⟩
      · exact ⟨b, hsame.trans hb⟩
      · exact absurd hself hji
  · rw [h.type_eq d] at hd
    by_cases hdi : d = i
    · subst hdi
      rw [h.size_self] at he
      exact hentries hd e he
    · have hallocated : ((fs.image sb).dinode d).type ≠ 0 := by
        rw [hd]
        decide
      rw [h.others d hdi] at he
      rw [h.entry_eq hcons hallocated he (Or.inl hdi)]
      exact hcons.entries d e hd he

end Wrote

theorem putEntry_ends (hsb : sb.LaidOut) (hdp : dp < sb.ninodes)
    (hcons : (fs.image sb).Consistent sb) (hsynced : Synced sb fs dp)
    (htype : ((fs.image sb).dinode dp).type ≠ 0) {message : String}
    (hmessage : (panic message).Harmless) (e : ℕ) {de : Dirent} (hde : de.inum < sb.ninodes) :
    Ends Harmless (fun _ fs' ↦ (fs'.image sb).Consistent sb ∧
      direntSize * e ≤ ((fs.image sb).dinode dp).size ∧
      Wrote sb dp de.bytes (direntSize * e) direntSize fs fs')
      (putEntry sb dp (direntSize * e) de message fs) := by
  unfold putEntry
  rw [ends_bind]
  refine (writei_ends hsb hdp hsynced htype hcons.sound (hcons.mapped dp htype) (by decide)
    fun _ _ ↦ .harmless).mono ?_
  rintro result fs' (⟨rfl, hoff, hlimit, hwrote⟩ | ⟨hfailed, rfl, -⟩)
  · refine ⟨hwrote.consistent hcons hlimit fun hdir l hl ↦ ?_, hoff, hwrote⟩
    by_cases hle : l = e
    · subst hle
      rw [hwrote.entry_self]
      exact (Nat.mod_le _ _).trans_lt hde
    · have hwithin : direntSize * l + direntSize ≤ ((fs.image sb).dinode dp).size := by
        unfold direntSize at *
        omega
      rw [hwrote.entry_eq hcons htype hwithin (by unfold direntSize; omega)]
      exact hcons.entries dp l hdir hwithin
  · cases result with
    | failed => exact hmessage
    | driver major => exact hmessage
    | moved k data => exact absurd rfl (hfailed k data)

end FileSys

namespace Image.Consistent

variable {image after : Image} {sb : Superblock} {i : ℕ}

theorem frame (h : image.Consistent sb) (hsound : after.Sound sb [])
    (hdata : after.data = image.data)
    (hsame : ∀ j, (after.dinode j).type = 0 ∨ (after.dinode j).size = 0 ∨
      ((after.dinode j).type = (image.dinode j).type ∧ (after.dinode j).size = (image.dinode j).size ∧
        ∀ k, after.owner (j, k) = image.owner (j, k))) : after.Consistent sb := by
  refine ⟨hsound, fun j hj ↦ ?_, fun j hj ↦ ?_, fun d e hd he ↦ ?_⟩
  · rcases hsame j with hfree | hempty | ⟨htype, hsize, -⟩
    · exact absurd hfree hj
    · rw [hempty]
      exact Nat.zero_le _
    · rw [hsize]
      exact h.limit j (htype ▸ hj)
  · rcases hsame j with hfree | hempty | ⟨htype, hsize, howner⟩
    · exact absurd hfree hj
    · rw [hempty]
      exact fun t ht ↦ absurd ht (Nat.not_lt_zero t)
    · rw [hsize]
      intro t ht
      obtain ⟨b, hb⟩ := h.mapped j (htype ▸ hj) t ht
      exact ⟨b, (howner _).trans hb⟩
  · rcases hsame d with hfree | hempty | ⟨htype, hsize, howner⟩
    · rw [hfree] at hd
      cases hd
    · rw [hempty] at he
      unfold direntSize at he
      omega
    · rw [hsize] at he
      have hentry : after.entry d e = image.entry d e :=
        entry_congr fun t _ ↦ by rw [byte, byte, addr, addr, howner, hdata]
      rw [hentry]
      exact h.entries d e (htype ▸ hd) he

theorem setFields (h : image.Consistent sb) {d : Dinode} (htype : d.type = (image.dinode i).type)
    (hsize : d.size = (image.dinode i).size) (haddrs : d.addrs = (image.dinode i).addrs) :
    (image.setDinode i d).Consistent sb := by
  have howner := owner_setDinode_fields htype haddrs
  refine h.frame (h.sound.setDinode fun k ↦ Dinode.held_congr htype haddrs) rfl fun j ↦
    Or.inr (Or.inr ⟨?_, ?_, fun k ↦ congrFun howner _⟩)
  · by_cases hj : j = i
    · subst hj
      rw [dinode_setDinode_self, htype]
    · rw [dinode_setDinode_of_ne hj]
  · by_cases hj : j = i
    · subst hj
      rw [dinode_setDinode_self, hsize]
    · rw [dinode_setDinode_of_ne hj]

theorem setFresh (h : image.Consistent sb) (hfree : (image.dinode i).type = 0) (type : ℕ) :
    (image.setDinode i (Dinode.fresh type)).Consistent sb := by
  have hheld : ∀ k, (Dinode.fresh type).held image.data k = image.owner (i, k) := fun k ↦
    (Dinode.held_fresh type).trans (Dinode.held_of_free hfree).symm
  refine h.frame (h.sound.setDinode hheld) rfl fun j ↦ ?_
  by_cases hj : j = i
  · subst hj
    rw [dinode_setDinode_self]
    exact Or.inr (Or.inl rfl)
  · rw [dinode_setDinode_of_ne hj]
    exact Or.inr (Or.inr ⟨rfl, rfl, fun k ↦ owner_setDinode_of_ne hj _⟩)

end Image.Consistent

theorem FileSys.Freed.consistent {Pid : Type} {sb : Superblock} {fs fs' : FileSys Pid} {i : ℕ}
    (h : Freed sb i fs fs') (hcons : (fs.image sb).Consistent sb) :
    (fs'.image sb).Consistent sb := by
  refine hcons.frame h.sound h.data fun j ↦ ?_
  by_cases hj : j = i
  · subst hj
    exact Or.inl h.type
  · have howner : ∀ k, (fs'.image sb).owner (j, k) = (fs.image sb).owner (j, k) := fun k ↦ by
      rw [Image.owner, Image.owner, h.others j hj, h.data]
    rw [h.others j hj]
    exact Or.inr (Or.inr ⟨rfl, rfl, howner⟩)

end Xv6Shm
