import Xv6Shm.Fs.Log
import Xv6Shm.Fs.SharedOffset

/-!
# Files as byte arrays

The contents of a file are its bytes below its size. With enough free blocks and room in the log
`writei` splices the bytes that it is given into them, and `readi` returns a part of them. Enough
are as many as there are slots that the new length needs and that hold nothing: each block that a
write takes fills one of them.
-/

namespace Xv6Shm

open Image

/-- Bytes replace those of an array from `off` on, and are appended where they go beyond its end. -/
def splice (old : List UInt8) (off : ℕ) (new : List UInt8) : List UInt8 :=
  old.take off ++ new ++ old.drop (off + new.length)

theorem splice_map_range (f g : ℕ → UInt8) {size off : ℕ} (hoff : off ≤ size) (n : ℕ) :
    splice ((List.range size).map f) off ((List.range n).map g) =
      (List.range (max size (off + n))).map
        fun t ↦ if off ≤ t ∧ t < off + n then g (t - off) else f t := by
  apply List.ext_getElem
  · simp [splice]
    omega
  · intro t _ _
    simp only [splice, List.getElem_append, List.length_append, List.length_take, List.length_map,
      List.length_range, List.getElem_map, List.getElem_range, List.getElem_take,
      List.getElem_drop]
    split
    · split
      · rw [if_neg (by omega)]
      · rw [if_pos (by omega), min_eq_left hoff]
    · rw [if_neg (by omega)]
      congr 1
      omega

namespace Image

instance (len : ℕ) : DecidablePred (slotNeeded len) := fun _ ↦ Nat.decLt _ _

/-- The number of free blocks. -/
def free (sb : Superblock) (image : Image) : ℕ :=
  ((Finset.range sb.size).filter fun b ↦ image.used b = false).card

/-- The number of blocks that an inode lacks for a file of this length, among them the indirect
block. -/
def lacking (image : Image) (i len : ℕ) : ℕ :=
  ((Finset.range (maxFile + 1)).filter fun k ↦ slotNeeded len k ∧ image.owner (i, k) = none).card

/-- The bytes of a file. -/
def contents (image : Image) (i : ℕ) : List UInt8 :=
  (List.range (image.dinode i).size).map (image.byte i)

variable {image : Image} {sb : Superblock} {i len : ℕ}

theorem slotNeeded.le_maxFile {k : ℕ} (h : slotNeeded len k) (hlen : len ≤ maxFile * bsize) :
    k ≤ maxFile := by
  have hlt := lt_of_mul_lt_mul_right (h.trans_le hlen) (Nat.zero_le _)
  split at hlt <;> omega

/-- With enough free blocks the disk does not become full before the inode has the blocks that it
needs. -/
theorem Sound.tolerates {allowed : Fault → Prop} (h : image.Sound sb [])
    (hlen : len ≤ maxFile * bsize) (henough : image.lacking i len ≤ image.free sb) :
    image.Tolerates sb i allowed {k | slotNeeded len k} := by
  rintro after hspread hsame ⟨k, hk, hnone⟩ hfull
  have hempty : image.owner (i, k) = none := by
    rcases hspread.owner (i, k) with heq | hnew
    · rwa [← heq]
    · exact hnew.2
  have hplace {l : ℕ} (hl : slotNeeded len l) (hl' : image.owner (i, l) = none) :
      l ∈ (Finset.range (maxFile + 1)).filter fun k ↦
        slotNeeded len k ∧ image.owner (i, k) = none :=
    Finset.mem_filter.mpr ⟨Finset.mem_range_succ_iff.mpr (hl.le_maxFile hlen), hl, hl'⟩
  refine absurd henough (not_le.mpr ?_)
  refine h.holdings.card_lt_of_full hspread.sound.holdings (fun l ↦ (i, l)) (fun b hb ↦ ?_)
    (fun key b hb ↦ ?_) ⟨k, hplace hk hempty, hnone⟩
  · obtain ⟨hlt, hunused⟩ := Finset.mem_filter.mp hb
    rw [Finset.mem_range] at hlt
    exact ⟨h.isData_of_unused hlt hunused, hunused, hfull b hlt⟩
  · obtain ⟨j, l⟩ := key
    rcases hspread.owner (j, l) with heq | ⟨rfl, hnew⟩
    · exact Or.inl (heq ▸ hb)
    · refine Or.inr ⟨l, hplace ?_ hnew, rfl⟩
      by_contra hl
      rw [hsame l hl, hnew] at hb
      cases hb

namespace Replaced

variable {before after : Image} {src : ℕ → UInt8} {off n : ℕ}
  (h : Replaced sb i src off n before after)

include h

theorem size_eq : (after.dinode i).size = max (before.dinode i).size (off + n) := by
  obtain ⟨addrs, haddrs⟩ := h.fields
  rw [haddrs]

theorem contents_self (hmapped : before.Mapped i (before.dinode i).size)
    (hoff : off ≤ (before.dinode i).size) :
    after.contents i = splice (before.contents i) off ((List.range n).map src) := by
  unfold contents
  rw [splice_map_range _ _ hoff, h.size_eq]
  refine List.map_congr_left fun t ht ↦ ?_
  rw [List.mem_range] at ht
  rw [h.bytes i t]
  · simp only [true_and]
  · by_cases hin : off ≤ t ∧ t < off + n
    · exact Or.inr ⟨rfl, hin⟩
    · exact Or.inl (hmapped t (by omega))

end Replaced

end Image

namespace FileSys

variable {Pid : Type} {sb : Superblock} {fs fs' : FileSys Pid} {i off n : ℕ} {src : ℕ → UInt8}

theorem byte_hole {j t : ℕ} (h : (fs.image sb).owner (j, fileSlot (t / bsize)) = none) :
    (fs.image sb).byte j t = 0 := by
  have hzero : ¬ sb.IsData 0 := fun hdata ↦ hdata.pos rfl
  have hdata : (fs.image sb).data 0 = Block.zero := by
    simp [image, hzero]
  rw [Image.byte, Image.addr, h, Option.getD_none, hdata]
  rfl

theorem Wrote.replaced (h : Wrote sb i src off n fs fs') :
    Replaced sb i src off n (fs.image sb) (fs'.image sb) :=
  ⟨h.sound, h.fields, h.others, h.owner, h.mapped, h.bytes⟩

theorem Wrote.contents_of_ne (h : Wrote sb i src off n fs fs') {j : ℕ} (hj : j ≠ i) :
    (fs'.image sb).contents j = (fs.image sb).contents j := by
  unfold Image.contents
  rw [h.others j hj]
  refine List.map_congr_left fun t _ ↦ ?_
  cases hkey : (fs.image sb).owner (j, fileSlot (t / bsize)) with
  | none =>
    have hkey' := ((h.owner _).resolve_right fun hnew ↦ hj hnew.1).trans hkey
    rw [byte_hole hkey, byte_hole hkey']
  | some b => rw [h.bytes j t (Or.inl ⟨b, hkey⟩), if_neg fun hin ↦ hj hin.1]

theorem map_bytes (image : Image) {k : ℕ} (hk : k = min n ((image.dinode i).size - off)) :
    (List.range k).map (image.bytes i off k) = ((image.contents i).drop off).take n := by
  unfold Image.contents Image.bytes
  apply List.ext_getElem
  · simp [hk]
  · intro t ht ht'
    simp only [List.length_map, List.length_range] at ht
    simp [ht]

theorem readi_contents (hsynced : Synced sb fs i) (htype : ((fs.image sb).dinode i).type ≠ 0)
    (hdev : ((fs.image sb).dinode i).type ≠ FileType.dev.code)
    (hsound : (fs.image sb).Sound sb [])
    (hmapped : (fs.image sb).Mapped i ((fs.image sb).dinode i).size)
    (hoff : off < Word.size) (hn : n < Word.size) :
    if off ≤ ((fs.image sb).dinode i).size ∧ off + n < Word.size then
      ∃ k data, readi sb i off n fs = .ok (.moved k data, fs) ∧
        (List.range k).map data = (((fs.image sb).contents i).drop off).take n
    else readi sb i off n fs = .ok (.failed, fs) := by
  have hends : Ends (fun _ ↦ False) _ (readi sb i off n fs) :=
    readi_ends hsynced htype hsound hmapped hn
  obtain ⟨result, fs', heq, hsame, hmoved, hresult⟩ := hends.returns
  rw [hsame] at heq
  split
  · rename_i hfits
    rcases hresult hdev with ⟨⟨k, data, rfl⟩, -⟩ | ⟨-, hbad⟩
    · obtain ⟨-, hk, rfl⟩ := hmoved k data rfl
      exact ⟨k, _, heq, map_bytes _ hk⟩
    · rw [Word.add_eq hfits.2] at hbad
      omega
  · rename_i hfits
    rcases hresult hdev with ⟨⟨k, data, rfl⟩, hsum⟩ | ⟨rfl, -⟩
    · refine absurd ⟨(hmoved k data rfl).1, ?_⟩ hfits
      rw [← Word.add_of_le hoff hn hsum]
      exact Nat.mod_lt _ (by decide)
    · exact heq

/-- The blocks that were passed to `log_write` since `fs`, in this order. -/
def newlyLogged (fs fs' : FileSys Pid) : List ℕ :=
  (fs'.logged.take (fs'.logged.length - fs.logged.length)).reverse

/-- `writei`, with what the log makes of the blocks that it is given. -/
def loggedWritei (log : Log) (sb : Superblock) (i : ℕ) (src : ℕ → UInt8) (off n : ℕ)
    (fs : FileSys Pid) : Except Fault ((Transfer Unit × FileSys Pid) × Log) := do
  let written ← writei sb i src off n fs
  let log ← log.logWrites (newlyLogged fs written.2)
  pure (written, log)

variable {log : Log}

theorem loggedWritei_of_fits {written : Transfer Unit × FileSys Pid}
    (hwrite : writei sb i src off n fs = .ok written)
    (hfits : log.Fits (newlyLogged fs written.2)) :
    ∃ log', loggedWritei log sb i src off n fs = .ok (written, log') := by
  obtain ⟨log', hlog⟩ := hfits.logWrites
  refine ⟨log', ?_⟩
  rw [loggedWritei, hwrite, Fallible.ok_bind, hlog]
  rfl

theorem loggedWritei_failed (hwrite : writei sb i src off n fs = .ok (.failed, fs)) :
    loggedWritei log sb i src off n fs = .ok ((.failed, fs), log) := by
  have hnone : newlyLogged fs fs = [] := by simp [newlyLogged]
  rw [loggedWritei, hwrite, Fallible.ok_bind, hnone]
  rfl

/-- The contents of a file or a directory without holes are a byte array that `writei` splices bytes
into, if there are enough free blocks and the blocks that it logs fit in the log, and that `readi`
reads from. -/
theorem contents_byteArray (hsb : sb.LaidOut) (hi : i < sb.ninodes)
    (hsound : (fs.image sb).Sound sb []) (hsynced : Synced sb fs i)
    (htype : ((fs.image sb).dinode i).type = FileType.file.code ∨
      ((fs.image sb).dinode i).type = FileType.dir.code)
    (hmapped : (fs.image sb).Mapped i ((fs.image sb).dinode i).size)
    (hoff : off < Word.size) (hn : n < Word.size) :
    (if off ≤ ((fs.image sb).dinode i).size ∧ off + n < Word.size ∧ off + n ≤ maxFile * bsize then
      (fs.image sb).lacking i (off + n) ≤ (fs.image sb).free sb →
      (∀ written, writei sb i src off n fs = .ok written → log.Fits (newlyLogged fs written.2)) →
        ∃ fs' log', loggedWritei log sb i src off n fs = .ok ((.moved n (), fs'), log') ∧
          (fs'.image sb).contents i =
            splice ((fs.image sb).contents i) off ((List.range n).map src) ∧
          ((fs'.image sb).dinode i).size = max ((fs.image sb).dinode i).size (off + n) ∧
          (∀ j ≠ i, (fs'.image sb).dinode j = (fs.image sb).dinode j ∧
            (fs'.image sb).contents j = (fs.image sb).contents j) ∧
          (fs'.image sb).Mapped i ((fs'.image sb).dinode i).size ∧
          (fs'.image sb).Sound sb [] ∧ Synced sb fs' i
    else loggedWritei log sb i src off n fs = .ok ((.failed, fs), log)) ∧
    (if off ≤ ((fs.image sb).dinode i).size ∧ off + n < Word.size then
      ∃ k data, readi sb i off n fs = .ok (.moved k data, fs) ∧
        (List.range k).map data = (((fs.image sb).contents i).drop off).take n
    else readi sb i off n fs = .ok (.failed, fs)) := by
  have hallocated : ((fs.image sb).dinode i).type ≠ 0 := by
    rcases htype with htype | htype <;> rw [htype] <;> decide
  have hdev : ((fs.image sb).dinode i).type ≠ FileType.dev.code := by
    rcases htype with htype | htype <;> rw [htype] <;> decide
  have hlimit : maxFile * bsize < Word.size := by decide
  constructor
  · split
    · rename_i hfits
      intro henough hroom
      have hends : Ends (fun _ ↦ False) _ (writei sb i src off n fs) :=
        writei_ends hsb hi hsynced hallocated hsound hmapped hn
          fun _ hlen ↦ hsound.tolerates hlen henough
      obtain ⟨result, fs', heq, ⟨rfl, hwithin, -, hwrote⟩ | ⟨-, -, hfailed⟩⟩ := hends.returns
      · obtain ⟨log', hlogged⟩ := loggedWritei_of_fits heq (hroom _ heq)
        have hsize := hwrote.replaced.size_eq
        exact ⟨fs', log', hlogged, hwrote.replaced.contents_self hmapped hwithin, hsize,
          fun j hj ↦ ⟨hwrote.others j hj, hwrote.contents_of_ne hj⟩, hsize ▸ hwrote.mapped,
          hwrote.sound, hwrote.synced⟩
      · obtain ⟨-, hbad⟩ := hfailed hdev
        rw [Word.add_eq hfits.2.1] at hbad
        omega
    · rename_i hfits
      have hends : Ends (fun _ ↦ False) _ (writei sb i src off n fs) :=
        writei_ends hsb hi hsynced hallocated hsound hmapped hn
          fun hwithin hlen ↦ absurd ⟨hwithin, hlen.trans_lt hlimit, hlen⟩ hfits
      obtain ⟨result, fs', heq, ⟨-, hwithin, hlen, -⟩ | ⟨-, hsame, hfailed⟩⟩ := hends.returns
      · exact absurd ⟨hwithin, hlen.trans_lt hlimit, hlen⟩ hfits
      · apply loggedWritei_failed
        rw [heq, (hfailed hdev).1, hsame]
  · exact readi_contents hsynced hallocated hdev hsound hmapped hoff hn

section Tiny

open SharedFile

/-- The file of the small disk, locked by a process. -/
def tinyLocked : FileSys Bool :=
  tinyFile.fs.withInode 2 ⟨1, some true, true, Dinode.fresh FileType.file.code⟩

/-- The log of the small disk, with one operation under way. -/
def tinyLog : Log := ⟨2, 30, 1, false, ⟨0, fun _ ↦ 0⟩⟩

theorem tinyLocked_regular : tinyLocked.Regular tinySuperblock 2 :=
  tinyFile_regular.of_image rfl (tinyFile_dinode 2).symm

/-- Three blocks are written to the empty file, as many as `filewrite` writes at a time. -/
theorem contents_byteArray_chunk : ∃ fs' log',
    loggedWritei tinyLog tinySuperblock 2 (fun _ ↦ 7) 0 1536 tinyLocked =
      .ok ((.moved 1536 (), fs'), log') ∧
    (fs'.image tinySuperblock).contents 2 = (List.range 1536).map fun _ ↦ 7 := by
  obtain ⟨result, next, hwrite, hfits⟩ : ∃ result next,
      writei tinySuperblock 2 (fun _ ↦ 7) 0 1536 tinyLocked = .ok (result, next) ∧
      tinyLog.Fits (newlyLogged tinyLocked next) := by decide +kernel
  have hcontents : (tinyLocked.image tinySuperblock).contents 2 = [] := by decide +kernel
  have hspliced := (@contents_byteArray Bool tinySuperblock tinyLocked 2 0 1536 (fun _ ↦ 7) tinyLog
    tinySuperblock_laidOut (by decide) tinyLocked_regular.sound (tinyFile_dinode 2).symm
    (Or.inl tinyLocked_regular.type) tinyLocked_regular.mapped (by decide) (by decide)).1
  rw [if_pos (by decide +kernel), hcontents] at hspliced
  obtain ⟨fs', log', heq, hspliced, -⟩ := hspliced (by decide +kernel) fun written hwritten ↦ by
    cases hwrite.symm.trans hwritten
    exact hfits
  rw [splice, List.take_nil, List.drop_nil, List.nil_append, List.append_nil] at hspliced
  exact ⟨fs', log', heq, hspliced⟩

/-- With the log empty and enough free blocks, a write of 40 blocks to an empty file does not fit in
the log. -/
theorem long_write_panics : tinyLocked.Regular tinySuperblock 2 ∧
    (tinyLocked.image tinySuperblock).lacking 2 20000 ≤
      (tinyLocked.image tinySuperblock).free tinySuperblock ∧ 20000 ≤ maxFile * bsize ∧
    loggedWritei tinyLog tinySuperblock 2 (fun _ ↦ 7) 0 20000 tinyLocked =
      .error (.panic "too big a transaction") :=
  ⟨tinyLocked_regular, by decide +kernel, by decide, by decide +kernel⟩

end Tiny

end FileSys

end Xv6Shm
