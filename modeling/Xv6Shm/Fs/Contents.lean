import Xv6Shm.Fs.Allocation

/-!
# The contents of files

The bytes of a file are read through the addresses of its inode. `writei` replaces the bytes of a
range, appends where the range goes beyond the end, and leaves all other bytes of all files as they
are; `readi` returns the bytes of a range and changes nothing.
-/

namespace Xv6Shm

open Image Function

namespace Image

/-- The block with a number in a file. -/
def addr (image : Image) (i bn : ℕ) : ℕ := (image.owner (i, fileSlot bn)).getD 0

/-- A byte of a file. -/
def byte (image : Image) (i t : ℕ) : UInt8 := image.data (image.addr i (t / bsize)) (t % bsize)

/-- The inode has all blocks that a file of this length needs. -/
def Mapped (image : Image) (i len : ℕ) : Prop :=
  ∀ t < len, ∃ b, image.owner (i, fileSlot (t / bsize)) = some b

/-- A file of this length has a block in the slot. -/
def slotNeeded (len k : ℕ) : Prop := (if k ≤ nDirect then k else k - 1) * bsize < len

theorem slotNeeded_fileSlot {len bn : ℕ} (h : bn * bsize < len) : slotNeeded len (fileSlot bn) := by
  by_cases hdirect : bn < nDirect
  · rwa [fileSlot, if_pos hdirect, slotNeeded, if_pos hdirect.le]
  · rwa [fileSlot, if_neg hdirect, slotNeeded, if_neg (by omega), Nat.add_sub_cancel]

variable {image before after : Image} {sb : Superblock} {i b : ℕ}

variable {bn off m : ℕ} {src : ℕ → UInt8}

theorem addr_of_owner (h : image.owner (i, fileSlot bn) = some b) : image.addr i bn = b := by
  rw [addr, h, Option.getD_some]

/-- Bytes of a file in a buffer, which is zero behind them. -/
def bytes (image : Image) (i off n : ℕ) : ℕ → UInt8 :=
  fun t ↦ if t < n then image.byte i (off + t) else 0

theorem bytes_zero (image : Image) (i off : ℕ) : image.bytes i off 0 = fun _ ↦ 0 :=
  funext fun _ ↦ if_neg (Nat.not_lt_zero _)

theorem move_bytes {tot : ℕ} (hkey : image.owner (i, fileSlot ((off + tot) / bsize)) = some b)
    (hm : m ≤ bsize - (off + tot) % bsize) :
    (Block.move (image.bytes i off tot) tot m fun t ↦ image.data b ((off + tot) % bsize + t)) =
      image.bytes i off (tot + m) := by
  funext t
  by_cases hnew : tot ≤ t ∧ t < tot + m
  · have hblock : (off + t) / bsize = (off + tot) / bsize := by
      unfold bsize at *
      omega
    have hoffset : (off + tot) % bsize + (t - tot) = (off + t) % bsize := by
      unfold bsize at *
      omega
    rw [Block.move_of_mem hnew.1 hnew.2, bytes, if_pos hnew.2, byte, hblock, addr_of_owner hkey,
      hoffset]
  · have hiff : t < tot + m ↔ t < tot := by omega
    rw [Block.move_of_not_mem (by omega), bytes, bytes]
    simp only [hiff]

theorem byte_congr (howner : after.owner = before.owner) (hdata : after.data = before.data) :
    after.byte = before.byte := by
  funext j t
  rw [byte, byte, addr, addr, howner, hdata]

theorem Grown.byte_eq (h : Grown sb i before after) {j t : ℕ}
    (hmapped : ∃ b, before.owner (j, fileSlot (t / bsize)) = some b) :
    after.byte j t = before.byte j t := by
  obtain ⟨b, hb⟩ := hmapped
  rw [byte, byte, addr_of_owner hb, addr_of_owner (h.kept hb), h.data j _ b hb]

section

variable (h : image.Sound sb []) (hkey : image.owner (i, fileSlot bn) = some b) (block : Block)

include h hkey block

theorem Sound.byte_setFileBlock (j t : ℕ) : (image.setData b block).byte j t =
      if j = i ∧ t / bsize = bn then block (t % bsize) else image.byte j t := by
  have howner := owner_setData (h.ne_indirect hkey) block
  have haddr : (image.setData b block).addr j (t / bsize) = image.addr j (t / bsize) := by
    rw [addr, howner, addr]
  rw [byte, haddr]
  split
  · rename_i hsame
    obtain ⟨rfl, rfl⟩ := hsame
    rw [addr_of_owner hkey]
    simp [setData]
  · rename_i hother
    have hne : image.addr j (t / bsize) ≠ b := by
      rw [addr]
      cases hslot : image.owner (j, fileSlot (t / bsize)) with
      | none => exact (h.isData hkey).pos.symm
      | some c =>
        rintro rfl
        have hsame := Prod.mk.inj (h.holdings.apart _ _ _ hslot hkey)
        exact hother ⟨hsame.1, fileSlot_injective hsame.2⟩
    simp [setData, byte, hne]

theorem Sound.spread_setFileBlock : Spread sb i image (image.setData b block) where
  sound := h.setFileBlock hkey block
  fields := ⟨_, rfl, fun _ _ ↦ rfl⟩
  others := fun _ _ ↦ rfl
  owner := fun _ ↦ Or.inl (congrFun (owner_setData (h.ne_indirect hkey) block) _)

end

theorem Sound.byte_move (h : image.Sound sb [])
    (hkey : image.owner (i, fileSlot (off / bsize)) = some b) (hm : m ≤ bsize - off % bsize)
    (j t : ℕ) :
    (image.setData b ((image.data b).move (off % bsize) m src)).byte j t =
      if j = i ∧ off ≤ t ∧ t < off + m then src (t - off) else image.byte j t := by
  rw [h.byte_setFileBlock hkey]
  by_cases hblock : j = i ∧ t / bsize = off / bsize
  · rw [if_pos hblock]
    by_cases hrange : off ≤ t ∧ t < off + m
    · have hoffset : t % bsize - off % bsize = t - off := by
        unfold bsize at *
        omega
      rw [if_pos ⟨hblock.1, hrange⟩,
        Block.move_of_mem (by unfold bsize at *; omega) (by unfold bsize at *; omega), hoffset]
    · rw [if_neg fun hin ↦ hrange hin.2,
        Block.move_of_not_mem (by unfold bsize at *; omega), byte, hblock.1, hblock.2,
        addr_of_owner hkey]
  · rw [if_neg hblock, if_neg]
    rintro ⟨hj, hstart, hend⟩
    exact hblock ⟨hj, by unfold bsize at *; omega⟩

/-- `tot` bytes of `src` have been written into a file from `off` on. -/
structure Overlaid (sb : Superblock) (i : ℕ) (src : ℕ → UInt8) (off size tot : ℕ)
    (before after : Image) : Prop where
  spread : Spread sb i before after
  mapped : after.Mapped i (max size (off + tot))
  bytes : ∀ j t, (∃ b, before.owner (j, fileSlot (t / bsize)) = some b) ∨
      (j = i ∧ off ≤ t ∧ t < off + tot) →
    after.byte j t = if j = i ∧ off ≤ t ∧ t < off + tot then src (t - off) else before.byte j t

theorem Overlaid.refl (h : before.Sound sb []) {size : ℕ}
    (hmapped : before.Mapped i size) (hoff : off ≤ size) :
    Overlaid sb i src off size 0 before before := by
  refine ⟨.refl h, ?_, fun j t ht ↦ ?_⟩
  · rwa [Nat.add_zero, max_eq_left hoff]
  · rw [if_neg (by omega)]

/-- One round of the loop: the block at the current offset is found or allocated, and as many bytes
as fit are moved into it. -/
theorem Overlaid.round {size tot : ℕ} {middle grown : Image}
    (h : Overlaid sb i src off size tot before middle) (hgrown : Grown sb i middle grown)
    (hkey : grown.owner (i, fileSlot ((off + tot) / bsize)) = some b)
    (hm : m ≤ bsize - (off + tot) % bsize) :
    Overlaid sb i src off size (tot + m) before
      (grown.setData b ((grown.data b).move ((off + tot) % bsize) m fun t ↦ src (tot + t))) := by
  have hsound := hgrown.sound
  have hwritten := hsound.spread_setFileBlock hkey
    ((grown.data b).move ((off + tot) % bsize) m fun t ↦ src (tot + t))
  have hold : ∀ t < max size (off + tot), ∃ c, grown.owner (i, fileSlot (t / bsize)) = some c := by
    intro t ht
    obtain ⟨c, hc⟩ := h.mapped t ht
    exact ⟨c, hgrown.kept hc⟩
  refine ⟨(h.spread.trans hgrown.toSpread).trans hwritten, fun t ht ↦ ?_, fun j t ht ↦ ?_⟩
  · by_cases hlt : t < max size (off + tot)
    · obtain ⟨c, hc⟩ := hold t hlt
      exact ⟨c, hwritten.kept hc⟩
    · have hblock : t / bsize = (off + tot) / bsize := by
        unfold bsize at *
        omega
      exact ⟨b, hblock ▸ hwritten.kept hkey⟩
  · rw [hsound.byte_move hkey hm]
    by_cases hnew : j = i ∧ off + tot ≤ t ∧ t < off + tot + m
    · have hindex : tot + (t - (off + tot)) = t - off := by omega
      rw [if_pos hnew, if_pos (by omega), hindex]
    · have hmapped : ∃ c, middle.owner (j, fileSlot (t / bsize)) = some c := by
        rcases ht with ⟨c, hc⟩ | ⟨rfl, hin⟩
        · exact ⟨c, h.spread.kept hc⟩
        · exact h.mapped t (lt_max_of_lt_right (by omega))
      have hrange : (j = i ∧ off ≤ t ∧ t < off + (tot + m)) ↔ j = i ∧ off ≤ t ∧ t < off + tot := by
        omega
      rw [if_neg hnew, hgrown.byte_eq hmapped, h.bytes j t (ht.imp_right hrange.mp)]
      simp only [hrange]

/-- The bytes of a file from `off` on have been replaced, and its inode has the new size. -/
structure Replaced (sb : Superblock) (i : ℕ) (src : ℕ → UInt8) (off n : ℕ) (before after : Image) :
    Prop where
  sound : after.Sound sb []
  fields : ∃ addrs, after.dinode i = { before.dinode i with
    size := max (before.dinode i).size (off + n), addrs := addrs }
  others : ∀ j ≠ i, after.dinode j = before.dinode j
  owner : ∀ key, after.owner key = before.owner key ∨ key.1 = i ∧ before.owner key = none
  mapped : after.Mapped i (max (before.dinode i).size (off + n))
  bytes : ∀ j t, (∃ b, before.owner (j, fileSlot (t / bsize)) = some b) ∨
      (j = i ∧ off ≤ t ∧ t < off + n) →
    after.byte j t = if j = i ∧ off ≤ t ∧ t < off + n then src (t - off) else before.byte j t

theorem Overlaid.record {n : ℕ} (h : Overlaid sb i src off (before.dinode i).size n before after)
    (hsize : (before.dinode i).size ≤ off + n) :
    Replaced sb i src off n before (after.setDinode i { after.dinode i with size := off + n }) := by
  have howner : (after.setDinode i { after.dinode i with size := off + n }).owner = after.owner :=
    owner_setDinode_fields rfl rfl
  obtain ⟨addrs, haddrs, -⟩ := h.spread.fields
  refine ⟨?_, ⟨addrs, ?_⟩, fun j hj ↦ ?_, fun key ↦ ?_, fun t ht ↦ ?_, ?_⟩
  · exact h.spread.sound.setDinode fun k ↦ Dinode.held_congr rfl rfl
  · rw [dinode_setDinode_self, haddrs, max_eq_right hsize]
  · rw [dinode_setDinode_of_ne hj]
    exact h.spread.others j hj
  · rw [howner]
    exact h.spread.owner key
  · rw [howner]
    exact h.mapped t ht
  · rw [byte_congr howner rfl]
    exact h.bytes

end Image

namespace FileSys

variable {Pid : Type} {sb : Superblock} {fs fs' : FileSys Pid} {i : ℕ}

theorem view_written_data (hsb : sb.LaidOut) {b : ℕ} (hb : sb.IsData b) (block : Block) :
    (fs.written b block).view sb i = (fs.view sb i).setData b block := by
  rw [view, image_written_data hsb hb, inode_written]
  rfl

/-- `writei` has written `tot` bytes and not yet updated the inode. -/
structure Writing (sb : Superblock) (i : ℕ) (src : ℕ → UInt8) (off tot : ℕ)
    (fs fs' : FileSys Pid) : Prop where
  overlaid : Image.Overlaid sb i src off (fs.inode i).copy.size tot (fs.view sb i) (fs'.view sb i)
  copy : CopyOnly i fs fs'
  disk : (fs'.image sb).dinode = (fs.image sb).dinode
  same : (fs'.inode i).copy = (fs.inode i).copy ∨ (fs.inode i).copy.size < off + tot

theorem Writing.type_eq {src : ℕ → UInt8} {off tot : ℕ} (h : Writing sb i src off tot fs fs') :
    (fs'.inode i).copy.type = (fs.inode i).copy.type := by
  simpa only [view_dinode_self] using h.overlaid.spread.type_eq i

section Bmap

variable {allowed : Fault → Prop} (hsb : sb.LaidOut) (htype : (fs.inode i).copy.type ≠ 0)

include hsb htype

theorem bmap_ends_or (hsound : (fs.view sb i).Sound sb []) {bn len : ℕ}
    (htolerates : (fs.view sb i).Tolerates sb i allowed {k | slotNeeded len k})
    (hbn : bn * bsize < len) (hlen : len ≤ maxFile * bsize) :
    Ends allowed (fun b fs' ↦ Extended sb i fs fs' ∧
      (fs'.view sb i).Tolerates sb i allowed {k | slotNeeded len k} ∧
      (fs'.view sb i).owner (i, fileSlot bn) = some b ∧
      (fs' = fs ∨ (fs.view sb i).owner (i, fileSlot bn) = none)) (bmap sb i bn fs) := by
  cases hkey : (fs.view sb i).owner (i, fileSlot bn) with
  | none =>
    have hlt : bn < maxFile := lt_of_mul_lt_mul_right (hbn.trans_le hlen) (Nat.zero_le _)
    refine (bmap_ends hsb hsound htype htolerates hlt (slotNeeded_fileSlot hbn)
      fun hle ↦ ?_).mono ?_
    · exact (Nat.mul_le_mul_right bsize hle).trans_lt hbn
    rintro b fs' ⟨hext, htolerates', howner⟩
    exact ⟨hext, htolerates', howner, Or.inr rfl⟩
  | some b =>
    rw [bmap_mapped hsound htype hkey]
    exact ⟨.refl hsound, htolerates, hkey, Or.inl rfl⟩

theorem writeLoop_ends {src : ℕ → UInt8} {off n : ℕ} (hlimit : off + n ≤ maxFile * bsize)
    {rounds tot : ℕ} {fs' : FileSys Pid} (h : Writing sb i src off tot fs fs')
    (htolerates : (fs'.view sb i).Tolerates sb i allowed {k | slotNeeded (off + n) k})
    (hle : tot ≤ n) (hrounds : n - tot ≤ rounds) :
    Ends allowed (fun _ fs'' ↦ Writing sb i src off n fs fs'') (writeLoop sb i n src rounds tot (off
      + tot) fs') := by
  induction rounds generalizing tot fs' with
  | zero =>
    have htot : tot = n := by omega
    exact htot ▸ h
  | succ rounds ih =>
    rw [writeLoop]
    apply ends_ite
    · intro hlt
      rw [ends_bind]
      have hblock : (off + tot) / bsize * bsize < off + n :=
        (Nat.div_mul_le_self _ _).trans_lt (by omega)
      refine (bmap_ends_or hsb (h.type_eq ▸ htype) h.overlaid.spread.sound htolerates hblock
        hlimit).mono ?_
      rintro b fs'' ⟨hext, htolerates', hkey, hsame⟩
      have hb := hext.grown.sound.isData hkey
      rw [ends_bind, ends_bread, ends_bind, ends_logWrite, Nat.add_assoc]
      have hm : 0 < min (n - tot) (bsize - (off + tot) % bsize) := by
        unfold bsize
        omega
      have hstep := fun block ↦ htolerates'.step (hext.grown.sound.spread_setFileBlock hkey block)
        fun k _ ↦ congrFun (owner_setData (hext.grown.sound.ne_indirect hkey) block) _
      refine ih ?_ (view_written_data hsb hb _ ▸ hstep _) (by omega) (by omega)
      have hround := h.overlaid.round hext.grown hkey
        (min_le_right (n - tot) (bsize - (off + tot) % bsize))
      have hblock : (fs''.view sb i).data b = fs''.disk b := image_data hb
      rw [hblock] at hround
      refine ⟨?_, h.copy.trans hext.copy, ?_, ?_⟩
      · rw [view_written_data hsb hb]
        exact hround
      · rw [image_written_data hsb hb]
        exact hext.disk.trans h.disk
      · -- a new block lies beyond the old end of the file
        rcases hsame with rfl | hnone
        · exact h.same.imp_right fun hsize ↦ by omega
        · right
          by_contra hsize
          obtain ⟨c, hc⟩ := h.overlaid.mapped (off + tot) (lt_max_of_lt_left (by omega))
          rw [hnone] at hc
          cases hc
    · intro hge
      have htot : tot = n := by omega
      exact htot ▸ h

end Bmap

/-- The copy in memory is the inode on disk. -/
def Synced (sb : Superblock) (fs : FileSys Pid) (i : ℕ) : Prop :=
  (fs.inode i).copy = (fs.image sb).dinode i

theorem Synced.view_eq (h : Synced sb fs i) : fs.view sb i = fs.image sb := by
  rw [view, h, setDinode, update_eq_self]

/-- `ilock` of an inode whose copy in memory, if it is valid, is the inode on disk; it fails on a
broken file system only if the inode is free. -/
theorem ilock_ends {p : Pid} (hi : i < sb.ninodes)
    (hcached : (fs.inode i).valid = true → Synced sb fs i ∧ ((fs.image sb).dinode i).type ≠ 0) :
    Ends (fun fault ↦ fault ≠ .panic "freeing free block" ∧
        (((fs.image sb).dinode i).type ≠ 0 → fault.Harmless))
      (fun _ fs' ↦ (fs.inode i).holder = none ∧ ((fs.image sb).dinode i).type ≠ 0 ∧
        fs' = fs.withInode i { fs.inode i with
          holder := some p, valid := true, copy := (fs.image sb).dinode i })
      (ilock sb p i fs) := by
  unfold ilock acquiresleep
  rw [ends_bind, ends_peek]
  apply ends_ite
  · intro _
    exact ⟨by decide, fun _ ↦ by decide⟩
  intro _
  rw [ends_bind, ends_bind, ends_peek]
  apply ends_ite
  · intro _
    exact ⟨by decide, fun _ ↦ by decide⟩
  intro hnone
  rw [Bool.not_eq_true, Option.isSome_eq_false_iff, Option.isNone_iff_eq_none] at hnone
  rw [ends_setInode, ends_bind, ends_peek, inode_withInode, update_self]
  apply ends_ite
  · intro hvalid
    obtain ⟨hcopy, htype⟩ := hcached hvalid
    rw [Synced] at hcopy
    rw [ends_pure, ← hcopy, ← hvalid]
    exact ⟨hnone, hcopy ▸ htype, rfl⟩
  intro _
  rw [ends_bind, ends_get, ends_bind, ends_setInode]
  have hread : (fs.withInode i { fs.inode i with holder := some p }).dinode sb i =
      (fs.image sb).dinode i := (image_dinode hi).symm
  rw [hread]
  apply ends_ite
  · intro hzero
    exact ⟨by decide, fun htype ↦ absurd hzero htype⟩
  · intro htype
    rw [ends_pure]
    exact ⟨hnone, htype, by simp [withInode]⟩

theorem iunlock_ends [DecidableEq Pid] {p : Pid} :
    Ends Fault.Harmless (fun _ fs' ↦ fs' = fs.withInode i { fs.inode i with holder := none })
      (iunlock p i fs) := by
  unfold iunlock releasesleep
  rw [ends_bind, ends_peek]
  apply ends_ite
  · intro _
    exact ⟨by decide, by decide⟩
  · intro _
    rw [ends_setInode]

/-- `writei` has replaced the bytes from `off` on. -/
structure Wrote (sb : Superblock) (i : ℕ) (src : ℕ → UInt8) (off n : ℕ) (fs fs' : FileSys Pid) :
    Prop where
  sound : (fs'.image sb).Sound sb []
  synced : Synced sb fs' i
  copy : CopyOnly i fs fs'
  fields : ∃ addrs, (fs'.image sb).dinode i = { (fs.image sb).dinode i with
    size := max ((fs.image sb).dinode i).size (off + n), addrs := addrs }
  others : ∀ j ≠ i, (fs'.image sb).dinode j = (fs.image sb).dinode j
  owner : ∀ key, (fs'.image sb).owner key = (fs.image sb).owner key ∨
    key.1 = i ∧ (fs.image sb).owner key = none
  mapped : (fs'.image sb).Mapped i (max ((fs.image sb).dinode i).size (off + n))
  bytes : ∀ j t, (∃ b, (fs.image sb).owner (j, fileSlot (t / bsize)) = some b) ∨
      (j = i ∧ off ≤ t ∧ t < off + n) →
    (fs'.image sb).byte j t =
      if j = i ∧ off ≤ t ∧ t < off + n then src (t - off) else (fs.image sb).byte j t

section Writei

variable (hsb : sb.LaidOut) (hi : i < sb.ninodes) (hsynced : Synced sb fs i)
  (htype : ((fs.image sb).dinode i).type ≠ 0) {src : ℕ → UInt8} {off n : ℕ} {allowed : Fault → Prop}

include hsynced

theorem Writing.wrote_within (h : Writing sb i src off n fs fs')
    (hsize : off + n ≤ ((fs.image sb).dinode i).size) : Wrote sb i src off n fs fs' := by
  have hmax := max_eq_left hsize
  have hcopy := h.same.resolve_right (by rw [hsynced]; omega)
  have hsynced' : Synced sb fs' i := by
    rw [Synced, h.disk, hcopy]
    exact hsynced
  have hover := h.overlaid
  rw [hsynced.view_eq, hsynced'.view_eq, hsynced] at hover
  refine ⟨hover.spread.sound, hsynced', h.copy, ⟨((fs.image sb).dinode i).addrs, ?_⟩,
    hover.spread.others, hover.spread.owner, hover.mapped, hover.bytes⟩
  rw [h.disk, hmax]

include hsb hi htype

theorem Writing.wrote_beyond (h : Writing sb i src off n fs fs') (hword : off + n < Word.size)
    (hsize : ((fs.image sb).dinode i).size < off + n) :
    Ends allowed (fun _ fs'' ↦ Wrote sb i src off n fs fs'') ((do
      setCopy i fun d ↦ { d with size := off + n }
      iupdate sb i : Action Pid Unit) fs') := by
  have hover := h.overlaid
  rw [hsynced.view_eq, hsynced] at hover
  have hrange := hover.spread.inRange hsb htype (image_dinode_inRange fs i)
  rw [view_dinode_self] at hrange
  rw [ends_bind, ends_setCopy]
  refine (iupdate_ends hsb hi ?_).mono ?_
  · simpa [MemInode.withCopy] using { hrange with size := hword }
  rintro _ fs'' ⟨hinode, himage⟩
  have hcopy : (fs''.inode i).copy = { (fs'.inode i).copy with size := off + n } := by
    simp [hinode, MemInode.withCopy]
  have himage' : fs''.image sb =
      (fs'.view sb i).setDinode i { (fs'.inode i).copy with size := off + n } := by
    rw [himage, view, setDinode_setDinode]
    simp [MemInode.withCopy]
  have hrecord := hover.record hsize.le
  rw [view_dinode_self, ← himage'] at hrecord
  refine ⟨hrecord.sound, ?_, h.copy.trans ⟨_, hinode⟩, hrecord.fields, hrecord.others,
    hrecord.owner, hrecord.mapped, hrecord.bytes⟩
  rw [Synced, hcopy, himage', dinode_setDinode_self]

theorem Writing.recordSize_ends (h : Writing sb i src off n fs fs')
    (hoff : off ≤ ((fs.image sb).dinode i).size) (hword : off + n < Word.size) :
    Ends allowed (fun _ fs'' ↦ Wrote sb i src off n fs fs'')
      (recordSize sb i n (fs.inode i).copy.size (off + n) fs') := by
  have hcopy := hsynced
  rw [hcopy]
  apply ends_ite
  · intro hgrown
    exact h.wrote_beyond hsb hi hsynced htype hword hgrown.2
  · intro hgrown
    exact h.wrote_within hsynced (by omega)

/-- `writei` writes all bytes, or none. -/
theorem writei_ends (hsound : (fs.image sb).Sound sb [])
    (hmapped : (fs.image sb).Mapped i ((fs.image sb).dinode i).size) (hn : n < Word.size)
    (htolerates : off ≤ ((fs.image sb).dinode i).size → off + n ≤ maxFile * bsize →
      (fs.image sb).Tolerates sb i allowed {k | slotNeeded (off + n) k}) :
    Ends allowed (fun result fs' ↦
      (result = .moved n () ∧ off ≤ ((fs.image sb).dinode i).size ∧ off + n ≤ maxFile * bsize ∧
        Wrote sb i src off n fs fs') ∨
      ((∀ k data, result ≠ .moved k data) ∧ fs' = fs ∧
        (((fs.image sb).dinode i).type ≠ FileType.dev.code → result = .failed ∧
          (((fs.image sb).dinode i).size < off ∨ Word.add off n < off ∨
            maxFile * bsize < Word.add off n))))
      (writei sb i src off n fs) := by
  have hcopy := hsynced
  have hview := hsynced.view_eq
  unfold writei
  rw [ends_bind, ends_peek]
  apply ends_ite
  · intro hdev
    rw [ends_pure]
    refine Or.inr ⟨?_, rfl, fun hother ↦ absurd (hcopy ▸ hdev) hother⟩
    split <;> simp
  intro hdev
  apply ends_ite
  · intro hrange
    exact Or.inr ⟨by simp, rfl, fun _ ↦ ⟨rfl, (hcopy ▸ hrange).imp_right Or.inl⟩⟩
  intro hrange
  apply ends_ite
  · intro hlimit
    exact Or.inr ⟨by simp, rfl, fun _ ↦ ⟨rfl, Or.inr (Or.inr hlimit)⟩⟩
  intro hlimit
  rw [not_or, not_lt, not_lt, hcopy] at hrange
  have hoff : off < Word.size := hrange.1.trans_lt (image_dinode_inRange fs i).size
  have hsum : Word.add off n = off + n := Word.add_of_le hoff hn hrange.2
  rw [hsum, not_lt] at hlimit
  have hword : off + n < Word.size := hlimit.trans_lt (by decide)
  have hstart : Writing sb i src off 0 fs fs := by
    refine ⟨.refl ?_ ?_ ?_, .of_eq rfl, rfl, Or.inl rfl⟩
    · rw [hview]
      exact hsound
    · rw [hview, hcopy]
      exact hmapped
    · rw [hcopy]
      exact hrange.1
  rw [ends_bind]
  refine (writeLoop_ends hsb (hcopy ▸ htype) hlimit hstart
    (hview ▸ htolerates hrange.1 hlimit) (Nat.zero_le n) le_rfl).mono ?_
  rintro _ fs' hwriting
  rw [ends_bind]
  refine (hwriting.recordSize_ends hsb hi hsynced htype hrange.1 hword).mono ?_
  rintro _ fs'' hwrote
  exact Or.inl ⟨rfl, hrange.1, hlimit, hwrote⟩

end Writei

section Readi

variable {allowed : Fault → Prop} (hsynced : Synced sb fs i)
  (htype : ((fs.image sb).dinode i).type ≠ 0) (hsound : (fs.image sb).Sound sb [])
  (hmapped : (fs.image sb).Mapped i ((fs.image sb).dinode i).size) {off n : ℕ}

include hsynced htype hsound hmapped

theorem readLoop_ends (hend : off + n ≤ ((fs.image sb).dinode i).size) {rounds tot : ℕ}
    (hle : tot ≤ n) (hrounds : n - tot ≤ rounds) :
    Ends allowed (fun data fs' ↦ fs' = fs ∧ data = (fs.image sb).bytes i off n) (readLoop sb i n
      rounds tot (off + tot) ((fs.image sb).bytes i off tot) fs) := by
  have hview := hsynced.view_eq
  induction rounds generalizing tot with
  | zero =>
    have htot : tot = n := by omega
    exact ⟨rfl, by rw [htot]⟩
  | succ rounds ih =>
    rw [readLoop]
    apply ends_ite
    · intro hlt
      obtain ⟨b, hb⟩ := hmapped (off + tot) (by omega)
      have hdata : (fs.image sb).data b = fs.disk b := image_data (hsound.isData hb)
      rw [ends_bind, bmap_mapped (hview ▸ hsound) (hsynced ▸ htype) (hview ▸ hb), ends_ok,
        ends_bind, ends_bread, Nat.add_assoc, ← hdata,
        move_bytes hb (min_le_right (n - tot) (bsize - (off + tot) % bsize))]
      have hm : 0 < min (n - tot) (bsize - (off + tot) % bsize) := by
        unfold bsize
        omega
      exact ih (by omega) (by omega)
    · intro hge
      have htot : tot = n := by omega
      exact ⟨rfl, by rw [htot]⟩

theorem readi_ends (hn : n < Word.size) :
    Ends allowed (fun result fs' ↦ fs' = fs ∧ (∀ k data, result = .moved k data →
      off ≤ ((fs.image sb).dinode i).size ∧ k = min n (((fs.image sb).dinode i).size - off) ∧
        data = (fs.image sb).bytes i off k) ∧
      (((fs.image sb).dinode i).type ≠ FileType.dev.code →
        (∃ k data, result = .moved k data) ∧ off ≤ Word.add off n ∨
        result = .failed ∧ (((fs.image sb).dinode i).size < off ∨ Word.add off n < off)))
      (readi sb i off n fs) := by
  have hcopy := hsynced
  unfold readi
  rw [ends_bind, ends_peek]
  apply ends_ite
  · intro hdev
    rw [ends_pure]
    refine ⟨rfl, ?_, fun hother ↦ absurd (hcopy ▸ hdev) hother⟩
    split <;> simp
  intro hdev
  apply ends_ite
  · intro hrange
    exact ⟨rfl, by simp, fun _ ↦ Or.inr ⟨rfl, hcopy ▸ hrange⟩⟩
  intro hrange
  rw [not_or, not_lt, not_lt, hcopy] at hrange
  have hoff : off < Word.size := hrange.1.trans_lt (image_dinode_inRange fs i).size
  have hsum : Word.add off n = off + n := Word.add_of_le hoff hn hrange.2
  have hcount : (if (fs.inode i).copy.size < Word.add off n then (fs.inode i).copy.size - off else n) =
      min n (((fs.image sb).dinode i).size - off) := by
    rw [hcopy, hsum]
    split <;> omega
  rw [hcount, ends_bind, ← bytes_zero]
  refine (readLoop_ends hsynced htype hsound hmapped (by omega) (Nat.zero_le _) le_rfl).mono ?_
  rintro data fs' ⟨rfl, hdata⟩
  refine ⟨rfl, fun k data' hresult ↦ ?_, fun _ ↦ Or.inl ⟨⟨_, _, rfl⟩, hrange.2⟩⟩
  cases hresult
  exact ⟨hrange.1, rfl, hdata⟩

end Readi

end FileSys

end Xv6Shm
