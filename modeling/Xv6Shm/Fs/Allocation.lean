import Xv6Shm.Fs.Ownership

/-!
# What the block layer does to a sound image

While an inode is locked, its copy in memory counts and not the inode on disk. `view` is the image
with that copy. On it `balloc` and `bfree` are moves of the allocator, `bmap` gives an inode new
blocks where it has none, and `itrunc` takes all blocks from it.
-/

namespace Xv6Shm

open Function Block Image

/-- Faults other than those that a broken file system shows. -/
def Fault.Harmless (fault : Fault) : Prop :=
  fault ≠ .panic "freeing free block" ∧ fault ≠ .panic "ilock: no type"

instance : DecidablePred Fault.Harmless := fun _ ↦ instDecidableAnd

/-- An inode may have more addresses than before, and nothing else about inodes has changed. -/
structure Image.Spread (sb : Superblock) (i : ℕ) (before after : Image) : Prop where
  sound : after.Sound sb []
  fields : ∃ addrs, after.dinode i = { before.dinode i with addrs := addrs } ∧
    ∀ k, nDirect < k → addrs k = (before.dinode i).addrs k
  others : ∀ j ≠ i, after.dinode j = before.dinode j
  owner : ∀ key, after.owner key = before.owner key ∨ key.1 = i ∧ before.owner key = none

/-- An inode has been given blocks, and the blocks of files are as before. -/
structure Image.Grown (sb : Superblock) (i : ℕ) (before after : Image) : Prop
    extends Spread sb i before after where
  data : ∀ j bn b, before.owner (j, fileSlot bn) = some b → after.data b = before.data b

namespace Image.Spread

variable {sb : Superblock} {i : ℕ} {before middle after : Image}

theorem refl (h : before.Sound sb []) : Spread sb i before before :=
  ⟨h, ⟨_, rfl, fun _ _ ↦ rfl⟩, fun _ _ ↦ rfl, fun _ ↦ Or.inl rfl⟩

theorem kept (h : Spread sb i before after) {key : ℕ × ℕ} {b : ℕ}
    (hkey : before.owner key = some b) : after.owner key = some b := by
  rcases h.owner key with hsame | ⟨-, hnone⟩
  · exact hsame.trans hkey
  · rw [hnone] at hkey
    cases hkey

theorem trans (hfirst : Spread sb i before middle) (hsecond : Spread sb i middle after) :
    Spread sb i before after where
  sound := hsecond.sound
  fields := by
    obtain ⟨addrs, haddrs, hbeyond⟩ := hfirst.fields
    obtain ⟨addrs', haddrs', hbeyond'⟩ := hsecond.fields
    refine ⟨addrs', by rw [haddrs', haddrs], fun k hk ↦ ?_⟩
    rw [hbeyond' k hk, haddrs]
    exact hbeyond k hk
  others := fun j hj ↦ (hsecond.others j hj).trans (hfirst.others j hj)
  owner := by
    intro key
    rcases hfirst.owner key with hsame | ⟨hi, hnone⟩
    · rcases hsecond.owner key with hsame' | ⟨hi, hnone⟩
      · exact Or.inl (hsame'.trans hsame)
      · exact Or.inr ⟨hi, hsame ▸ hnone⟩
    · exact Or.inr ⟨hi, hnone⟩

theorem type_eq (h : Spread sb i before after) (j : ℕ) :
    (after.dinode j).type = (before.dinode j).type := by
  by_cases hj : j = i
  · subst hj
    obtain ⟨addrs, haddrs, -⟩ := h.fields
    rw [haddrs]
  · rw [h.others j hj]

theorem inRange (h : Spread sb i before after) (hsb : sb.LaidOut)
    (htype : (before.dinode i).type ≠ 0) (hbefore : (before.dinode i).InRange) :
    (after.dinode i).InRange := by
  have hlt : ∀ k ≤ nDirect, (after.dinode i).addrs k < Word.size := by
    intro k hk
    by_cases hzero : (after.dinode i).addrs k = 0
    · rw [hzero]
      decide
    · have howner : after.owner (i, k) = some ((after.dinode i).addrs k) := by
        rw [owner_of_allocated (h.type_eq i ▸ htype), slot, Dinode.slot_of_le hk,
          address_of_ne hzero]
      exact (h.sound.isData howner).2.trans hsb.size_lt
  obtain ⟨addrs, haddrs, hbeyond⟩ := h.fields
  have hzero : ∀ k, nDirect < k → (after.dinode i).addrs k = 0 := fun k hk ↦ by
    rw [haddrs]
    exact (hbeyond k hk).trans (hbefore.beyond k hk)
  refine ⟨?_, ?_, ?_, ?_, ?_, fun k ↦ ?_, hzero⟩
  · exact haddrs ▸ hbefore.type
  · exact haddrs ▸ hbefore.major
  · exact haddrs ▸ hbefore.minor
  · exact haddrs ▸ hbefore.nlink
  · exact haddrs ▸ hbefore.size
  · rcases le_or_gt k nDirect with hk | hk
    · exact hlt k hk
    · rw [hzero k hk]
      decide

end Image.Spread

/-- A full disk is allowed for, while the inode lacks a block in one of the slots and has got blocks
in these slots only. -/
def Image.Tolerates (sb : Superblock) (i : ℕ) (allowed : Fault → Prop) (slots : Set ℕ)
    (before : Image) : Prop :=
  ∀ after, Spread sb i before after → (∀ k ∉ slots, after.owner (i, k) = before.owner (i, k)) →
    (∃ k ∈ slots, after.owner (i, k) = none) → (∀ b < sb.size, after.used b = true) →
    allowed (.panic "balloc: out of blocks")

namespace Image.Tolerates

variable {sb : Superblock} {i : ℕ} {before middle : Image} {slots : Set ℕ}

theorem harmless : Tolerates sb i Fault.Harmless slots before :=
  fun _ _ _ _ _ ↦ ⟨by decide, by decide⟩

variable {allowed : Fault → Prop} (h : Tolerates sb i allowed slots before)
  (hspread : Spread sb i before middle)

include h hspread

theorem step (howner : ∀ k ∉ slots, middle.owner (i, k) = before.owner (i, k)) :
    Tolerates sb i allowed slots middle :=
  fun after hafter hsame ↦ h after (hspread.trans hafter)
    fun k hk ↦ (hsame k hk).trans (howner k hk)

theorem take {k b : ℕ} (hk : k ∈ slots)
    (howner : middle.owner = update before.owner (i, k) (some b)) :
    Tolerates sb i allowed slots middle := by
  refine h.step hspread fun l hl ↦ ?_
  rw [howner, update_of_ne]
  rintro hpair
  cases hpair
  exact hl hk

end Image.Tolerates

namespace Image.Grown

variable {sb : Superblock} {i : ℕ} {before middle after : Image}

theorem refl (h : before.Sound sb []) : Grown sb i before before :=
  ⟨.refl h, fun _ _ _ _ ↦ rfl⟩

theorem trans (hfirst : Grown sb i before middle) (hsecond : Grown sb i middle after) :
    Grown sb i before after :=
  ⟨hfirst.toSpread.trans hsecond.toSpread,
    fun j bn b hb ↦ (hsecond.data j bn b (hfirst.kept hb)).trans (hfirst.data j bn b hb)⟩

/-- A block that was free and is now held in a slot of the inode that was empty. -/
theorem of_taken (h : before.Sound sb []) {k b : ℕ} (hunused : before.used b = false)
    (hsound : after.Sound sb [])
    (hfields : ∃ addrs, after.dinode i = { before.dinode i with addrs := addrs } ∧
      ∀ k, nDirect < k → addrs k = (before.dinode i).addrs k)
    (hothers : ∀ j ≠ i, after.dinode j = before.dinode j) (hnone : before.owner (i, k) = none)
    (howner : after.owner = update before.owner (i, k) (some b))
    (hdata : ∀ c ≠ b, (∀ j, before.owner (j, nDirect) ≠ some c) → after.data c = before.data c) :
    Grown sb i before after := by
  refine ⟨⟨hsound, hfields, hothers, fun key ↦ ?_⟩, fun j bn c hc ↦ ?_⟩
  · by_cases hkey : key = (i, k)
    · subst hkey
      exact Or.inr ⟨rfl, hnone⟩
    · rw [howner, update_of_ne hkey]
      exact Or.inl rfl
  · apply hdata c _ (h.ne_indirect hc)
    rintro rfl
    exact h.holdings.owner_ne_of_unused hunused _ hc

section Taken

variable {b : ℕ} (h : before.Sound sb []) (hb : b < sb.size) (hunused : before.used b = false)

include h hunused

theorem owner_take : ((before.setUsed b true).setData b zero).owner = before.owner :=
  owner_setData (fun j ↦ h.holdings.owner_ne_of_unused hunused (j, nDirect)) zero

include hb

theorem owner_take_setAddr {k : ℕ} (htype : (before.dinode i).type ≠ 0) (hk : k ≤ nDirect)
    (hnone : (before.dinode i).addrs k = 0) :
    (((before.setUsed b true).setData b zero).setDinode i
      ((before.dinode i).setAddr k b)).owner = update before.owner (i, k) (some b) := by
  rw [← owner_take h hunused]
  exact owner_setAddr htype hk hnone (h.isData_of_unused hb hunused).pos fun _ ↦ by simp [setData]

theorem setAddr {k : ℕ} (htype : (before.dinode i).type ≠ 0) (hk : k ≤ nDirect)
    (hnone : (before.dinode i).addrs k = 0) :
    Grown sb i before (((before.setUsed b true).setData b zero).setDinode i
      ((before.dinode i).setAddr k b)) := by
  refine of_taken h hunused ((h.take hb hunused).setAddr htype hk hnone fun _ ↦ by simp [setData])
    ⟨_, dinode_setDinode_self _, fun l hl ↦ update_of_ne (by omega) _ _⟩
    (fun j hj ↦ dinode_setDinode_of_ne hj _) (owner_of_addr_zero htype hk hnone)
    (owner_take_setAddr h hb hunused htype hk hnone) fun c hc _ ↦ ?_
  simp [setDinode, setData, setUsed, hc]

section Entry

variable (hsb : sb.LaidOut) {ind j : ℕ} (htype : (before.dinode i).type ≠ 0)
  (hind : (before.dinode i).addrs nDirect = ind) (hne : ind ≠ 0)

include htype hind hne

omit hb in
theorem data_take_indirect :
    ((before.setUsed b true).setData b zero).data ind = before.data ind := by
  have hapart : ind ≠ b := by
    rintro rfl
    exact h.holdings.owner_ne_of_unused hunused _ (owner_indirect htype hind hne)
  simp [setData, setUsed, hapart]

include hsb

theorem owner_take_setEntry (hj : j < nIndirect) :
    (((before.setUsed b true).setData b zero).setData ind
      ((before.data ind).setWord (4 * j) b)).owner =
      update before.owner (i, nDirect + 1 + j) (some b) := by
  have hdata := h.isData_of_unused hb hunused
  rw [← data_take_indirect h hunused htype hind hne, (h.take hb hunused).owner_setEntry htype hind
    hne hj hdata.pos (hdata.2.trans hsb.size_lt), owner_take h hunused]

theorem setEntry (hj : j < nIndirect) (hnone : (before.data ind).word (4 * j) = 0) :
    Grown sb i before (((before.setUsed b true).setData b zero).setData ind
      ((before.data ind).setWord (4 * j) b)) := by
  have hblock := data_take_indirect h hunused htype hind hne
  refine of_taken h hunused ?_ ⟨_, rfl, fun _ _ ↦ rfl⟩ (fun _ _ ↦ rfl) ?_
    (owner_take_setEntry h hb hunused hsb htype hind hne hj) fun c hc hother ↦ ?_
  · rw [← hblock]
    exact (h.take hb hunused).setEntry hsb htype hind hne hj (hblock.symm ▸ hnone)
  · rw [owner_entry htype hind hne hj, hnone, address_zero]
  · have hcind : c ≠ ind := by
      rintro rfl
      exact hother i (owner_indirect htype hind hne)
    simp [setData, setUsed, hc, hcind]

end Entry

end Taken

end Image.Grown

namespace FileSys

variable {Pid : Type} {sb : Superblock} {fs : FileSys Pid} {i : ℕ}

/-- The image with the copy of an inode in memory. -/
def view (sb : Superblock) (fs : FileSys Pid) (i : ℕ) : Image :=
  (fs.image sb).setDinode i (fs.inode i).copy

/-- Only the copy of the inode in memory may have changed. -/
def CopyOnly (i : ℕ) (fs fs' : FileSys Pid) : Prop :=
  ∃ copy, fs'.inode = update fs.inode i ((fs.inode i).withCopy copy)

variable {fs' : FileSys Pid} {allowed : Fault → Prop} {b : ℕ} {post : Unit → FileSys Pid → Prop}

theorem CopyOnly.of_eq (h : fs'.inode = fs.inode) : CopyOnly i fs fs' :=
  ⟨(fs.inode i).copy, h.trans (update_eq_self i fs.inode).symm⟩

theorem CopyOnly.trans {fs'' : FileSys Pid} (h : CopyOnly i fs fs') (h' : CopyOnly i fs' fs'') :
    CopyOnly i fs fs'' := by
  obtain ⟨copy, hcopy⟩ := h
  obtain ⟨copy', hcopy'⟩ := h'
  exact ⟨copy', by rw [hcopy', hcopy, update_idem, update_self]; rfl⟩

@[simp] theorem ends_bread {post : Block → FileSys Pid → Prop} :
    Ends allowed post (bread b fs) ↔ post (fs.disk b) fs := Iff.rfl

@[simp] theorem ends_logWrite
    {data : Block} : Ends allowed post (logWrite b data fs) ↔ post () (fs.written b data) := Iff.rfl

@[simp] theorem ends_peek {post : MemInode Pid → FileSys Pid → Prop} :
    Ends allowed post (peek i fs) ↔ post (fs.inode i) fs := Iff.rfl

/-- The state with another inode in memory. -/
def withInode (fs : FileSys Pid) (i : ℕ) (ip : MemInode Pid) : FileSys Pid :=
  { fs with inode := update fs.inode i ip }

@[simp] theorem ends_setInode {change : MemInode Pid → MemInode Pid} :
    Ends allowed post (setInode i change fs) ↔ post () (fs.withInode i (change (fs.inode i))) :=
  Iff.rfl

@[simp] theorem ends_setCopy {change : Dinode → Dinode} : Ends allowed post (setCopy i change fs) ↔
      post () (fs.withInode i ((fs.inode i).withCopy (change (fs.inode i).copy))) := Iff.rfl

@[simp] theorem image_withInode (ip : MemInode Pid) : (fs.withInode i ip).image sb = fs.image sb := rfl

@[simp] theorem inode_written (b : ℕ) (data : Block) : (fs.written b data).inode = fs.inode := rfl

@[simp] theorem inode_withInode (ip : MemInode Pid) :
    (fs.withInode i ip).inode = update fs.inode i ip := rfl

theorem balloc_ends (hsb : sb.LaidOut)
    (hmetadata : ∀ b < sb.dataStart, b < sb.size → (fs.image sb).used b = true)
    (hfull : (∀ b < sb.size, (fs.image sb).used b = true) →
      allowed (.panic "balloc: out of blocks")) :
    Ends allowed (fun b fs' ↦ b < sb.size ∧ (fs.image sb).used b = false ∧ fs'.inode = fs.inode ∧
      fs'.image sb = ((fs.image sb).setUsed b true).setData b zero) (balloc sb fs) := by
  unfold balloc
  rw [ends_bind, ends_get]
  generalize hfound : (List.range sb.size).find? _ = found
  cases found with
  | some b =>
    have hb : b < sb.size := List.mem_range.mp (List.mem_of_find?_eq_some hfound)
    have hunused : (fs.image sb).used b = false := by
      simpa [image_used hb] using List.find?_some hfound
    have hdata : sb.IsData b := by
      refine ⟨not_lt.mp fun hlt ↦ ?_, hb⟩
      rw [hmetadata b hlt hb] at hunused
      cases hunused
    refine ⟨hb, hunused, rfl, ?_⟩
    rw [← image_written_setBit hsb hb, ← image_written_data hsb hdata]
    rfl
  | none =>
    refine hfull fun b hb ↦ ?_
    simpa [image_used hb] using List.find?_eq_none.mp hfound b (List.mem_range.mpr hb)

theorem bfree_ends (hsb : sb.LaidOut) (hb : b < sb.size) (hused : (fs.image sb).used b = true) :
    Ends Fault.Harmless (fun _ fs' ↦ fs'.inode = fs.inode ∧
      fs'.image sb = (fs.image sb).setUsed b false) (bfree sb b fs) := by
  rw [image_used hb] at hused
  unfold bfree
  rw [ends_bind, ends_bread, if_pos hused, ends_logWrite]
  exact ⟨rfl, image_written_clearBit hsb hb⟩

theorem iupdate_ends (hsb : sb.LaidOut) (hi : i < sb.ninodes) (hrange : (fs.inode i).copy.InRange) :
    Ends allowed (fun _ fs' ↦ fs'.inode = fs.inode ∧
      fs'.image sb = (fs.image sb).setDinode i (fs.inode i).copy) (iupdate sb i fs) := by
  unfold iupdate
  rw [ends_bind, ends_bread, ends_bind, ends_peek, ends_logWrite]
  exact ⟨rfl, image_written_dinode hsb hi hrange⟩

@[simp] theorem view_dinode_self : (fs.view sb i).dinode i = (fs.inode i).copy :=
  dinode_setDinode_self _

/-- The inode has been given blocks, and nothing but its copy in memory says so yet. -/
structure Extended (sb : Superblock) (i : ℕ) (fs fs' : FileSys Pid) : Prop where
  grown : Grown sb i (fs.view sb i) (fs'.view sb i)
  copy : CopyOnly i fs fs'
  disk : (fs'.image sb).dinode = (fs.image sb).dinode

theorem Extended.refl (h : (fs.view sb i).Sound sb []) : Extended sb i fs fs :=
  ⟨.refl h, .of_eq rfl, rfl⟩

theorem Extended.trans {fs'' : FileSys Pid} (h : Extended sb i fs fs')
    (h' : Extended sb i fs' fs'') : Extended sb i fs fs'' :=
  ⟨h.grown.trans h'.grown, h.copy.trans h'.copy, h'.disk.trans h.disk⟩

theorem Extended.type_eq (h : Extended sb i fs fs') :
    (fs'.inode i).copy.type = (fs.inode i).copy.type := by
  simpa only [view_dinode_self] using h.grown.type_eq i

section Bmap

variable (hsb : sb.LaidOut) (hsound : (fs.view sb i).Sound sb [])
  (htype : (fs.inode i).copy.type ≠ 0) {slots : Set ℕ}
  (htolerates : (fs.view sb i).Tolerates sb i allowed slots)

include hsb hsound htype htolerates

theorem ensureAddr_ends {k : ℕ} (hk : k ≤ nDirect) (hslot : k ∈ slots) :
    Ends allowed (fun b fs' ↦ Extended sb i fs fs' ∧ (fs'.view sb i).Tolerates sb i allowed slots ∧
      (fs'.inode i).copy.addrs k = b ∧ b ≠ 0) (ensureAddr sb i k fs) := by
  have htype' : ((fs.view sb i).dinode i).type ≠ 0 := view_dinode_self ▸ htype
  unfold ensureAddr
  rw [ends_bind, ends_peek]
  apply ends_ite
  · intro hnone
    have hnone' : ((fs.view sb i).dinode i).addrs k = 0 := view_dinode_self ▸ hnone
    rw [ends_bind]
    have hfull := htolerates (fs.view sb i) (.refl hsound) (fun _ _ ↦ rfl)
      ⟨k, hslot, owner_of_addr_zero htype' hk hnone'⟩
    refine (balloc_ends hsb hsound.metadata hfull).mono ?_
    rintro b fs' ⟨hb, hunused, hinode, himage⟩
    rw [ends_bind, setAddr, ends_setCopy, ends_pure, hinode]
    have hgrown := Grown.setAddr hsound hb hunused htype' hk hnone'
    have hview : (fs'.withInode i ((fs.inode i).withCopy ((fs.inode i).copy.setAddr k b))).view
        sb i = (((fs.view sb i).setUsed b true).setData b zero).setDinode i
          (((fs.view sb i).dinode i).setAddr k b) := by
      rw [view_dinode_self, view, image_withInode, himage, inode_withInode, update_self]
      exact (setDinode_setDinode _ _).symm
    refine ⟨⟨hview ▸ hgrown, ⟨(fs.inode i).copy.setAddr k b, ?_⟩, ?_⟩, hview ▸
      htolerates.take hgrown.toSpread hslot (Grown.owner_take_setAddr hsound hb hunused htype'
        hk hnone'), ?_, (hsound.isData_of_unused hb hunused).pos⟩
    · rw [inode_withInode, hinode]
    · rw [image_withInode, himage]
      rfl
    · simp [MemInode.withCopy]
  · intro hsome
    exact ⟨.refl hsound, htolerates, rfl, hsome⟩

omit hsb htolerates in
theorem isData_indirect (hind : (fs.inode i).copy.addrs nDirect ≠ 0) :
    sb.IsData ((fs.inode i).copy.addrs nDirect) :=
  hsound.isData (owner_indirect (view_dinode_self ▸ htype)
    (congrArg (fun d : Dinode ↦ d.addrs nDirect) view_dinode_self) hind)

omit hsb htolerates in
theorem owner_fileSlot (bn : ℕ) : (fs.view sb i).owner (i, fileSlot bn) =
    if bn < nDirect then address ((fs.inode i).copy.addrs bn)
    else if bn - nDirect < nIndirect ∧ (fs.inode i).copy.addrs nDirect ≠ 0 then
      address ((fs.disk ((fs.inode i).copy.addrs nDirect)).word (4 * (bn - nDirect)))
    else none := by
  rw [owner_of_allocated (view_dinode_self ▸ htype), slot, view_dinode_self, fileSlot]
  split
  · rename_i hbn
    exact Dinode.slot_of_le hbn.le
  · rename_i hbn
    have hslot : bn + 1 = nDirect + 1 + (bn - nDirect) := by omega
    split
    · rename_i hentry
      rw [hslot, Dinode.slot_entry hentry.2 hentry.1]
      congr 2
      exact image_data (isData_indirect hsound htype hentry.2)
    · rename_i hentry
      rw [Dinode.slot, if_neg (by omega), if_pos]
      rw [maxFile]
      omega

theorem ensureEntry_ends {ind j : ℕ} (hind : (fs.inode i).copy.addrs nDirect = ind) (hne : ind ≠ 0)
    (hj : j < nIndirect) (hslot : nDirect + 1 + j ∈ slots) :
    Ends allowed (fun b fs' ↦ Extended sb i fs fs' ∧ (fs'.view sb i).Tolerates sb i allowed slots ∧
      (fs'.view sb i).owner (i, nDirect + 1 + j) = some b) (ensureEntry sb ind j fs) := by
  have htype' : ((fs.view sb i).dinode i).type ≠ 0 := view_dinode_self ▸ htype
  have hind' : ((fs.view sb i).dinode i).addrs nDirect = ind := view_dinode_self ▸ hind
  have hdata : sb.IsData ind := hind ▸ isData_indirect hsound htype (hind ▸ hne)
  have hblock : (fs.view sb i).data ind = fs.disk ind := image_data hdata
  have hentry := owner_entry htype' hind' hne hj
  rw [hblock] at hentry
  unfold ensureEntry
  rw [ends_bind, ends_bread]
  apply ends_ite
  · intro hnone
    rw [ends_bind]
    have hfull := htolerates (fs.view sb i) (.refl hsound) (fun _ _ ↦ rfl)
      ⟨_, hslot, by rw [hentry, hnone, address_zero]⟩
    refine (balloc_ends hsb hsound.metadata hfull).mono ?_
    rintro b fs' ⟨hb, hunused, hinode, himage⟩
    rw [ends_bind, ends_logWrite, ends_pure, ← hblock]
    rw [← hblock] at hnone
    have hview : (fs'.written ind (((fs.view sb i).data ind).setWord (4 * j) b)).view sb i =
        ((fs.view sb i).setUsed b true |>.setData b zero).setData ind
          (((fs.view sb i).data ind).setWord (4 * j) b) := by
      rw [view, image_written_data hsb hdata, himage, inode_written, hinode]
      rfl
    have hgrown := Grown.setEntry hsound hb hunused hsb htype' hind' hne hj hnone
    have howner := Grown.owner_take_setEntry hsound hb hunused hsb htype' hind' hne hj
    refine ⟨⟨hview ▸ hgrown, .of_eq hinode, ?_⟩,
      hview ▸ htolerates.take hgrown.toSpread hslot howner, ?_⟩
    · rw [image_written_data hsb hdata, himage]
      rfl
    · rw [hview, howner, update_self]
  · intro hsome
    exact ⟨.refl hsound, htolerates, hentry.trans (address_of_ne hsome)⟩

omit hsb hsound htype htolerates in
theorem ensureAddr_mapped {k : ℕ} (hk : (fs.inode i).copy.addrs k ≠ 0) :
    ensureAddr sb i k fs = .ok ((fs.inode i).copy.addrs k, fs) := by
  apply Ends.eq_ok
  unfold ensureAddr
  rw [ends_bind, ends_peek, if_neg hk]
  exact ⟨rfl, rfl⟩

omit hsb htolerates in
theorem bmap_mapped {bn b : ℕ} (hbn : (fs.view sb i).owner (i, fileSlot bn) = some b) :
    bmap sb i bn fs = .ok (b, fs) := by
  rw [owner_fileSlot hsound htype] at hbn
  apply Ends.eq_ok
  unfold bmap
  split at hbn
  · rename_i hdirect
    obtain ⟨rfl, hne⟩ := address_eq_some.mp hbn
    rw [if_pos hdirect, ensureAddr_mapped hne]
    exact ⟨rfl, rfl⟩
  · rename_i hdirect
    split at hbn
    · rename_i hentry
      obtain ⟨rfl, hne⟩ := address_eq_some.mp hbn
      rw [if_neg hdirect, if_pos hentry.1, ends_bind, ensureAddr_mapped hentry.2, ends_ok,
        ensureEntry, ends_bind, ends_bread, if_neg hne]
      exact ⟨rfl, rfl⟩
    · cases hbn

theorem bmap_ends {bn : ℕ} (hbn : bn < maxFile) (hslot : fileSlot bn ∈ slots)
    (hindirect : nDirect ≤ bn → nDirect ∈ slots) :
    Ends allowed (fun b fs' ↦ Extended sb i fs fs' ∧ (fs'.view sb i).Tolerates sb i allowed slots ∧
      (fs'.view sb i).owner (i, fileSlot bn) = some b) (bmap sb i bn fs) := by
  apply ends_ite
  · intro hdirect
    rw [fileSlot, if_pos hdirect] at hslot
    refine (ensureAddr_ends hsb hsound htype htolerates hdirect.le hslot).mono ?_
    rintro b fs' ⟨hext, htolerates', haddr, hne⟩
    refine ⟨hext, htolerates', ?_⟩
    rw [owner_fileSlot hext.grown.sound (hext.type_eq ▸ htype), if_pos hdirect, haddr,
      address_of_ne hne]
  · intro hdirect
    have hentry : bn - nDirect < nIndirect := by
      rw [maxFile] at hbn
      omega
    have hkey : fileSlot bn = nDirect + 1 + (bn - nDirect) := by
      rw [fileSlot, if_neg hdirect]
      omega
    rw [if_pos hentry, ends_bind]
    refine (ensureAddr_ends hsb hsound htype htolerates le_rfl
      (hindirect (not_lt.mp hdirect))).mono ?_
    rintro ind fs' ⟨hext, htolerates', hind, hne⟩
    refine (ensureEntry_ends hsb hext.grown.sound (hext.type_eq ▸ htype) htolerates' hind hne hentry
      (hkey ▸ hslot)).mono ?_
    rintro b fs'' ⟨hext', htolerates'', howner⟩
    exact ⟨hext.trans hext', htolerates'', hkey ▸ howner⟩

end Bmap

end FileSys

end Xv6Shm
