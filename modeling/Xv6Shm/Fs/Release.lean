import Xv6Shm.Fs.Contents

/-!
# Allocating and freeing inodes

`ialloc` marks an inode that has no blocks; `iput` frees one after `itrunc` has given back its
blocks. For `itrunc` all blocks of the inode are withdrawn at once, and each `bfree` releases the
next of them; so each block is in the free map when its turn comes.
-/

namespace Xv6Shm

open Function Dinode Image

namespace Image

variable {image : Image} {sb : Superblock} {i : ℕ}

/-- The slots of an inode, in the order in which `itrunc` looks at them. -/
def slotOrder : List ℕ :=
  List.range nDirect ++ (List.range nIndirect).map (nDirect + 1 + ·) ++ [nDirect]

/-- The blocks of an inode, in the order in which `itrunc` frees them. -/
def blocks (image : Image) (i : ℕ) : List ℕ := slotOrder.filterMap fun k ↦ image.owner (i, k)

theorem slotOrder_nodup : slotOrder.Nodup := by decide +kernel

theorem owner_of_notMem {k : ℕ} (hk : k ∉ slotOrder) : image.owner (i, k) = none := by
  by_cases htype : (image.dinode i).type = 0
  · exact held_of_free htype
  · rw [owner_of_allocated htype]
    have hgt : nDirect < k := by
      by_contra hle
      rcases (not_lt.mp hle).lt_or_eq with hlt | heq
      · exact hk (by simp [slotOrder, hlt])
      · exact hk (by simp [slotOrder, heq])
    rcases slot_cases (d := image.dinode i) hgt with ⟨-, j, hj, rfl⟩ | hnone
    · exact absurd (by simp [slotOrder, hj]) hk
    · exact hnone image.data

theorem mem_blocks {b : ℕ} : b ∈ image.blocks i ↔ ∃ k, image.owner (i, k) = some b := by
  rw [blocks, List.mem_filterMap]
  constructor
  · rintro ⟨k, -, hk⟩
    exact ⟨k, hk⟩
  · rintro ⟨k, hk⟩
    refine ⟨k, ?_, hk⟩
    by_contra hmem
    rw [owner_of_notMem hmem] at hk
    cases hk

theorem Sound.blocks_nodup {transit : List ℕ} (h : image.Sound sb transit) :
    (image.blocks i).Nodup := by
  apply slotOrder_nodup.filterMap
  intro k l b hk hl
  exact (Prod.mk.inj (h.holdings.apart _ _ _ hk hl)).2

/-- The indirect block of an inode and the blocks that it lists, in the order in which `itrunc`
frees them. -/
def indirectBlocks (d : Dinode) (data : ℕ → Block) : List ℕ :=
  if d.addrs nDirect = 0 then []
  else (List.range nIndirect).filterMap (fun j ↦
    address ((data (d.addrs nDirect)).word (4 * j))) ++ [d.addrs nDirect]

theorem blocks_eq (htype : (image.dinode i).type ≠ 0) :
    image.blocks i = (List.range nDirect).filterMap (fun k ↦ address ((image.dinode i).addrs k)) ++
      indirectBlocks (image.dinode i) image.data := by
  have hdirect : (List.range nDirect).filterMap (fun k ↦ image.owner (i, k)) =
      (List.range nDirect).filterMap fun k ↦ address ((image.dinode i).addrs k) := by
    apply List.filterMap_congr
    intro k hk
    rw [owner_of_allocated htype, slot, slot_of_le (List.mem_range.mp hk).le]
  rw [blocks, slotOrder, List.filterMap_append, List.filterMap_append, hdirect, List.append_assoc,
    List.filterMap_map, indirectBlocks]
  congr 1
  by_cases hind : (image.dinode i).addrs nDirect = 0
  · have hnone : ∀ k, nDirect ≤ k → image.owner (i, k) = none := by
      intro k hk
      rw [owner_of_allocated htype, slot, Dinode.slot]
      split
      · rw [le_antisymm ‹_› hk, hind, address_zero]
      · rw [if_pos (Or.inl hind)]
    rw [if_pos hind, List.append_eq_nil_iff, List.filterMap_eq_nil_iff, List.filterMap_eq_nil_iff]
    refine ⟨fun j _ ↦ hnone _ (by dsimp only; omega), fun k hk ↦ hnone k (List.mem_singleton.mp hk).ge⟩
  · rw [if_neg hind]
    congr 1
    · apply List.filterMap_congr
      intro j hj
      exact owner_entry htype rfl hind (List.mem_range.mp hj)
    · rw [List.filterMap_cons, owner_indirect htype rfl hind, List.filterMap_nil]

theorem Sound.withdrawn (h : image.Sound sb []) :
    (image.setDinode i (fresh 0)).Sound sb (image.blocks i) :=
  h.withdraw (fun _ ↦ held_fresh 0) (fun _ ↦ mem_blocks) h.blocks_nodup

end Image

namespace FileSys

variable {Pid : Type} {sb : Superblock} {fs : FileSys Pid} {i : ℕ}

/-- The image without the inode. -/
def without (sb : Superblock) (fs : FileSys Pid) (i : ℕ) : Image :=
  (fs.image sb).setDinode i (fresh 0)

/-- Only the free map has changed. -/
structure MapOnly (sb : Superblock) (fs fs' : FileSys Pid) : Prop where
  dinode : (fs'.image sb).dinode = (fs.image sb).dinode
  data : (fs'.image sb).data = (fs.image sb).data

theorem bfree_withdrawn (hsb : sb.LaidOut) {b : ℕ} {rest : List ℕ}
    (h : (fs.without sb i).Sound sb (b :: rest)) :
    Ends Fault.Harmless (fun _ fs' ↦ (fs'.without sb i).Sound sb rest ∧ fs'.inode = fs.inode ∧
      MapOnly sb fs fs') (bfree sb b fs) := by
  have hb := (h.holdings.moving b List.mem_cons_self).1
  have hused := h.holdings.used_of_mem List.mem_cons_self
  refine (bfree_ends hsb hb.2 hused).mono ?_
  rintro _ fs' ⟨hinode, himage⟩
  refine ⟨?_, hinode, ⟨?_, ?_⟩⟩
  · rw [without, himage]
    exact h.release
  · rw [himage]
    rfl
  · rw [himage]
    rfl

theorem MapOnly.trans {fs' fs'' : FileSys Pid} (h : MapOnly sb fs fs') (h' : MapOnly sb fs' fs'') :
    MapOnly sb fs fs'' :=
  ⟨h'.dinode.trans h.dinode, h'.data.trans h.data⟩

/-- The inode when `itrunc` has still to look at some of the direct addresses. -/
def remaining (d : Dinode) (ks : List ℕ) : Dinode :=
  { d with addrs := fun k ↦ if k ∈ ks ∨ nDirect ≤ k then d.addrs k else 0 }

theorem remaining_all (d : Dinode) : remaining d (List.range nDirect) = d := by
  unfold remaining
  congr 1
  funext k
  rw [if_pos (by rw [List.mem_range]; omega)]

theorem setAddr_remaining (d : Dinode) {k : ℕ} {ks : List ℕ} (hk : k < nDirect) (hout : k ∉ ks) :
    (remaining d (k :: ks)).setAddr k 0 = remaining d ks := by
  unfold remaining Dinode.setAddr
  congr 1
  funext l
  by_cases hl : l = k
  · subst hl
    simp [hout, hk]
  · simp [hl]

theorem remaining_cons_zero (d : Dinode) {k : ℕ} {ks : List ℕ} (hzero : d.addrs k = 0) :
    remaining d (k :: ks) = remaining d ks := by
  unfold remaining
  congr 1
  funext l
  by_cases hl : l = k
  · subst hl
    simp [hzero]
  · simp [hl]

/-- The first loop of `itrunc`, with the direct addresses that are still to come. -/
structure FreeingDirect (sb : Superblock) (i : ℕ) (rest : List ℕ) (fs : FileSys Pid) (ks : List ℕ)
    (fs' : FileSys Pid) : Prop where
  nodup : ks.Nodup
  direct : ∀ k ∈ ks, k < nDirect
  sound : (fs'.without sb i).Sound sb
    (ks.filterMap (fun k ↦ address ((fs.inode i).copy.addrs k)) ++ rest)
  map : MapOnly sb fs fs'
  inode : fs'.inode = update fs.inode i ((fs.inode i).withCopy (remaining (fs.inode i).copy ks))

theorem FreeingDirect.step (hsb : sb.LaidOut) {rest ks : List ℕ} {k : ℕ} {fs' : FileSys Pid}
    (h : FreeingDirect sb i rest fs (k :: ks) fs') :
    Ends Fault.Harmless (fun _ ↦ FreeingDirect sb i rest fs ks) (truncDirect sb i k fs') := by
  have hk := h.direct k List.mem_cons_self
  have hnodup := List.nodup_cons.mp h.nodup
  have hdirect := fun l hl ↦ h.direct l (List.mem_cons_of_mem k hl)
  have hsound := h.sound
  have haddr : (fs'.inode i).copy.addrs k = (fs.inode i).copy.addrs k := by
    simp [h.inode, MemInode.withCopy, remaining]
  unfold truncDirect
  rw [ends_bind, ends_peek, haddr]
  apply ends_ite
  · intro hzero
    rw [List.filterMap_cons, hzero, address_zero] at hsound
    exact ⟨hnodup.2, hdirect, hsound, h.map, by rw [h.inode, remaining_cons_zero _ hzero]⟩
  · intro hne
    rw [List.filterMap_cons, address_of_ne hne] at hsound
    rw [ends_bind]
    refine (bfree_withdrawn hsb hsound).mono ?_
    rintro _ fs'' ⟨hsound', hinode, hmap⟩
    refine ⟨hnodup.2, hdirect, hsound', h.map.trans ⟨hmap.dinode, hmap.data⟩, ?_⟩
    rw [← setAddr_remaining _ hk hnodup.1]
    simp [hinode, h.inode, MemInode.withCopy]

theorem truncDirect_ends (hsb : sb.LaidOut) {rest : List ℕ} (hsound : (fs.without sb i).Sound sb
      ((List.range nDirect).filterMap (fun k ↦ address ((fs.inode i).copy.addrs k)) ++ rest)) :
    Ends Fault.Harmless (fun _ ↦ FreeingDirect sb i rest fs [])
      ((List.range nDirect).forM (truncDirect sb i) fs) := by
  apply ends_forM (FreeingDirect sb i rest fs) fun _ _ _ h ↦ h.step hsb
  refine ⟨List.nodup_range, fun _ ↦ List.mem_range.mp, hsound, ⟨rfl, rfl⟩, ?_⟩
  rw [remaining_all]
  exact (update_eq_self i fs.inode).symm

/-- The second loop of `itrunc`, with the entries of the indirect block that are still to come. -/
structure FreeingEntries (sb : Superblock) (i : ℕ) (block : Block) (rest : List ℕ)
    (fs : FileSys Pid) (js : List ℕ) (fs' : FileSys Pid) : Prop where
  sound : (fs'.without sb i).Sound sb (js.filterMap (fun j ↦ address (block.word (4 * j))) ++ rest)
  map : MapOnly sb fs fs'
  inode : fs'.inode = fs.inode

theorem FreeingEntries.step (hsb : sb.LaidOut) {block : Block} {rest js : List ℕ} {j : ℕ}
    {fs' : FileSys Pid} (h : FreeingEntries sb i block rest fs (j :: js) fs') :
    Ends Fault.Harmless (fun _ ↦ FreeingEntries sb i block rest fs js)
      (truncEntry sb block j fs') := by
  have hsound := h.sound
  apply ends_ite
  · intro hzero
    rw [List.filterMap_cons, hzero, address_zero] at hsound
    exact ⟨hsound, h.map, h.inode⟩
  · intro hne
    rw [List.filterMap_cons, address_of_ne hne] at hsound
    refine (bfree_withdrawn hsb hsound).mono ?_
    rintro _ fs'' ⟨hsound', hinode, hmap⟩
    exact ⟨hsound', h.map.trans hmap, hinode.trans h.inode⟩

theorem truncIndirect_ends (hsb : sb.LaidOut) (hsound : (fs.without sb i).Sound sb
      (indirectBlocks (fs.inode i).copy (fs.image sb).data)) :
    Ends Fault.Harmless (fun _ fs' ↦ (fs'.without sb i).Sound sb [] ∧ MapOnly sb fs fs' ∧
      fs'.inode = update fs.inode i ((fs.inode i).withCopy ((fs.inode i).copy.setAddr nDirect 0)))
      (truncIndirect sb i fs) := by
  unfold truncIndirect
  rw [ends_bind, ends_peek]
  rw [indirectBlocks] at hsound
  apply ends_ite
  · intro hzero
    rw [if_pos hzero] at hsound
    refine ⟨hsound, ⟨rfl, rfl⟩, ?_⟩
    have hsame : (fs.inode i).copy.setAddr nDirect 0 = (fs.inode i).copy := by
      rw [Dinode.setAddr, ← hzero, update_eq_self]
    rw [hsame]
    exact (update_eq_self i fs.inode).symm
  · intro hne
    rw [if_neg hne] at hsound
    have hdata := (hsound.holdings.moving _ (List.mem_append_right _ List.mem_cons_self)).1
    rw [image_data hdata] at hsound
    rw [ends_bind, ends_bread, ends_bind]
    refine (ends_forM (FreeingEntries sb i _ _ fs) (fun _ _ _ h ↦ h.step hsb)
      ⟨hsound, ⟨rfl, rfl⟩, rfl⟩).mono ?_
    rintro _ fs' hentries
    rw [ends_bind]
    refine (bfree_withdrawn hsb hentries.sound).mono ?_
    rintro _ fs'' ⟨hsound', hinode, hmap⟩
    refine ⟨hsound', hentries.map.trans ⟨hmap.dinode, hmap.data⟩, ?_⟩
    simp [hinode, hentries.inode]

/-- The inode with all of its blocks taken from it. -/
def emptied (d : Dinode) : Dinode := { d with size := 0, addrs := fun _ ↦ 0 }

theorem emptied_inRange {d : Dinode} (h : d.InRange) : (emptied d).InRange := by
  have hword : 0 < Word.size := by decide
  exact { h with size := hword, addrs := fun _ ↦ hword, beyond := fun _ _ ↦ rfl }

theorem remaining_nil {d : Dinode} (h : d.InRange) :
    { (remaining d []).setAddr nDirect 0 with size := 0 } = emptied d := by
  refine Dinode.ext rfl rfl rfl rfl rfl (funext fun k ↦ ?_)
  simp only [remaining, emptied, Dinode.addrs_setAddr]
  by_cases hk : k = nDirect
  · simp [hk]
  · rcases lt_or_gt_of_ne hk with hlt | hgt
    · simp [hk, hlt.not_ge]
    · simp [hk, hgt.le, h.beyond k hgt]

/-- The inode has no blocks any more, in memory and on disk. -/
structure Truncated (sb : Superblock) (i : ℕ) (fs fs' : FileSys Pid) : Prop where
  sound : (fs'.without sb i).Sound sb []
  dinode : (fs'.image sb).dinode = update (fs.image sb).dinode i (emptied (fs.inode i).copy)
  data : (fs'.image sb).data = (fs.image sb).data
  inode : fs'.inode = update fs.inode i ((fs.inode i).withCopy (emptied (fs.inode i).copy))

theorem itrunc_ends (hsb : sb.LaidOut) (hi : i < sb.ninodes) (hsound : (fs.view sb i).Sound sb [])
    (htype : (fs.inode i).copy.type ≠ 0) (hrange : (fs.inode i).copy.InRange) :
    Ends Fault.Harmless (fun _ ↦ Truncated sb i fs) (itrunc sb i fs) := by
  have htaken := hsound.withdrawn (i := i)
  rw [blocks_eq (view_dinode_self ▸ htype), view_dinode_self, view, setDinode_setDinode] at htaken
  unfold itrunc
  rw [ends_bind]
  refine (truncDirect_ends hsb htaken).mono ?_
  rintro _ fs' hdirect
  have hcopy : (fs'.inode i).copy = remaining (fs.inode i).copy [] := by
    simp [hdirect.inode, MemInode.withCopy]
  have hind : indirectBlocks (fs'.inode i).copy (fs'.image sb).data =
      indirectBlocks (fs.inode i).copy (fs.image sb).data := by
    rw [hcopy, hdirect.map.data]
    simp [indirectBlocks, remaining]
  rw [ends_bind]
  refine (truncIndirect_ends hsb (hind ▸ hdirect.sound)).mono ?_
  rintro _ fs'' ⟨hsound', hmap, hinode⟩
  have hcopy' : (fs''.inode i).copy = (remaining (fs.inode i).copy []).setAddr nDirect 0 := by
    simp [hinode, MemInode.withCopy, hcopy]
  rw [ends_bind, ends_setCopy, hcopy', remaining_nil hrange]
  refine (iupdate_ends hsb hi ?_).mono ?_
  · simpa [MemInode.withCopy] using emptied_inRange hrange
  rintro _ fs₁ ⟨hinode₁, himage₁⟩
  have hempty : fs₁.image sb = (fs''.image sb).setDinode i (emptied (fs.inode i).copy) := by
    rw [himage₁]
    simp [MemInode.withCopy]
  refine ⟨?_, ?_, ?_, ?_⟩
  · rw [without, hempty, setDinode_setDinode]
    exact hsound'
  · rw [hempty, setDinode, hmap.dinode, hdirect.map.dinode]
  · rw [hempty]
    exact hmap.data.trans hdirect.map.data
  · rw [hinode₁]
    simp [hinode, hdirect.inode, MemInode.withCopy]

/-- The inode is free, and all other inodes and all files are as before. -/
structure Freed (sb : Superblock) (i : ℕ) (fs fs' : FileSys Pid) : Prop where
  sound : (fs'.image sb).Sound sb []
  type : ((fs'.image sb).dinode i).type = 0
  others : ∀ j ≠ i, (fs'.image sb).dinode j = (fs.image sb).dinode j
  data : (fs'.image sb).data = (fs.image sb).data
  inode : ∃ copy, fs'.inode = update fs.inode i { (fs.inode i).withCopy copy with valid := false }

theorem free_ends (hsb : sb.LaidOut) (hi : i < sb.ninodes) (hsound : (fs.view sb i).Sound sb [])
    (htype : (fs.inode i).copy.type ≠ 0) (hrange : (fs.inode i).copy.InRange) :
    Ends Fault.Harmless (fun _ ↦ Freed sb i fs) (free sb i fs) := by
  unfold free
  rw [ends_bind]
  refine (itrunc_ends hsb hi hsound htype hrange).mono ?_
  rintro _ fs' htrunc
  have hcopy : (fs'.inode i).copy = emptied (fs.inode i).copy := by
    simp [htrunc.inode, MemInode.withCopy]
  rw [ends_bind, ends_setCopy, ends_bind, hcopy]
  have hfree : ({ emptied (fs.inode i).copy with type := 0 } : Dinode).InRange :=
    { emptied_inRange hrange with type := Nat.zero_lt_succ _ }
  refine (iupdate_ends hsb hi ?_).mono ?_
  · simpa [MemInode.withCopy] using hfree
  rintro _ fs'' ⟨hinode, himage⟩
  rw [ends_setInode]
  have himage' : (fs''.image sb) =
      (fs'.image sb).setDinode i { emptied (fs.inode i).copy with type := 0 } := by
    rw [himage]
    simp [MemInode.withCopy]
  refine ⟨?_, ?_, fun j hj ↦ ?_, ?_, ⟨{ emptied (fs.inode i).copy with type := 0 }, ?_⟩⟩
  · rw [image_withInode, himage', ← setDinode_setDinode (fresh 0)]
    apply htrunc.sound.setDinode
    intro k
    rw [held_of_free rfl]
    exact ((owner_setDinode_self _).trans (held_fresh 0)).symm
  · rw [image_withInode, himage', dinode_setDinode_self]
  · rw [image_withInode, himage', dinode_setDinode_of_ne hj, htrunc.dinode, update_of_ne hj]
  · rw [image_withInode, himage']
    exact htrunc.data
  · simp [hinode, htrunc.inode, MemInode.withCopy]

theorem allocInode_ends (hsb : sb.LaidOut) (hsound : (fs.image sb).Sound sb []) (type : FileType) :
    Ends Fault.Harmless (fun i fs' ↦ 0 < i ∧ i < sb.ninodes ∧ ((fs.image sb).dinode i).type = 0 ∧
      fs'.inode = fs.inode ∧ fs'.image sb = (fs.image sb).setDinode i (fresh type.code) ∧
      (fs'.image sb).Sound sb []) (allocInode sb type fs) := by
  unfold allocInode
  rw [ends_bind, ends_get]
  generalize hfound : (List.range sb.ninodes).find? _ = found
  cases found with
  | none => exact ⟨by decide, by decide⟩
  | some i =>
    have hi : i < sb.ninodes := List.mem_range.mp (List.mem_of_find?_eq_some hfound)
    have hcheck := List.find?_some hfound
    simp only [Bool.and_eq_true, decide_eq_true_eq] at hcheck
    have hfree : ((fs.image sb).dinode i).type = 0 := by rw [image_dinode hi, hcheck.2]
    have hrange : (fresh type.code).InRange :=
      fresh_inRange (by cases type <;> decide)
    rw [ends_bind, ends_logWrite, ends_pure, image_written_dinode hsb hi hrange]
    refine ⟨hcheck.1, hi, hfree, rfl, rfl, hsound.setDinode fun k ↦ ?_⟩
    exact (held_fresh _).trans (held_of_free hfree).symm

end FileSys

end Xv6Shm
