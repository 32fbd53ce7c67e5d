import Xv6Shm.Fs.Inode
import Xv6Shm.Lib.Holdings
import Xv6Shm.Lib.Outcome

/-!
# The parts of the disk

The disk seen as its parts: the bits of the free map, the inodes and the data blocks. A write of
the block layer changes one of them and no other. On this view the addresses of an inode are its
slots: the direct addresses, the address of the indirect block, and the entries of that block.
-/

namespace Xv6Shm

open Function

variable {j c : ℕ} {d : Dinode}

/-- The free map, the inodes and the data blocks; outside their ranges they are filled up. -/
structure Image where
  used : ℕ → Bool
  dinode : ℕ → Dinode
  data : ℕ → Block

namespace Image

def setUsed (image : Image) (b : ℕ) (value : Bool) : Image :=
  { image with used := update image.used b value }

def setDinode (image : Image) (i : ℕ) (d : Dinode) : Image :=
  { image with dinode := update image.dinode i d }

def setData (image : Image) (b : ℕ) (block : Block) : Image :=
  { image with data := update image.data b block }

variable {image : Image} {i : ℕ}

@[simp] theorem dinode_setDinode_self (d : Dinode) : (image.setDinode i d).dinode i = d := by
  simp [setDinode]

@[simp] theorem setDinode_setDinode (d d' : Dinode) :
    (image.setDinode i d).setDinode i d' = image.setDinode i d' := by
  simp [setDinode]

theorem dinode_setDinode_of_ne (hne : j ≠ i) (d : Dinode) :
    (image.setDinode i d).dinode j = image.dinode j := by
  simp [setDinode, hne]

end Image

namespace Superblock

/-- The blocks behind the metadata. -/
def IsData (sb : Superblock) (b : ℕ) : Prop := sb.dataStart ≤ b ∧ b < sb.size

instance (sb : Superblock) : DecidablePred sb.IsData := fun _ ↦ instDecidableAnd

variable {sb : Superblock} {b : ℕ}

theorem IsData.ne_bblock (hb : sb.IsData b) (hc : c < sb.size) : sb.bblock c ≠ b :=
  ((bblock_lt hc).trans_le hb.1).ne

theorem IsData.ne_iblock {i : ℕ} (hb : sb.IsData b) (hsb : sb.LaidOut)
    (hi : i < sb.ninodes) : sb.iblock i ≠ b :=
  ((hsb.iblock_lt_dataStart hi).trans_le hb.1).ne

theorem IsData.pos (hb : sb.IsData b) : b ≠ 0 :=
  (dataStart_pos.trans_le hb.1).ne'

end Superblock

namespace FileSys

variable {Pid : Type} (sb : Superblock)

/-- The disk as its parts. -/
def image (fs : FileSys Pid) : Image where
  used := fun b ↦ decide (b < sb.size) && (fs.disk (sb.bblock b)).bit (b % bpb)
  dinode := fun i ↦ if i < sb.ninodes then fs.dinode sb i else Dinode.fresh 0
  data := fun b ↦ if sb.IsData b then fs.disk b else Block.zero

/-- The state after `log_write`. -/
def written (fs : FileSys Pid) (b : ℕ) (data : Block) : FileSys Pid :=
  { fs with disk := update fs.disk b data, logged := b :: fs.logged }

variable {sb} {fs : FileSys Pid}

theorem disk_written_self (b : ℕ) (data : Block) : (fs.written b data).disk b = data := by
  simp [written]

variable {b i : ℕ}

theorem disk_written_of_ne (hne : c ≠ b) (data : Block) :
    (fs.written b data).disk c = fs.disk c := by
  simp [written, hne]

theorem dinode_written_of_ne (hne : sb.iblock i ≠ b) (data : Block) :
    (fs.written b data).dinode sb i = fs.dinode sb i := by
  rw [FileSys.dinode, FileSys.dinode, disk_written_of_ne hne]

theorem image_used (hb : b < sb.size) :
    (fs.image sb).used b = (fs.disk (sb.bblock b)).bit (b % bpb) := by
  simp [image, hb]

theorem image_dinode (hi : i < sb.ninodes) : (fs.image sb).dinode i = fs.dinode sb i :=
  if_pos hi

theorem image_dinode_one (hone : sb.ninodes ≤ ipb) (i : ℕ) : (fs.image sb).dinode i =
    if i < sb.ninodes then Dinode.read (fs.disk sb.inodestart) i else Dinode.fresh 0 := by
  unfold image
  dsimp only
  split
  · rename_i hi
    have hlt := hi.trans_le hone
    rw [dinode, Superblock.iblock, Nat.div_eq_of_lt hlt, Nat.mod_eq_of_lt hlt, Nat.zero_add]
  · rfl

theorem image_data (hb : sb.IsData b) : (fs.image sb).data b = fs.disk b := if_pos hb

theorem image_dinode_inRange (fs : FileSys Pid) (i : ℕ) : ((fs.image sb).dinode i).InRange := by
  unfold image
  dsimp only
  split
  · exact Dinode.read_inRange _ _
  · exact Dinode.fresh_inRange (by decide)

theorem bblock_bit_ne (hne : c ≠ b) (hblock : sb.bblock c = sb.bblock b) : c % bpb ≠ b % bpb := by
  intro hmod
  have hdiv : c / bpb = b / bpb := Nat.add_right_cancel hblock
  exact hne (by rw [← Nat.div_add_mod c bpb, ← Nat.div_add_mod b bpb, hdiv, hmod])

theorem image_written_bit (hsb : sb.LaidOut) (hb : b < sb.size) {block : Block}
    {value : Bool} (hself : block.bit (b % bpb) = value)
    (hother : ∀ k ≠ b % bpb, block.bit k = (fs.disk (sb.bblock b)).bit k) :
    (fs.written (sb.bblock b) block).image sb = (fs.image sb).setUsed b value := by
  unfold image Image.setUsed
  congr 1
  · funext c
    by_cases hcb : c = b
    · subst hcb
      simp [hb, disk_written_self, hself]
    · dsimp only
      rw [update_of_ne hcb]
      congr 1
      by_cases hblock : sb.bblock c = sb.bblock b
      · rw [hblock, disk_written_self, hother _ (bblock_bit_ne hcb hblock)]
      · rw [disk_written_of_ne hblock]
  · funext i
    by_cases hi : i < sb.ninodes
    · simp only [hi, if_true, dinode_written_of_ne (hsb.iblock_ne_bblock hi b)]
    · simp only [hi, if_false]
  · funext c
    by_cases hc : sb.IsData c
    · simp only [hc, if_true, disk_written_of_ne (hc.ne_bblock hb).symm]
    · simp only [hc, if_false]

theorem image_written_setBit (hsb : sb.LaidOut) (hb : b < sb.size) :
    (fs.written (sb.bblock b) ((fs.disk (sb.bblock b)).setBit (b % bpb))).image sb =
      (fs.image sb).setUsed b true :=
  image_written_bit hsb hb (by simp [Block.bit_setBit]) fun k hk ↦ by simp [Block.bit_setBit, hk]

theorem image_written_clearBit (hsb : sb.LaidOut) (hb : b < sb.size) :
    (fs.written (sb.bblock b) ((fs.disk (sb.bblock b)).clearBit (b % bpb))).image sb =
      (fs.image sb).setUsed b false :=
  image_written_bit hsb hb (by simp [Block.bit_clearBit])
    fun k hk ↦ by simp [Block.bit_clearBit, hk]

theorem image_written_data (hsb : sb.LaidOut) (hb : sb.IsData b) (block : Block) :
    (fs.written b block).image sb = (fs.image sb).setData b block := by
  unfold image Image.setData
  congr 1
  · funext c
    by_cases hc : c < sb.size
    · simp only [disk_written_of_ne (hb.ne_bblock hc)]
    · simp only [hc, decide_false, Bool.false_and]
  · funext i
    by_cases hi : i < sb.ninodes
    · simp only [hi, if_true, dinode_written_of_ne (hb.ne_iblock hsb hi)]
    · simp only [hi, if_false]
  · funext c
    by_cases hcb : c = b
    · subst hcb
      simp only [hb, if_true, disk_written_self, update_self]
    · simp only [disk_written_of_ne hcb, update_of_ne hcb]

theorem dinode_written_dinode (hne : j ≠ i) :
    (fs.written (sb.iblock i) (d.store (fs.disk (sb.iblock i)) (i % ipb))).dinode sb j =
      fs.dinode sb j := by
  by_cases hblock : sb.iblock j = sb.iblock i
  · have hslot : j % ipb ≠ i % ipb := by
      intro hmod
      have hdiv : j / ipb = i / ipb := Nat.add_right_cancel hblock
      exact hne (by rw [← Nat.div_add_mod j ipb, ← Nat.div_add_mod i ipb, hdiv, hmod])
    rw [FileSys.dinode, FileSys.dinode, hblock, disk_written_self, Dinode.read_store_of_ne _ _ hslot]
  · exact dinode_written_of_ne hblock _

theorem image_written_dinode (hsb : sb.LaidOut) (hi : i < sb.ninodes) (hd : d.InRange) :
    (fs.written (sb.iblock i) (d.store (fs.disk (sb.iblock i)) (i % ipb))).image sb =
      (fs.image sb).setDinode i d := by
  unfold image Image.setDinode
  congr 1
  · funext c
    simp only [disk_written_of_ne (hsb.iblock_ne_bblock hi c).symm]
  · funext j
    by_cases hji : j = i
    · subst hji
      simp only [hi, if_true, update_self, FileSys.dinode, disk_written_self,
        Dinode.read_store_self d hd]
    · simp only [update_of_ne hji, dinode_written_dinode hji]
  · funext c
    by_cases hc : sb.IsData c
    · simp only [hc, if_true, disk_written_of_ne (hc.ne_iblock hsb hi).symm]
    · simp only [hc, if_false]

end FileSys

end Xv6Shm
