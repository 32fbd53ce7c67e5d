import Xv6Shm.Fs.Block

/-!
# The layout of the disk

The superblock, the bits of the free map and the inodes inside their blocks, byte by byte as `fs.h`
lays them out. A bit that is set or cleared and an inode that is stored are read back, and the
others keep their values.
-/

namespace Xv6Shm

open Function Block

def nDirect : ℕ := 12
def nIndirect : ℕ := bsize / 4
def maxFile : ℕ := nDirect + nIndirect
/-- The size of `struct dinode`. -/
def dinodeSize : ℕ := 64
/-- Inodes per block. -/
def ipb : ℕ := bsize / dinodeSize
/-- Bits of the free map per block. -/
def bpb : ℕ := bsize * 8
def rootIno : ℕ := 1

structure Superblock where
  size : ℕ
  nblocks : ℕ
  ninodes : ℕ
  nlog : ℕ
  logstart : ℕ
  inodestart : ℕ
  bmapstart : ℕ
deriving DecidableEq, Repr

namespace Superblock

variable (sb : Superblock)

/-- `IBLOCK`. -/
def iblock (inum : ℕ) : ℕ := inum / ipb + sb.inodestart

/-- `BBLOCK`. -/
def bblock (b : ℕ) : ℕ := b / bpb + sb.bmapstart

/-- The first block after the boot block, the superblock, the log, the inodes and the free map. -/
def dataStart : ℕ := sb.bmapstart + sb.size / bpb + 1

/-- The regions of the disk follow each other. Block numbers are positive as an `int`. -/
structure LaidOut : Prop where
  log : 2 ≤ sb.logstart ∧ sb.logstart + sb.nlog ≤ sb.inodestart
  inodes : sb.inodestart + sb.ninodes / ipb + 1 ≤ sb.bmapstart
  root : rootIno < sb.ninodes
  size : sb.size ≤ 2147483648

variable {sb}

theorem LaidOut.size_lt (h : sb.LaidOut) : sb.size < Word.size :=
  h.size.trans_lt (by decide)

theorem le_bblock (b : ℕ) : sb.bmapstart ≤ sb.bblock b := Nat.le_add_left _ _

theorem bblock_lt {b : ℕ} (hb : b < sb.size) : sb.bblock b < sb.dataStart := by
  have hdiv : b / bpb ≤ sb.size / bpb := Nat.div_le_div_right hb.le
  rw [bblock, dataStart]
  omega

variable {inum : ℕ}

section

variable (h : sb.LaidOut) (hinum : inum < sb.ninodes)

include h hinum

theorem LaidOut.iblock_lt : sb.iblock inum < sb.bmapstart := by
  have hdiv : inum / ipb ≤ sb.ninodes / ipb := Nat.div_le_div_right hinum.le
  have hinodes := h.inodes
  rw [iblock]
  omega

theorem LaidOut.iblock_ne_bblock (b : ℕ) : sb.iblock inum ≠ sb.bblock b :=
  ((h.iblock_lt hinum).trans_le (le_bblock b)).ne

theorem LaidOut.iblock_lt_dataStart : sb.iblock inum < sb.dataStart :=
  (h.iblock_lt hinum).trans_le ((Nat.le_add_right _ _).trans (Nat.le_succ _))

end

theorem dataStart_pos : 0 < sb.dataStart := Nat.succ_pos _

end Superblock

namespace Block

/-- `1 << (bi % 8)`. -/
def mask (bi : ℕ) : UInt8 := UInt8.ofNat (2 ^ (bi % 8))

/-- `(data[bi/8] & m) != 0`. -/
def bit (block : Block) (bi : ℕ) : Bool := block (bi / 8) &&& mask bi != 0

/-- `data[bi/8] |= m`. -/
def setBit (block : Block) (bi : ℕ) : Block :=
  update block (bi / 8) (block (bi / 8) ||| mask bi)

/-- `data[bi/8] &= ~m`. -/
def clearBit (block : Block) (bi : ℕ) : Block :=
  update block (bi / 8) (block (bi / 8) &&& ~~~ mask bi)

theorem toNat_mask (bi : ℕ) : (mask bi).toNat = 2 ^ (bi % 8) := by
  have hlt : 2 ^ (bi % 8) < 2 ^ 8 := Nat.pow_lt_pow_right (by omega) (Nat.mod_lt bi (by omega))
  rw [mask, UInt8.toNat_ofNat', Nat.mod_eq_of_lt hlt]

theorem bit_eq (block : Block) (bi : ℕ) :
    block.bit bi = (block (bi / 8)).toNat.testBit (bi % 8) := by
  have hiff : block (bi / 8) &&& mask bi = 0 ↔ (block (bi / 8)).toNat.testBit (bi % 8) = false := by
    rw [← UInt8.toNat_inj, UInt8.toNat_and, toNat_mask, Nat.and_two_pow]
    cases (block (bi / 8)).toNat.testBit (bi % 8) <;> simp
  rw [bit]
  cases hbit : (block (bi / 8)).toNat.testBit (bi % 8) with
  | false => simpa using hiff.mpr hbit
  | true => simpa [hbit] using hiff

theorem testBit_or_mask (byte : UInt8) (bi k : ℕ) :
    (byte ||| mask bi).toNat.testBit k = (decide (bi % 8 = k) || byte.toNat.testBit k) := by
  rw [UInt8.toNat_or, toNat_mask, Nat.testBit_or, Nat.testBit_two_pow, Bool.or_comm]

theorem testBit_and_not_mask (byte : UInt8) (bi : ℕ) {k : ℕ} (hk : k < 8) :
    (byte &&& ~~~ mask bi).toNat.testBit k = (!decide (bi % 8 = k) && byte.toNat.testBit k) := by
  have hlt : 2 ^ (bi % 8) < 2 ^ 8 := Nat.pow_lt_pow_right (by omega) (Nat.mod_lt bi (by omega))
  have hnot : UInt8.size - 1 - 2 ^ (bi % 8) = 2 ^ 8 - (2 ^ (bi % 8) + 1) := by
    rw [UInt8.size]
    omega
  rw [UInt8.toNat_and, UInt8.toNat_not, toNat_mask, Nat.testBit_and, hnot,
    Nat.testBit_two_pow_sub_succ hlt, Nat.testBit_two_pow, decide_eq_true hk, Bool.true_and,
    Bool.and_comm]

theorem same_bit {bi bj : ℕ} (hbyte : bj / 8 = bi / 8) : bi % 8 = bj % 8 ↔ bj = bi := by omega

theorem bit_setBit (block : Block) (bi bj : ℕ) :
    (block.setBit bi).bit bj = (decide (bj = bi) || block.bit bj) := by
  rw [bit_eq, bit_eq, setBit]
  by_cases hbyte : bj / 8 = bi / 8
  · rw [hbyte, update_self, testBit_or_mask]
    simp only [same_bit hbyte]
  · rw [update_of_ne hbyte, decide_eq_false (fun h ↦ hbyte (by rw [h])), Bool.false_or]

theorem bit_clearBit (block : Block) (bi bj : ℕ) :
    (block.clearBit bi).bit bj = (!decide (bj = bi) && block.bit bj) := by
  rw [bit_eq, bit_eq, clearBit]
  by_cases hbyte : bj / 8 = bi / 8
  · rw [hbyte, update_self, testBit_and_not_mask _ _ (Nat.mod_lt bj (by omega))]
    simp only [same_bit hbyte]
  · rw [update_of_ne hbyte, decide_eq_false (fun h ↦ hbyte (by rw [h])), Bool.not_false,
      Bool.true_and]

variable {block : Block} {off m : ℕ} {src : ℕ → UInt8}

theorem half_move_inside {field : ℕ} (hfield : field + 2 ≤ m) :
    (block.move off m src).half (off + field) = half src field := by
  have hlow : off + field - off = field := by omega
  have hhigh : off + field + 1 - off = field + 1 := by omega
  rw [half, half, move_of_mem (by omega) (by omega), move_of_mem (by omega) (by omega), hlow, hhigh]

theorem word_move_inside {field : ℕ} (hfield : field + 4 ≤ m) :
    (block.move off m src).word (off + field) = word src field := by
  rw [word, word, half_move_inside (by omega), Nat.add_assoc, half_move_inside (by omega)]

end Block

/-- `struct dinode`; the shorts and words as natural numbers. -/
@[ext]
structure Dinode where
  type : ℕ
  major : ℕ
  minor : ℕ
  nlink : ℕ
  size : ℕ
  addrs : ℕ → ℕ

namespace Dinode

/-- An inode whose fields are all zero but the type. -/
def fresh (type : ℕ) : Dinode := ⟨type, 0, 0, 0, 0, fun _ ↦ 0⟩

def setAddr (d : Dinode) (k addr : ℕ) : Dinode :=
  { d with addrs := update d.addrs k addr }

@[simp] theorem addrs_setAddr (d : Dinode) (k addr : ℕ) :
    (d.setAddr k addr).addrs = update d.addrs k addr := rfl

/-- The bytes of the structure. -/
def bytes (d : Dinode) : Block :=
  (((((zero.setHalf 0 d.type).setHalf 2 d.major).setHalf 4 d.minor).setHalf 6 d.nlink).setWord
    8 d.size).move 12 (4 * (nDirect + 1)) fun t ↦ littleEndian (d.addrs (t / 4)) (t % 4)

/-- The inode in a slot of a block. -/
def read (block : Block) (slot : ℕ) : Dinode where
  type := block.half (dinodeSize * slot)
  major := block.half (dinodeSize * slot + 2)
  minor := block.half (dinodeSize * slot + 4)
  nlink := block.half (dinodeSize * slot + 6)
  size := block.word (dinodeSize * slot + 8)
  addrs := fun k ↦ if k ≤ nDirect then block.word (dinodeSize * slot + (12 + 4 * k)) else 0

/-- The block with an inode written into a slot. -/
def store (d : Dinode) (block : Block) (slot : ℕ) : Block :=
  block.move (dinodeSize * slot) dinodeSize d.bytes

/-- The fields fit into the structure. -/
structure InRange (d : Dinode) : Prop where
  type : d.type < 65536
  major : d.major < 65536
  minor : d.minor < 65536
  nlink : d.nlink < 65536
  size : d.size < Word.size
  addrs : ∀ k, d.addrs k < Word.size
  beyond : ∀ k, nDirect < k → d.addrs k = 0

theorem read_inRange (block : Block) (slot : ℕ) : (read block slot).InRange where
  type := block.half_lt _
  major := block.half_lt _
  minor := block.half_lt _
  nlink := block.half_lt _
  size := block.word_lt _
  addrs := fun k ↦ by
    unfold read
    dsimp only
    split
    · exact block.word_lt _
    · decide
  beyond := fun k hk ↦ if_neg hk.not_ge

theorem fresh_inRange {type : ℕ} (htype : type < 65536) : (fresh type).InRange := by
  have hword : 0 < Word.size := by decide
  exact ⟨htype, Nat.zero_lt_succ _, Nat.zero_lt_succ _, Nat.zero_lt_succ _, hword, fun _ ↦ hword,
    fun _ _ ↦ rfl⟩

theorem word_bytes (d : Dinode) (h : d.InRange) {k : ℕ} (hk : k ≤ nDirect) :
    d.bytes.word (12 + 4 * k) = d.addrs k := by
  have hbyte : ∀ i < 4, (4 * k + i) / 4 = k ∧ (4 * k + i) % 4 = i := by omega
  have hword : word (fun t ↦ littleEndian (d.addrs (t / 4)) (t % 4)) (4 * k) =
      (zero.setWord 0 (d.addrs k)).word 0 := by
    unfold setWord word half
    rw [move_of_mem (by omega) (by omega), move_of_mem (by omega) (by omega),
      move_of_mem (by omega) (by omega), move_of_mem (by omega) (by omega)]
    have h0 := hbyte 0 (by omega)
    have h1 := hbyte 1 (by omega)
    have h2 := hbyte 2 (by omega)
    have h3 := hbyte 3 (by omega)
    simp only [Nat.add_zero] at h0
    simp only [h0, h1, h2, h3, Nat.add_assoc, Nat.reduceAdd, Nat.zero_add, Nat.sub_zero]
  rw [bytes, word_move_inside (by unfold nDirect at *; omega), hword, word_setWord (h.addrs k)]

section Fields

variable {d : Dinode} (h : d.InRange)

include h

theorem half_bytes_type : d.bytes.half 0 = d.type := by
  rw [bytes, half_move_of_disjoint (by decide), setWord,
    half_move_of_disjoint (by decide), setHalf, half_move_of_disjoint (by decide),
    setHalf, half_move_of_disjoint (by decide), setHalf,
    half_move_of_disjoint (by decide), half_setHalf h.type]

theorem half_bytes_major : d.bytes.half 2 = d.major := by
  rw [bytes, half_move_of_disjoint (by decide), setWord,
    half_move_of_disjoint (by decide), setHalf, half_move_of_disjoint (by decide),
    setHalf, half_move_of_disjoint (by decide), half_setHalf h.major]

theorem half_bytes_minor : d.bytes.half 4 = d.minor := by
  rw [bytes, half_move_of_disjoint (by decide), setWord,
    half_move_of_disjoint (by decide), setHalf, half_move_of_disjoint (by decide),
    half_setHalf h.minor]

theorem half_bytes_nlink : d.bytes.half 6 = d.nlink := by
  rw [bytes, half_move_of_disjoint (by decide), setWord,
    half_move_of_disjoint (by decide), half_setHalf h.nlink]

theorem word_bytes_size : d.bytes.word 8 = d.size := by
  rw [bytes, word_move_of_disjoint (by decide), word_setWord h.size]

end Fields

theorem read_store_self (d : Dinode) (h : d.InRange) (block : Block) (slot : ℕ) :
    read (d.store block slot) slot = d := by
  have hhalf : ∀ field, field + 2 ≤ dinodeSize →
      (d.store block slot).half (dinodeSize * slot + field) = d.bytes.half field :=
    fun field hfield ↦ half_move_inside hfield
  have hword : ∀ field, field + 4 ≤ dinodeSize →
      (d.store block slot).word (dinodeSize * slot + field) = d.bytes.word field :=
    fun field hfield ↦ word_move_inside hfield
  have htype : (d.store block slot).half (dinodeSize * slot) = d.bytes.half 0 :=
    hhalf 0 (by decide)
  have haddrs : (fun k ↦ if k ≤ nDirect then
      (d.store block slot).word (dinodeSize * slot + (12 + 4 * k)) else 0) = d.addrs := by
    funext k
    split
    · rename_i hk
      have hfits : 12 + 4 * k + 4 ≤ dinodeSize := by
        unfold nDirect at hk
        unfold dinodeSize
        omega
      rw [hword _ hfits, word_bytes d h hk]
    · rename_i hk
      exact (h.beyond k (not_le.mp hk)).symm
  rw [read, haddrs, htype, hhalf 2 (by decide), hhalf 4 (by decide), hhalf 6 (by decide),
    hword 8 (by decide), half_bytes_type h, half_bytes_major h, half_bytes_minor h,
    half_bytes_nlink h, word_bytes_size h]

theorem read_store_of_ne (d : Dinode) (block : Block) {slot other : ℕ} (hne : other ≠ slot) :
    read (d.store block slot) other = read block other := by
  have hapart : dinodeSize * other + dinodeSize ≤ dinodeSize * slot ∨
      dinodeSize * slot + dinodeSize ≤ dinodeSize * other := by
    unfold dinodeSize
    omega
  have hhalf : ∀ field, field + 2 ≤ dinodeSize →
      (d.store block slot).half (dinodeSize * other + field) =
        block.half (dinodeSize * other + field) :=
    fun field hfield ↦ half_move_of_disjoint (by omega)
  have hword : ∀ field, field + 4 ≤ dinodeSize →
      (d.store block slot).word (dinodeSize * other + field) =
        block.word (dinodeSize * other + field) :=
    fun field hfield ↦ word_move_of_disjoint (by omega)
  have htype : (d.store block slot).half (dinodeSize * other) = block.half (dinodeSize * other) :=
    hhalf 0 (by decide)
  rw [read, htype, hhalf 2 (by decide), hhalf 4 (by decide), hhalf 6 (by decide),
    hword 8 (by decide)]
  congr 1
  funext k
  split
  · rename_i hk
    exact hword _ (by unfold nDirect at hk; unfold dinodeSize; omega)
  · rfl

theorem read_store {d : Dinode} (h : d.InRange) (block : Block) (slot other : ℕ) :
    read (d.store block slot) other = if other = slot then d else read block other := by
  split
  · rename_i hslot
    rw [hslot, read_store_self d h]
  · exact read_store_of_ne d block ‹_›

theorem read_zero (slot : ℕ) : read zero slot = fresh 0 := by
  ext k
  all_goals simp [read, fresh, half, word, zero]

end Dinode

end Xv6Shm
