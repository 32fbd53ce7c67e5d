import Xv6Shm.Lib.Cells
import Xv6Shm.Lib.Word

/-!
# Disk blocks

The constants of `param.h` and `fs.h` that concern the disk, and blocks as arrays of bytes. A block
is a function of the byte offset, of which the disk holds the first `bsize` bytes. A field of one,
two or four bytes that is written is read back, and one that does not overlap it keeps its value.
-/

namespace Xv6Shm

def bsize : ℕ := 512
def maxOpBlocks : ℕ := 10
def logSize : ℕ := maxOpBlocks * 3
def nBuf : ℕ := maxOpBlocks * 3
def fsSize : ℕ := 1000
def rootDev : ℕ := 1

/-- The contents of a block, byte by byte. -/
abbrev Block := ℕ → UInt8

/-- The contents of a disk, block by block. -/
abbrev Disk := ℕ → Block

namespace Block

/-- `memset(data, 0, BSIZE)`. -/
def zero : Block := fun _ ↦ 0

/-- `memmove(data + off, src, m)`. -/
def move (block : Block) (off m : ℕ) (src : ℕ → UInt8) : Block :=
  Cells.onRange off m (fun i _ ↦ src i) block

/-- The two bytes from `off` on, the low one first. -/
def half (block : Block) (off : ℕ) : ℕ :=
  (block off).toNat + 256 * (block (off + 1)).toNat

/-- The four bytes from `off` on, the lowest one first. -/
def word (block : Block) (off : ℕ) : ℕ :=
  block.half off + 65536 * block.half (off + 2)

/-- The bytes of a number, the lowest one first. -/
def littleEndian (value : ℕ) : ℕ → UInt8 := fun i ↦ UInt8.ofNat (value / 256 ^ i)

def setHalf (block : Block) (off value : ℕ) : Block := block.move off 2 (littleEndian value)

def setWord (block : Block) (off value : ℕ) : Block := block.move off 4 (littleEndian value)

variable {block : Block} {off m : ℕ} {src : ℕ → UInt8}

theorem move_of_mem {i : ℕ} (hstart : off ≤ i) (hend : i < off + m) :
    block.move off m src i = src (i - off) := Cells.onRange_of_mem hstart hend

theorem move_of_not_mem {i : ℕ} (h : i < off ∨ off + m ≤ i) :
    block.move off m src i = block i := Cells.onRange_of_not_mem h

variable {field value : ℕ}

theorem half_move_of_disjoint (h : field + 2 ≤ off ∨ off + m ≤ field) :
    (block.move off m src).half field = block.half field := by
  rw [half, half, move_of_not_mem (by omega), move_of_not_mem (by omega)]

theorem word_move_of_disjoint (h : field + 4 ≤ off ∨ off + m ≤ field) :
    (block.move off m src).word field = block.word field := by
  rw [word, word, half_move_of_disjoint (by omega), half_move_of_disjoint (by omega)]

theorem half_lt (block : Block) (off : ℕ) : block.half off < 65536 := by
  have hlow := (block off).toNat_lt
  have hhigh := (block (off + 1)).toNat_lt
  rw [half]
  omega

theorem word_lt (block : Block) (off : ℕ) : block.word off < Word.size := by
  have hlow := block.half_lt off
  have hhigh := block.half_lt (off + 2)
  rw [word, Word.size]
  omega

theorem toNat_littleEndian (value i : ℕ) : (littleEndian value i).toNat = value / 256 ^ i % 256 := by
  rw [littleEndian, UInt8.toNat_ofNat']

theorem half_setHalf (h : value < 65536) : (block.setHalf off value).half off = value := by
  rw [half, setHalf, move_of_mem (by omega) (by omega), move_of_mem (by omega) (by omega),
    toNat_littleEndian, toNat_littleEndian, Nat.sub_self, Nat.add_sub_cancel_left]
  omega

theorem word_setWord (h : value < Word.size) : (block.setWord off value).word off = value := by
  have hsize : Word.size = 4294967296 := by decide
  have hone : off + 1 - off = 1 := by omega
  have htwo : off + 2 - off = 2 := by omega
  have hthree : off + 2 + 1 - off = 3 := by omega
  rw [word, half, half, setWord, move_of_mem (by omega) (by omega),
    move_of_mem (by omega) (by omega), move_of_mem (by omega) (by omega),
    move_of_mem (by omega) (by omega), toNat_littleEndian, toNat_littleEndian, toNat_littleEndian,
    toNat_littleEndian, Nat.sub_self, hone, htwo, hthree]
  omega

theorem word_setWord_of_disjoint (h : field + 4 ≤ off ∨ off + 4 ≤ field) :
    (block.setWord off value).word field = block.word field := word_move_of_disjoint h

end Block

end Xv6Shm
