import Xv6Shm.Fs.Inode

/-!
# Directories

A directory is a file of entries of 16 bytes, each with the number of an inode and a name of at most
14 bytes. An entry whose inode number is zero is free. The functions of this module run under the
lock of the directory.
-/

namespace Xv6Shm

def dirSiz : ℕ := 14

/-- The size of `struct dirent`. -/
def direntSize : ℕ := 16

/-- A buffer of characters. -/
abbrev Name := ℕ → UInt8

def strncmp (s t : Name) : ℕ → ℤ
  | 0 => 0
  | n + 1 =>
    if s 0 ≠ 0 ∧ s 0 = t 0 then strncmp (fun k ↦ s (k + 1)) (fun k ↦ t (k + 1)) n
    else (s 0).toNat - (t 0).toNat

def namecmp (s t : Name) : ℤ := strncmp s t dirSiz

/-- The characters up to the first NUL, and NUL from there on. -/
def strncpy (t : Name) : Name := fun k ↦ if ∀ j ≤ k, t j ≠ 0 then t k else 0

/-- A string constant, or a path element in a buffer. -/
def Name.ofList (chars : List UInt8) : Name := fun k ↦ chars.getD k 0

def dotName : Name := Name.ofList [46]
def dotdotName : Name := Name.ofList [46, 46]

structure Dirent where
  inum : ℕ
  name : Name

namespace Dirent

def ofBytes (bytes : ℕ → UInt8) : Dirent := ⟨Block.half bytes 0, fun k ↦ bytes (k + 2)⟩

/-- The bytes of an entry; the number of the inode is a `ushort`. -/
def bytes (de : Dirent) : ℕ → UInt8 := fun t ↦
  if t < 2 then Block.littleEndian de.inum t else de.name (t - 2)

/-- The entry is in use and has the name. -/
def named (name : Name) (de : Dirent) : Bool :=
  decide (de.inum ≠ 0) && decide (namecmp name de.name = 0)

/-- `memset(&de, 0, sizeof(de))`. -/
def zero : Dirent := ⟨0, fun _ ↦ 0⟩

end Dirent

namespace FileSys

variable {Pid : Type} (sb : Superblock)

/-- The entry at an offset of a directory. -/
def readEntry (dp off : ℕ) (message : String) : Action Pid Dirent := do
  match ← readi sb dp off direntSize with
  | .moved n data => if n = direntSize then pure (.ofBytes data) else throw (.panic message)
  | _ => throw (.panic message)

/-- Look for an entry from `off` on, with at most as many rounds as the directory has bytes. The
result is the entry, and the offset at which the loop stopped. -/
def scan (dp : ℕ) (message : String) (found : Dirent → Bool) :
    (rounds off : ℕ) → Action Pid (ℕ × Option Dirent)
  | 0, off => pure (off, none)
  | rounds + 1, off => do
    let size := (← peek dp).copy.size
    if off < size then
      let de ← readEntry sb dp off message
      if found de then pure (off, some de) else scan dp message found rounds (off + direntSize)
    else pure (off, none)

/-- `dirlookup` up to the call of `iget`: the number of the inode and the offset of the entry. -/
def lookup (dp : ℕ) (name : Name) : Action Pid (Option (ℕ × ℕ)) := do
  let d := (← peek dp).copy
  if d.type ≠ FileType.dir.code then throw (.panic "dirlookup not DIR")
  else
    let (off, de) ← scan sb dp "dirlookup read" (Dirent.named name) d.size 0
    return de.map fun de ↦ (de.inum, off)

/-- The loop of `dirlink`: the offset for a new entry. -/
def emptyEntry (dp : ℕ) : Action Pid ℕ := do
  let d := (← peek dp).copy
  let (off, _) ← scan sb dp "dirlink read" (fun de ↦ decide (de.inum = 0)) d.size 0
  return off

def isdirempty (dp : ℕ) : Action Pid Bool := do
  let d := (← peek dp).copy
  let (_, de) ← scan sb dp "isdirempty: readi" (fun de ↦ decide (de.inum ≠ 0)) d.size
    (2 * direntSize)
  return de.isNone

/-- Write an entry; anything but a complete write is a panic. -/
def putEntry (dp off : ℕ) (de : Dirent) (message : String) : Action Pid Unit := do
  match ← writei sb dp de.bytes off direntSize with
  | .moved n _ => if n = direntSize then pure () else throw (.panic message)
  | _ => throw (.panic message)

end FileSys

end Xv6Shm
