import Xv6Shm.Proc.Lifecycle

/-!
# exec

`exec.c` with the functions of `vm.c` that only it uses. The executable is the byte array that
`readi` reads; a path that names no file is the absence of one. The new image is built first, and
only a complete one replaces the old address space and drops the attachments.
-/

namespace Xv6Shm

open Fallible

structure ExecFile where
  size : ℕ
  byte : ℕ → UInt8

namespace ExecFile

/-- The number of bytes `readi` transfers, or `none` where it returns -1. -/
def readi (file : ExecFile) (off n : ℕ) : Option ℕ :=
  if off > file.size ∨ Word.add off n < off then none
  else some (if off + n > file.size then file.size - off else n)

/-- The bytes of the file from `off` on. -/
def content (file : ExecFile) (off count : ℕ) : List UInt8 :=
  (List.range count).map fun i ↦ file.byte (off + i)

def uint16 (file : ExecFile) (off : ℕ) : ℕ :=
  (file.byte off).toNat + 2 ^ 8 * (file.byte (off + 1)).toNat

def uint32 (file : ExecFile) (off : ℕ) : ℕ := file.uint16 off + 2 ^ 16 * file.uint16 (off + 2)

end ExecFile

def elfMagic : ℕ := 0x464C457F
def elfProgLoad : ℕ := 1

/-- The sizes of `struct elfhdr` and `struct proghdr`. -/
def elfhdrSize : ℕ := 52
def proghdrSize : ℕ := 32

/-- The loop of `loaduvm` over the pages to be loaded, `i` being the offset of the next; the flag is
false where the source returns -1. -/
def loaduvmLoop (pgdir : Pgdir) (addr : ℕ) (file : ExecFile) (offset sz : ℕ) :
    ℕ → Kmem → ℕ → Except Fault (Kmem × Bool)
  | 0, kmem, _ => pure (kmem, true)
  | remaining + 1, kmem, i =>
    let va := Word.add addr i
    if pgdir.hasTable va = false then .error (.panic "loaduvm: address should exist")
    else
      let n := min (sz - i) pgSize
      match file.readi (Word.add offset i) n with
      | none => pure (kmem, false)
      | some count =>
        let kmem := kmem.write (p2v (pteAddr (pgdir.pte va)))
          (file.content (Word.add offset i) count)
        if count = n then loaduvmLoop pgdir addr file offset sz remaining kmem (i + pgSize)
        else pure (kmem, false)

def loaduvm (kmem : Kmem) (pgdir : Pgdir) (addr : ℕ) (file : ExecFile) (offset sz : ℕ) :
    Except Fault (Kmem × Bool) :=
  if addr % pgSize ≠ 0 then .error (.panic "loaduvm: addr must be page aligned")
  else loaduvmLoop pgdir addr file offset sz ((sz + (pgSize - 1)) / pgSize) kmem 0

/-- The kernel address of a present user page, or null; the source does not ask whether there is a
page table. -/
def uva2ka (pgdir : Pgdir) (uva : ℕ) : Except Fault ℕ :=
  if pgdir.hasTable uva = false then .error .nullPointer
  else if isPresent (pgdir.pte uva) = false ∨ pgdir.pte uva &&& pteU = 0 then pure 0
  else pure (p2v (pteAddr (pgdir.pte uva)))

/-- The loop of `copyout`; an iteration passes a page boundary or stores the rest. -/
def copyoutLoop (pgdir : Pgdir) : ℕ → Kmem → ℕ → List UInt8 → Except Fault (Kmem × Bool)
  | 0, kmem, _, _ => pure (kmem, true)
  | fuel + 1, kmem, va, content =>
    if content = [] then pure (kmem, true)
    else do
      let va0 := pgRoundDown va
      let pa0 ← uva2ka pgdir va0
      if pa0 = 0 then pure (kmem, false)
      else
        let n := min (pgSize - (va - va0)) content.length
        copyoutLoop pgdir fuel (kmem.write (pa0 + (va - va0)) (content.take n))
          (Word.add va0 pgSize) (content.drop n)

def copyout (kmem : Kmem) (pgdir : Pgdir) (va : ℕ) (content : List UInt8) :
    Except Fault (Kmem × Bool) := copyoutLoop pgdir content.length kmem va content

/-- The bytes of a word in memory. -/
def wordBytes (word : ℕ) : List UInt8 :=
  [UInt8.ofNat word, UInt8.ofNat (word / 2 ^ 8), UInt8.ofNat (word / 2 ^ 16),
    UInt8.ofNat (word / 2 ^ 24)]

/-- Load the remaining program headers, `off` being the file offset of the next; the flag is false
where the source jumps to `bad`. -/
def loadSegments (file : ExecFile) : ℕ → Vm → ℕ → ℕ → Except Fault (Vm × ℕ × Bool)
  | 0, vm, sz, _ => pure (vm, sz, true)
  | remaining + 1, vm, sz, off =>
    if file.readi off proghdrSize ≠ some proghdrSize then pure (vm, sz, false)
    else
      let next := Word.add off proghdrSize
      let offset := file.uint32 (off + 4)
      let vaddr := file.uint32 (off + 8)
      let filesz := file.uint32 (off + 16)
      let memsz := file.uint32 (off + 20)
      if file.uint32 off ≠ elfProgLoad then loadSegments file remaining vm sz next
      else if memsz < filesz then pure (vm, sz, false)
      else if Word.add vaddr memsz < vaddr then pure (vm, sz, false)
      else do
        let (vm, sz) ← allocuvm vm sz (Word.add vaddr memsz)
        if sz = 0 then pure (vm, sz, false)
        else if vaddr % pgSize ≠ 0 then pure (vm, sz, false)
        else
          let (kmem, ok) ← loaduvm vm.kmem vm.pgdir vaddr file offset filesz
          if ok then loadSegments file remaining ⟨kmem, vm.pgdir⟩ sz next
          else pure (⟨kmem, vm.pgdir⟩, sz, false)

/-- Push the remaining argument strings; `argc` are on the stack, at the addresses `pushed`, the
last one first. -/
def pushArgs (pgdir : Pgdir) :
    List (List UInt8) → Kmem → ℕ → List ℕ → Except Fault (Kmem × ℕ × List ℕ × Bool)
  | [], kmem, sp, pushed => pure (kmem, sp, pushed, true)
  | argument :: rest, kmem, sp, pushed =>
    if pushed.length ≥ maxArg then pure (kmem, sp, pushed, false)
    else do
      let sp := Word.sub sp (argument.length + 1) &&& Word.highMask 2
      let (kmem, ok) ← copyout kmem pgdir sp (argument ++ [0])
      if ok then pushArgs pgdir rest kmem sp (sp :: pushed) else pure (kmem, sp, pushed, false)

/-- A complete new image. -/
structure ExecImage where
  pgdir : Pgdir
  sz : ℕ
  eip : ℕ
  esp : ℕ

/-- The stack words below the argument strings. -/
def ustack (sp : ℕ) (args : List ℕ) : List ℕ :=
  [0xffffffff, args.length, Word.sub sp ((args.length + 1) * 4)] ++ args ++ [0]

/-- The stack of a new image whose program is loaded up to `sz`. -/
def buildStack (vm : Vm) (sz eip : ℕ) (argv : List (List UInt8)) :
    Except Fault (Vm × Option ExecImage) := do
  let sz := pgRoundUp sz
  let (vm, sz) ← allocuvm vm sz (Word.add sz (2 * pgSize))
  if sz = 0 then pure (vm, none)
  else
    let pgdir ← clearpteu vm.pgdir (Word.sub sz (2 * pgSize))
    let (kmem, sp, pushed, ok) ← pushArgs pgdir argv vm.kmem sz []
    if ok then
      let words := ustack sp pushed.reverse
      let sp := Word.sub sp (words.length * 4)
      let (kmem, ok) ← copyout kmem pgdir sp (words.flatMap wordBytes)
      if ok then pure (⟨kmem, pgdir⟩, some ⟨pgdir, sz, eip, sp⟩) else pure (⟨kmem, pgdir⟩, none)
    else pure (⟨kmem, pgdir⟩, none)

/-- Build the image of an executable, or give everything back. -/
def execImage (kmem : Kmem) (file : ExecFile) (argv : List (List UInt8)) :
    Except Fault (Kmem × Option ExecImage) := do
  if file.readi 0 elfhdrSize ≠ some elfhdrSize ∨ file.uint32 0 ≠ elfMagic then pure (kmem, none)
  else
    match ← setupkvm kmem with
    | (kmem, none) => pure (kmem, none)
    | (kmem, some pgdir) =>
      let (vm, sz, ok) ← loadSegments file (file.uint16 44) ⟨kmem, pgdir⟩ 0 (file.uint32 28)
      if ok then
        match ← buildStack vm sz (file.uint32 24) argv with
        | (vm, some image) => pure (vm.kmem, some image)
        | (vm, none) => do
          let kmem ← freevm vm
          pure (kmem, none)
      else do
        let kmem ← freevm vm
        pure (kmem, none)

/-- The loop of `exec` over the window slots from `i` on: attached identifiers that differ from the
one before are counted off. -/
def dropLoop (clock : Clock) (shmsegs : ℕ → AttachedShmsegs) :
    ℕ → ℕ → ℤ → ShmPgTable → Except Fault ShmPgTable
  | 0, _, _, table => pure table
  | remaining + 1, i, lastShmid, table =>
    if (shmsegs i).isAttached then
      let tempShmid := (shmsegs i).shmid
      if tempShmid = lastShmid then dropLoop clock shmsegs remaining (i + 1) lastShmid table
      else do
        let table ← updateShmSeg table clock tempShmid (-1) 1
        dropLoop clock shmsegs remaining (i + 1) tempShmid table
    else dropLoop clock shmsegs remaining (i + 1) lastShmid table

/-- The attachment array `exec` leaves: attached slots are cleared. -/
def droppedShmsegs (shmsegs : ℕ → AttachedShmsegs) : ℕ → AttachedShmsegs :=
  fun i ↦ if i < shmMaxSeg ∧ (shmsegs i).isAttached then .none else shmsegs i

def exec (kernel : Kernel) (p : ℕ) (clock : Clock) (file : Option ExecFile)
    (argv : List (List UInt8)) : Except Fault (Kernel × ℤ) :=
  match file with
  | none => pure (kernel, -1)
  | some file => do
    match ← execImage kernel.kmem file argv with
    | (kmem, none) => pure ({ kernel with kmem := kmem }, -1)
    | (kmem, some image) =>
      let curproc := kernel.proc p
      let table ← dropLoop clock curproc.shmsegs shmMaxSeg 0 (-2) kernel.shmpgtable
      let kmem ← freevm ⟨kmem, curproc.pgdir⟩
      let kernel := { kernel with kmem := kmem, shmpgtable := table }
      let curproc := { curproc with
        pgdir := image.pgdir, sz := image.sz, shmsegs := droppedShmsegs curproc.shmsegs }
      pure (kernel.setProc p curproc, 0)

end Xv6Shm
