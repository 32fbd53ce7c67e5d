import Mathlib.Data.Fintype.Prod
import Xv6Shm.Lib.Outcome
import Xv6Shm.Lib.References
import Xv6Shm.Proc.State

/-!
# Open files

The file table and the descriptor tables: `file.c`, `pipealloc` and `pipeclose`, the system calls
`open`, `pipe`, `dup` and `close`, and what `fork` and `exit` do with descriptors. A step is one
call. What other parts of the kernel answer, an inode for a path or whether `fork` found memory, is
carried by the request; a label of its own lets them take and give back pages.

References to an inode are handed out by `namei`, `create` and `idup` and taken back by `iput`. A
pipe lives in a page.
-/

namespace Xv6Shm

open Function

open Fallible

def nFile : ℕ := 100

def oWronly : ℕ := 0x001
def oRdwr : ℕ := 0x002
def oCreate : ℕ := 0x200
def oRdonly : ℕ := 0x000

/-- `FD_NONE`, `FD_PIPE` and `FD_INODE`. -/
inductive FdType where
  | none
  | pipe
  | inode
deriving DecidableEq

/-- `struct file`; the offset is not read by the calls of this module. -/
structure File (Inode : Type) where
  type : FdType
  ref : ℕ
  readable : Bool
  writable : Bool
  pipe : ℕ
  ip : Inode

/-- The two flags of `struct pipe`. -/
structure PipeEnds where
  readopen : Bool
  writeopen : Bool
deriving DecidableEq

/-- The flag of the end for writing, or of the end for reading. -/
def PipeEnds.isOpen (ends : PipeEnds) (writable : Bool) : Bool :=
  if writable then ends.writeopen else ends.readopen

/-- Clear the flag of one end. -/
def PipeEnds.shut (ends : PipeEnds) (writable : Bool) : PipeEnds :=
  if writable then { ends with writeopen := false } else { ends with readopen := false }

/-- The file table, the descriptors and directories, the references to inodes, the pipes by their
pages, the allocator, and the pages that the rest of the kernel has taken. -/
structure OpenFiles (Inode : Type) where
  file : Fin nFile → File Inode
  ofile : Fin nProc × Fin nOfile → Option (Fin nFile)
  cwd : Fin nProc → Option Inode
  state : Fin nProc → ProcState
  nextpid : ℕ
  initproc : Fin nProc
  iref : Inode → ℤ
  ends : ℕ → PipeEnds
  kmem : Kmem
  others : List ℕ

namespace OpenFiles

variable {Inode : Type}

def setFile (files : OpenFiles Inode) (f : Fin nFile) (file : File Inode) : OpenFiles Inode :=
  { files with file := update files.file f file }

def setRef (files : OpenFiles Inode) (f : Fin nFile) (ref : ℕ) : OpenFiles Inode :=
  files.setFile f { files.file f with ref := ref }

/-- The last reference to a file goes: `ref = 0` and `type = FD_NONE`. -/
def vacate (files : OpenFiles Inode) (f : Fin nFile) : OpenFiles Inode :=
  files.setFile f { files.file f with ref := 0, type := .none }

def setSlot (files : OpenFiles Inode) (p : Fin nProc) (fd : Fin nOfile)
    (entry : Option (Fin nFile)) : OpenFiles Inode :=
  { files with ofile := update files.ofile (p, fd) entry }

def setCwd (files : OpenFiles Inode) (p : Fin nProc) (cwd : Option Inode) : OpenFiles Inode :=
  { files with cwd := update files.cwd p cwd }

def setState (files : OpenFiles Inode) (p : Fin nProc) (state : ProcState) : OpenFiles Inode :=
  { files with state := update files.state p state }

def setEnds (files : OpenFiles Inode) (page : ℕ) (ends : PipeEnds) : OpenFiles Inode :=
  { files with ends := update files.ends page ends }

def addInodeRef [DecidableEq Inode] (files : OpenFiles Inode) (ip : Inode) (count : ℤ) :
    OpenFiles Inode :=
  { files with iref := files.iref + Pi.single ip count }

abbrev Action (Inode : Type) := StateT (OpenFiles Inode) (Except Fault)

def kalloc : Action Inode (Option ℕ) := do
  match (← get).kmem.kalloc with
  | none => return none
  | some (page, kmem) =>
    modify fun files ↦ { files with kmem := kmem }
    return some page

def kfree (page : ℕ) : Action Inode Unit := do
  match (← get).kmem.kfree page with
  | .error fault => throw fault
  | .ok kmem => modify fun files ↦ { files with kmem := kmem }

/-- Take the first file without references. -/
def filealloc : Action Inode (Option (Fin nFile)) := do
  let files ← get
  match (List.finRange nFile).find? fun f ↦ (files.file f).ref == 0 with
  | none => return none
  | some f =>
    set (files.setRef f 1)
    return some f

def filedup (f : Fin nFile) : Action Inode Unit := do
  let files ← get
  if (files.file f).ref < 1 then throw (.panic "filedup")
  else set (files.setRef f ((files.file f).ref + 1))

def pipeclose (page : ℕ) (writable : Bool) : Action Inode Unit := do
  let files ← get
  let ends := (files.ends page).shut writable
  set (files.setEnds page ends)
  if ends.readopen = false ∧ ends.writeopen = false then kfree page

variable [DecidableEq Inode]

/-- A reference to an inode, as `namei`, `create` and `idup` hand it out. -/
def iget (ip : Inode) : Action Inode Unit := modify fun files ↦ files.addInodeRef ip 1

def iput (ip : Inode) : Action Inode Unit := modify fun files ↦ files.addInodeRef ip (-1)

/-- Close a file; with its last reference, what it holds is released. -/
def fileclose (f : Fin nFile) : Action Inode Unit := do
  let files ← get
  let ff := files.file f
  if ff.ref < 1 then throw (.panic "fileclose")
  else if ff.ref - 1 > 0 then set (files.setRef f (ff.ref - 1))
  else do
    set (files.vacate f)
    match ff.type with
    | .pipe => pipeclose ff.pipe ff.writable
    | .inode => iput ff.ip
    | .none => return

/-- Enter a file into the first free slot of the process. -/
def fdalloc (p : Fin nProc) (f : Fin nFile) : Action Inode (Option (Fin nOfile)) := do
  let files ← get
  match (List.finRange nOfile).find? fun fd ↦ files.ofile (p, fd) == none with
  | none => return none
  | some fd =>
    set (files.setSlot p fd (some f))
    return some fd

/-- The descriptor and the file that an argument names. -/
def argfd (files : OpenFiles Inode) (p : Fin nProc) (fd : ℤ) : Option (Fin nOfile × Fin nFile) :=
  if h : 0 ≤ fd ∧ fd < nOfile then
    let fd : Fin nOfile := ⟨fd.toNat, by omega⟩
    (files.ofile (p, fd)).map fun f ↦ (fd, f)
  else none

def sysDup (p : Fin nProc) (fd : ℤ) : Action Inode ℤ := do
  match argfd (← get) p fd with
  | none => return -1
  | some (_, f) =>
    match ← fdalloc p f with
    | none => return -1
    | some fd => do
      filedup f
      return (fd.val : ℤ)

def sysClose (p : Fin nProc) (fd : ℤ) : Action Inode ℤ := do
  match argfd (← get) p fd with
  | none => return -1
  | some (fd, f) => do
    modify fun files ↦ files.setSlot p fd none
    fileclose f
    return 0

/-- `sys_open` with the inode that the path leads to, or that `create` returns, and whether it is a
directory. -/
def sysOpen (p : Fin nProc) (fetched : Bool) (omode : ℕ) (found : Option (Inode × Bool)) :
    Action Inode ℤ :=
  if fetched = false then return -1
  else
    match found with
    | none => return -1
    | some (ip, isDir) => do
      iget ip
      if omode &&& oCreate = 0 ∧ isDir = true ∧ omode ≠ oRdonly then do
        iput ip
        return -1
      else
        match ← filealloc with
        | none => do
          iput ip
          return -1
        | some f =>
          match ← fdalloc p f with
          | none => do
            fileclose f
            iput ip
            return -1
          | some fd => do
            modify fun files ↦ files.setFile f { files.file f with
              type := .inode
              ip := ip
              readable := omode &&& oWronly = 0
              writable := omode &&& oWronly ≠ 0 ∨ omode &&& oRdwr ≠ 0 }
            return (fd.val : ℤ)

/-- Two files for the ends of a new pipe; at `bad` no page has been allocated. -/
def pipealloc : Action Inode (Option (Fin nFile × Fin nFile)) := do
  match ← filealloc with
  | none => return none
  | some f0 =>
    match ← filealloc with
    | none => do
      fileclose f0
      return none
    | some f1 =>
      match ← kalloc with
      | none => do
        fileclose f0
        fileclose f1
        return none
      | some page => do
        modify fun files ↦ files.setEnds page ⟨true, true⟩
        modify fun files ↦ files.setFile f0 { files.file f0 with
          type := .pipe, readable := true, writable := false, pipe := page }
        modify fun files ↦ files.setFile f1 { files.file f1 with
          type := .pipe, readable := false, writable := true, pipe := page }
        return some (f0, f1)

def sysPipe (p : Fin nProc) (fetched : Bool) : Action Inode ℤ := do
  if fetched = false then return -1
  else
    match ← pipealloc with
    | none => return -1
    | some (rf, wf) =>
      match ← fdalloc p rf with
      | none => do
        fileclose rf
        fileclose wf
        return -1
      | some fd0 =>
        match ← fdalloc p wf with
        | none => do
          modify fun files ↦ files.setSlot p fd0 none
          fileclose rf
          fileclose wf
          return -1
        | some _ => return 0

/-- One round of the loop of `fork`. -/
def inheritSlot (p np : Fin nProc) (fd : Fin nOfile) : Action Inode Unit := do
  match (← get).ofile (p, fd) with
  | none => return
  | some f => do
    filedup f
    modify fun files ↦ files.setSlot np fd (some f)

/-- `fork` for files; `copied` says whether there was memory for the child. -/
def fork (p : Fin nProc) (copied : Bool) : Action Inode ℤ := do
  let files ← get
  match (List.finRange nProc).find? fun q ↦ files.state q == .unused with
  | none => return -1
  | some np => do
    let pid := files.nextpid
    set { files with nextpid := pid + 1 }
    if copied = false then return -1
    else do
      (List.finRange nOfile).forM (inheritSlot p np)
      match (← get).cwd p with
      | none => throw .nullPointer
      | some ip => do
        iget ip
        modify fun files ↦ (files.setCwd np (some ip)).setState np .runnable
        return (pid : ℤ)

/-- One round of the loop of `exit`. -/
def exitSlot (p : Fin nProc) (fd : Fin nOfile) : Action Inode Unit := do
  match (← get).ofile (p, fd) with
  | none => return
  | some f => do
    fileclose f
    modify fun files ↦ files.setSlot p fd none

def exit (p : Fin nProc) : Action Inode ℤ := do
  if p = (← get).initproc then throw (.panic "init exiting")
  else do
    (List.finRange nOfile).forM (exitSlot p)
    match (← get).cwd p with
    | none => throw .nullPointer
    | some ip => do
      iput ip
      modify fun files ↦ (files.setCwd p none).setState p .zombie
      return 0

/-- `wait` that finds the zombie `q`. -/
def wait (q : Fin nProc) : Action Inode ℤ := do
  if (← get).state q = .zombie then do
    modify fun files ↦ files.setState q .unused
    return 0
  else return -1

inductive Request (Inode : Type) where
  | open (fetched : Bool) (omode : ℕ) (found : Option (Inode × Bool))
  | pipe (fetched : Bool)
  | dup (fd : ℤ)
  | close (fd : ℤ)
  | fork (copied : Bool)
  | exit
  | wait (q : Fin nProc)

inductive Label (Inode : Type) where
  | call (p : Fin nProc) (request : Request Inode)
  | take
  | give (page : ℕ)

def perform (p : Fin nProc) : Request Inode → Action Inode ℤ
  | .open fetched omode found => sysOpen p fetched omode found
  | .pipe fetched => sysPipe p fetched
  | .dup fd => sysDup p fd
  | .close fd => sysClose p fd
  | .fork copied => fork p copied
  | .exit => exit p
  | .wait q => wait q

/-- The rest of the kernel allocates a page. -/
def take : Action Inode ℤ := do
  match ← kalloc with
  | none => return 0
  | some page => do
    modify fun files ↦ { files with others := page :: files.others }
    return 0

/-- The rest of the kernel releases a page. -/
def give (page : ℕ) : Action Inode ℤ := do
  modify fun files ↦ { files with others := files.others.erase page }
  kfree page
  return 0

/-- The caller is a process that runs, and the page belongs to the rest of the kernel. -/
def Label.enabled (files : OpenFiles Inode) : Label Inode → Bool
  | .call p _ => files.state p == .runnable
  | .take => true
  | .give page => files.others.contains page

def act : Label Inode → Action Inode ℤ
  | .call p request => perform p request
  | .take => take
  | .give page => give page

def step (files : OpenFiles Inode) (label : Label Inode) : Except Fault (OpenFiles Inode × ℤ) :=
  if label.enabled files then (act label files).map Prod.swap else .error .blocked

/-- No file is open; the processes that run have a directory. -/
structure Initial (files : OpenFiles Inode) : Prop where
  file : ∀ f, (files.file f).ref = 0 ∧ (files.file f).type = .none
  ofile : ∀ slot, files.ofile slot = none
  running : ∀ p, files.state p = .runnable ∨ files.state p = .unused
  cwd : ∀ p, (files.cwd p).isSome ↔ files.state p = .runnable
  iref : ∀ ip, files.iref ip = references files.cwd ip
  freelist : files.kmem.freelist.Nodup
  others : files.others = []

end OpenFiles

end Xv6Shm
