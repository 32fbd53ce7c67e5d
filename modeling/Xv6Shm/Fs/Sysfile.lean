import Xv6Shm.File.Ftable
import Xv6Shm.Fs.Dir
import Xv6Shm.Lib.Interaction

/-!
# Paths and the system calls on files

Path lookup and the system calls that create, link, remove and open files, as programs whose calls
are the sections of code under `icache.lock` and the operations on an inode whose lock the process
holds. `begin_op` and `end_op` do nothing at this level.
-/

namespace Xv6Shm

/-- The calls of the inode and directory layers. -/
inductive FsCall where
  | iget (i : ℕ)
  | idup (i : ℕ)
  | ilock (i : ℕ)
  | iunlock (i : ℕ)
  | acquiresleep (i : ℕ)
  | orphaned (i : ℕ)
  | free (i : ℕ)
  | releasesleep (i : ℕ)
  | drop (i : ℕ)
  | allocInode (type : FileType)
  | peek (i : ℕ)
  | initInode (i major minor : ℕ)
  | addLink (i : ℕ)
  | removeLink (i : ℕ)
  | lookup (dp : ℕ) (name : Name)
  | emptyEntry (dp : ℕ)
  | isdirempty (dp : ℕ)
  | putEntry (dp off : ℕ) (de : Dirent)
  | eraseEntry (dp off : ℕ)
  | readi (i off n : ℕ)
  | writei (i : ℕ) (src : ℕ → UInt8) (off n : ℕ)
  | panic (message : String)

def FsAnswer : FsCall → Type
  | .orphaned _ => Bool
  | .allocInode _ => ℕ
  | .peek _ => Dinode
  | .lookup _ _ => Option (ℕ × ℕ)
  | .emptyEntry _ => ℕ
  | .isdirempty _ => Bool
  | .readi _ _ _ => Transfer (ℕ → UInt8)
  | .writei _ _ _ _ => Transfer Unit
  | _ => Unit

namespace FileSys

variable {Pid : Type} (sb : Superblock)

/-- The test of `iput`: no links, and no reference but this one. -/
def orphaned (i : ℕ) : Action Pid Bool := do
  let ip ← FileSys.peek i
  return ip.valid && decide (ip.copy.nlink = 0) && decide (ip.ref = 1)

/-- The end of `iput`. -/
def drop (i : ℕ) : Action Pid Unit := setInode i fun ip ↦ { ip with ref := ip.ref - 1 }

/-- Change the copy of an inode in memory and write it to disk. -/
def change (i : ℕ) (new : Dinode → Dinode) : Action Pid Unit := do
  setCopy i new
  iupdate sb i

/-- A call by a process. -/
def perform [DecidableEq Pid] (p : Pid) : (op : FsCall) → Action Pid (FsAnswer op)
  | .iget i => iget sb i
  | .idup i => idup i
  | .ilock i => ilock sb p i
  | .iunlock i => iunlock p i
  | .acquiresleep i => acquiresleep p i
  | .orphaned i => orphaned i
  | .free i => free sb i
  | .releasesleep i => releasesleep i
  | .drop i => drop i
  | .allocInode type => allocInode sb type
  | .peek i => do return (← FileSys.peek i).copy
  | .initInode i major minor =>
    change sb i fun d ↦ { d with major := major % 65536, minor := minor % 65536, nlink := 1 }
  | .addLink i => change sb i fun d ↦ { d with nlink := (d.nlink + 1) % 65536 }
  | .removeLink i => change sb i fun d ↦ { d with nlink := (d.nlink + 65535) % 65536 }
  | .lookup dp name => lookup sb dp name
  | .emptyEntry dp => emptyEntry sb dp
  | .isdirempty dp => isdirempty sb dp
  | .putEntry dp off de => putEntry sb dp off de "dirlink"
  | .eraseEntry dp off => putEntry sb dp off .zero "unlink: writei"
  | .readi i off n => readi sb i off n
  | .writei i src off n => writei sb i src off n
  | .panic message => throw (.panic message)

end FileSys

/-- A program of the file system. -/
abbrev FsProgram := Program FsAnswer

namespace FsProgram

def call (op : FsCall) : FsProgram (FsAnswer op) := Program.lift op

def iput (i : ℕ) : FsProgram Unit := do
  call (.acquiresleep i)
  let last : Bool ← call (.orphaned i)
  if last then
    call (.free i)
    call (.releasesleep i)
    call (.drop i)
  else
    call (.releasesleep i)
    call (.drop i)

def iunlockput (i : ℕ) : FsProgram Unit := do
  call (.iunlock i)
  iput i

def ialloc (type : FileType) : FsProgram ℕ := do
  let i ← call (.allocInode type)
  call (.iget i)
  return i

def dirlookup (dp : ℕ) (name : Name) : FsProgram (Option (ℕ × ℕ)) := do
  match ← call (.lookup dp name) with
  | some (i, off) => do
    call (.iget i)
    return some (i, off)
  | none => return none

/-- `dirlink`, which returns whether it has made an entry. -/
def dirlink (dp : ℕ) (name : Name) (i : ℕ) : FsProgram Bool := do
  match ← dirlookup dp name with
  | some (old, _) => do
    iput old
    return false
  | none => do
    let off ← call (.emptyEntry dp)
    call (.putEntry dp off ⟨i, strncpy name⟩)
    return true

/-- The character `/`. -/
def slash : UInt8 := 47

/-- The first element of a path and the rest behind the slashes that follow it. -/
def skipelem (path : List UInt8) : Option (Name × List UInt8) :=
  match path.dropWhile (· = slash) with
  | [] => none
  | s => some (Name.ofList ((s.takeWhile (· ≠ slash)).take dirSiz),
      (s.dropWhile (· ≠ slash)).dropWhile (· = slash))

/-- The end of `namex`. -/
def namexDone (parent : Bool) (ip : ℕ) (name : Name) : FsProgram (Option (ℕ × Name)) :=
  if parent then do
    iput ip
    return none
  else return some (ip, name)

/-- The loop of `namex`, with at most as many rounds as the path has characters. -/
def namexLoop (parent : Bool) :
    (rounds ip : ℕ) → (path : List UInt8) → (name : Name) → FsProgram (Option (ℕ × Name))
  | 0, ip, _, name => namexDone parent ip name
  | rounds + 1, ip, path, name =>
    match skipelem path with
    | none => namexDone parent ip name
    | some (name, rest) => do
      call (.ilock ip)
      let d : Dinode ← call (.peek ip)
      if d.type ≠ FileType.dir.code then do
        iunlockput ip
        return none
      else if parent && rest.isEmpty then do
        call (.iunlock ip)
        return some (ip, name)
      else
        match ← dirlookup ip name with
        | none => do
          iunlockput ip
          return none
        | some (next, _) => do
          iunlockput ip
          namexLoop parent rounds next rest name

/-- `namex`; the path is read up to its NUL. -/
def namex (cwd : ℕ) (path : List UInt8) (parent : Bool) : FsProgram (Option (ℕ × Name)) :=
  let chars := path.takeWhile (· ≠ 0)
  if chars.head? = some slash then do
    call (.iget rootIno)
    namexLoop parent (chars.length + 1) rootIno chars fun _ ↦ 0
  else do
    call (.idup cwd)
    namexLoop parent (chars.length + 1) cwd chars fun _ ↦ 0

def namei (cwd : ℕ) (path : List UInt8) : FsProgram (Option ℕ) := do
  return (← namex cwd path false).map Prod.fst

def nameiparent (cwd : ℕ) (path : List UInt8) : FsProgram (Option (ℕ × Name)) := namex cwd path true

/-- The end of `sys_link` when the new name cannot be made. -/
def linkBad (ip : ℕ) : FsProgram Unit := do
  call (.ilock ip)
  call (.removeLink ip)
  iunlockput ip

def sysLink (cwd : ℕ) (old new : List UInt8) : FsProgram Unit := do
  match ← namei cwd old with
  | none => return ()
  | some ip => do
    call (.ilock ip)
    let d : Dinode ← call (.peek ip)
    if d.type = FileType.dir.code then iunlockput ip
    else do
      call (.addLink ip)
      call (.iunlock ip)
      match ← nameiparent cwd new with
      | none => linkBad ip
      | some (dp, name) => do
        call (.ilock dp)
        if ← dirlink dp name ip then do
          iunlockput dp
          iput ip
        else do
          iunlockput dp
          linkBad ip

/-- `sys_unlink` from where the entry is erased. -/
def unlinkErase (dp ip off : ℕ) (isDir : Bool) : FsProgram Unit := do
  call (.eraseEntry dp off)
  if isDir then do
    call (.removeLink dp)
    iunlockput dp
    call (.removeLink ip)
    iunlockput ip
  else do
    iunlockput dp
    call (.removeLink ip)
    iunlockput ip

/-- `sys_unlink` from where the inode of the entry is locked. -/
def unlinkInode (dp ip off : ℕ) : FsProgram Unit := do
  let d : Dinode ← call (.peek ip)
  -- the link count is a short
  if d.nlink = 0 ∨ 32768 ≤ d.nlink then call (.panic "unlink: nlink < 1")
  else if d.type = FileType.dir.code then
    let empty : Bool ← call (.isdirempty ip)
    if empty then unlinkErase dp ip off true
    else
      iunlockput ip
      iunlockput dp
  else unlinkErase dp ip off false

def sysUnlink (cwd : ℕ) (path : List UInt8) : FsProgram Unit := do
  match ← nameiparent cwd path with
  | none => return ()
  | some (dp, name) => do
    call (.ilock dp)
    if namecmp name dotName = 0 ∨ namecmp name dotdotName = 0 then iunlockput dp
    else
      match ← dirlookup dp name with
      | none => iunlockput dp
      | some (ip, off) => do
        call (.ilock ip)
        unlinkInode dp ip off

/-- The entries `.` and `..` of a new directory. -/
def createDots (dp ip : ℕ) : FsProgram Unit := do
  if ← dirlink ip dotName ip then
    if ← dirlink ip dotdotName dp then return ()
    else call (.panic "create dots")
  else call (.panic "create dots")

/-- The end of `create`: the entry for the new inode. -/
def createEntry (dp ip : ℕ) (name : Name) : FsProgram (Option ℕ) := do
  if ← dirlink dp name ip then do
    iunlockput dp
    return some ip
  else do
    call (.panic "create: dirlink")
    return none

/-- `create` when there is no entry with the name. -/
def createNew (dp : ℕ) (name : Name) (type : FileType) (major minor : ℕ) :
    FsProgram (Option ℕ) := do
  let ip ← ialloc type
  call (.ilock ip)
  call (.initInode ip major minor)
  if type = .dir then do
    call (.addLink dp)
    createDots dp ip
    createEntry dp ip name
  else createEntry dp ip name

/-- `create` when there is an entry with the name. -/
def createExisting (dp ip : ℕ) (type : FileType) : FsProgram (Option ℕ) := do
  iunlockput dp
  call (.ilock ip)
  let d : Dinode ← call (.peek ip)
  if type = .file ∧ d.type = FileType.file.code then return some ip
  else do
    iunlockput ip
    return none

/-- `create`, which returns a locked inode. -/
def create (cwd : ℕ) (path : List UInt8) (type : FileType) (major minor : ℕ) :
    FsProgram (Option ℕ) := do
  match ← nameiparent cwd path with
  | none => return none
  | some (dp, name) => do
    call (.ilock dp)
    match ← dirlookup dp name with
    | some (ip, _) => createExisting dp ip type
    | none => createNew dp name type major minor

end FsProgram

/-- An open file, with the flags of `struct file`. -/
structure OpenFile where
  inum : ℕ
  readable : Bool
  writable : Bool

/-- The current directory and the open files of a process. -/
structure FsRecord where
  cwd : ℕ
  files : List OpenFile

/-- The system calls. For `open` it is given whether a file structure and a descriptor are free.
Reads and writes are at any offset and for any length; `dirlink` is a part of `link`. -/
inductive FsRequest where
  | open (path : List UInt8) (omode : ℕ) (room : Bool)
  | mkdir (path : List UInt8)
  | mknod (path : List UInt8) (major minor : ℕ)
  | link (old new : List UInt8)
  | unlink (path : List UInt8)
  | chdir (path : List UInt8)
  | close (fd : ℕ)
  | read (fd : ℕ) (off n : UInt32)
  | write (fd : ℕ) (src : ℕ → UInt8) (off n : UInt32)
  | dirlink (name : Name) (fd : ℕ)

namespace FsProgram

/-- `sys_open` without `O_CREATE`, up to where the inode is locked. -/
def openExisting (cwd : ℕ) (path : List UInt8) (omode : ℕ) : FsProgram (Option ℕ) := do
  match ← namei cwd path with
  | none => return none
  | some ip => do
    call (.ilock ip)
    let d : Dinode ← call (.peek ip)
    if d.type = FileType.dir.code ∧ omode ≠ 0 then do
      iunlockput ip
      return none
    else return some ip

/-- The end of `sys_open`. -/
def openFile (record : FsRecord) (omode : ℕ) (room : Bool) : Option ℕ → FsProgram FsRecord
  | none => return record
  | some ip =>
    if room then do
      call (.iunlock ip)
      return { record with files :=
        ⟨ip, omode &&& oWronly = 0, omode &&& oWronly ≠ 0 ∨ omode &&& oRdwr ≠ 0⟩ :: record.files }
    else do
      iunlockput ip
      return record

def sysOpen (record : FsRecord) (path : List UInt8) (omode : ℕ) (room : Bool) :
    FsProgram FsRecord := do
  if omode &&& oCreate ≠ 0 then openFile record omode room (← create record.cwd path .file 0 0)
  else openFile record omode room (← openExisting record.cwd path omode)

/-- `sys_mkdir` and `sys_mknod`. -/
def sysMake (cwd : ℕ) (path : List UInt8) (type : FileType) (major minor : ℕ) : FsProgram Unit := do
  match ← create cwd path type major minor with
  | none => return ()
  | some ip => iunlockput ip

def sysChdir (record : FsRecord) (path : List UInt8) : FsProgram FsRecord := do
  match ← namei record.cwd path with
  | none => return record
  | some ip => do
    call (.ilock ip)
    let d : Dinode ← call (.peek ip)
    if d.type ≠ FileType.dir.code then do
      iunlockput ip
      return record
    else do
      call (.iunlock ip)
      iput record.cwd
      return { record with cwd := ip }

def sysClose (record : FsRecord) (fd : ℕ) : FsProgram FsRecord :=
  match record.files[fd]? with
  | none => return record
  | some file => do
    iput file.inum
    return { record with files := record.files.eraseIdx fd }

def sysRead (record : FsRecord) (fd off n : ℕ) : FsProgram Unit :=
  match record.files[fd]? with
  | none => return ()
  | some file =>
    if file.readable then do
      call (.ilock file.inum)
      let _ ← call (.readi file.inum off n)
      call (.iunlock file.inum)
    else return ()

/-- One section of `filewrite`. -/
def sysWrite (record : FsRecord) (fd : ℕ) (src : ℕ → UInt8) (off n : ℕ) : FsProgram Unit :=
  match record.files[fd]? with
  | none => return ()
  | some file =>
    if file.writable then do
      call (.ilock file.inum)
      let _ ← call (.writei file.inum src off n)
      call (.iunlock file.inum)
    else return ()

def sysDirlink (record : FsRecord) (name : Name) (fd : ℕ) : FsProgram Unit :=
  match record.files[fd]? with
  | none => return ()
  | some file => do
    call (.ilock record.cwd)
    let _ ← dirlink record.cwd name file.inum
    call (.iunlock record.cwd)

/-- The program for a system call, which ends with the new record of the process. -/
def syscall (record : FsRecord) : FsRequest → FsProgram FsRecord
  | .open path omode room => sysOpen record path omode room
  | .mkdir path => do
    sysMake record.cwd path .dir 0 0
    return record
  | .mknod path major minor => do
    sysMake record.cwd path .dev major minor
    return record
  | .link old new => do
    sysLink record.cwd old new
    return record
  | .unlink path => do
    sysUnlink record.cwd path
    return record
  | .chdir path => sysChdir record path
  | .close fd => sysClose record fd
  | .read fd off n => do
    sysRead record fd off.toNat n.toNat
    return record
  | .write fd src off n => do
    sysWrite record fd src off.toNat n.toNat
    return record
  | .dirlink name fd => do
    sysDirlink record name fd
    return record

end FsProgram

/-- The file system and the programs of the processes. -/
abbrev FsPool (Pid : Type) := Pool (FileSys Pid) Pid FsAnswer FsRecord

/-- One step of a process. -/
def FsPool.step {Pid : Type} [DecidableEq Pid] (sb : Superblock) :
    FsPool Pid → PoolLabel Pid FsRequest → Except Fault (FsPool Pid × Unit) :=
  Pool.step (FileSys.perform sb) FsProgram.syscall .blocked

end Xv6Shm
