import Xv6Shm.Syscall.Args
import Xv6Shm.System.Boot

/-!
# System call handlers

The handlers of `sysproc.c` and `sysfile.c` as far as user memory is concerned: which arguments they
fetch and which user bytes they, or the functions they pass a pointer to, read and write. What the
other parts of the kernel answer is an argument; it decides how far they go through a buffer or a
path.
-/

namespace Xv6Shm

/-- What the rest of the kernel answers during a call. -/
structure Environment where
  kernel : Kernel
  /-- The number of bytes of a block that are gone through, by the address of the block. -/
  reach : ℕ → ℕ
  /-- The descriptor of `fstat` belongs to an inode. -/
  isInode : Bool
  /-- The two ends of a new pipe have descriptors. -/
  piped : Bool
  /-- The executable that the path names. -/
  program : Option ExecFile

/-- What a handler asks for: a call of the transition system or one of other parts of the kernel. -/
inductive Request where
  | call (call : Call)
  | other

abbrev Handler := Caller → Environment → UserAccess Request

/-- The fields of a structure in user memory, given by offset and length. -/
def fieldsAt (base : ℕ) (fields : List (ℕ × ℕ)) : List Access :=
  fields.map fun field ↦ ⟨Word.add base field.1, field.2⟩

/-- The fields of `struct stat` in the order in which `stati` writes them, and its size. -/
def statFields : List (ℕ × ℕ) := [(4, 4), (8, 4), (0, 2), (12, 2), (16, 4)]
def statSize : ℕ := 20

/-- The fields of `struct shmid_ds` that `shmctl` copies. -/
def shmidDsFields : List (ℕ × ℕ) :=
  [(0, 8), (8, 4), (12, 4), (16, 4), (20, 4), (24, 4), (28, 4), (32, 4)]

/-- The size of a pointer, which is what `sys_shmctl` checks. -/
def pointerSize : ℕ := 4

/-- Going through a block, up to `bound` bytes of it. -/
def Environment.passes (env : Environment) (start bound : ℕ) : UserAccess Unit :=
  .emit [⟨start, min (env.reach start) bound⟩]

/-- Going through a string, at most up to its nul byte. -/
def Environment.passesString (env : Environment) (string : UserString) : UserAccess Unit :=
  env.passes string.start (string.length + 1)

namespace Caller

/-- Fetch the nth argument as a file descriptor. -/
def argfd (caller : Caller) (n : ℕ) : UserAccess ℕ := do
  let fd ← caller.argint n
  if fd < 0 ∨ fd ≥ nOfile ∨ caller.ofile fd.toNat = false then .stop (.returns (-1))
  else pure fd.toNat

/-- The bytes of a string. -/
def content (caller : Caller) (string : UserString) : List UInt8 :=
  (List.range string.length).map fun i ↦ caller.byte (string.start + i)

/-- The structure at `buf`; its last field is not read. -/
def shmidDs (caller : Caller) (buf : ℕ) : ShmidDs :=
  let field (offset : ℕ) : ℕ := caller.word (Word.add buf offset)
  { shmPerm := { key := Word.toInt (field 0), mode := field 4 }
    shmSegsz := field 8
    shmAtime := Word.toInt (field 12)
    shmDtime := Word.toInt (field 16)
    shmCtime := Word.toInt (field 20)
    shmCpid := Word.toInt (field 24)
    shmLpid := Word.toInt (field 28)
    shmNattch := field 32
    pa := 0 }

/-- The loop of `IPC_SET`, which reads the structure once for each page and needs the lock. -/
def copyIn (locked : Bool) (buf pages : ℕ) : UserAccess Unit :=
  if locked then .stop .blocks
  else .emit (List.replicate pages (fieldsAt buf shmidDsFields)).flatten

/-- The user bytes that `shmctlHelper` reads and writes through `buf`. -/
def shmctlAccesses (caller : Caller) (table : ShmPgTable) (shmid cmd : ℤ) (buf : ℕ) :
    UserAccess Unit :=
  let slot := table.shmSegs shmid.toNat
  if shmid < 0 ∨ shmid > table.lastShmSegIndex then pure ()
  else if slot.shmPerm.key = -1 then pure ()
  else if cmd = ipcStat then .emit (fieldsAt buf shmidDsFields)
  else if cmd = ipcSet then
    if slot.shmPerm.mode &&& shmR ≠ 0 then pure ()
    else do
      .emit (fieldsAt buf [(8, 4)])
      copyIn table.locked buf (caller.shmidDs buf).pages
  else pure ()

/-- The loop of `sys_exec` over the words of the argument vector. -/
def argvLoop (caller : Caller) (uargv : ℕ) : ℕ → ℕ → UserAccess (List UserString)
  | 0, _ => .stop (.returns (-1))
  | remaining + 1, i => do
    let uarg := Word.ofInt (← caller.fetchint (Word.add uargv (4 * i)))
    if uarg = 0 then pure []
    else do
      let argument ← caller.fetchstr uarg
      let rest ← caller.argvLoop uargv remaining (i + 1)
      pure (argument :: rest)

end Caller

namespace Handler

/-- A call without arguments. -/
def sysPlain (request : Request) : Handler := fun _ _ ↦ pure request

def sysFork : Handler := sysPlain (.call .fork)
def sysExit : Handler := sysPlain (.call .exit)
def sysWait : Handler := sysPlain (.call .wait)
def sysGetpid : Handler := sysPlain .other
def sysUptime : Handler := sysPlain .other
def sysShminfo : Handler := sysPlain .other

/-- A call with one integer argument. -/
def sysOneInt (request : ℤ → Request) : Handler := fun caller _ ↦ do
  let n ← caller.argint 0
  pure (request n)

def sysKill : Handler := sysOneInt fun _ ↦ .other
def sysSleep : Handler := sysOneInt fun _ ↦ .other
def sysSbrk : Handler := sysOneInt fun n ↦ .call (.sbrk n)
def sysShmdt : Handler := sysOneInt fun shmaddr ↦ .call (.shmdt shmaddr)

/-- A call on a descriptor. -/
def sysDescriptor : Handler := fun caller _ ↦ do
  let _ ← caller.argfd 0
  pure .other

def sysDup : Handler := sysDescriptor
def sysClose : Handler := sysDescriptor

/-- A transfer between a file and a buffer of the caller. -/
def sysTransfer : Handler := fun caller env ↦ do
  let _ ← caller.argfd 0
  let n ← caller.argint 2
  let p ← caller.argptr 1 n
  env.passes p n.toNat
  pure .other

def sysRead : Handler := sysTransfer
def sysWrite : Handler := sysTransfer

def sysFstat : Handler := fun caller env ↦ do
  let _ ← caller.argfd 0
  let st ← caller.argptr 1 statSize
  .emit (if env.isInode then fieldsAt st statFields else [])
  pure .other

/-- A call on a path and some more integer arguments. -/
def sysOnPath (integers : List ℕ) : Handler := fun caller env ↦ do
  let path ← caller.argstr 0
  integers.forM fun n ↦ do
    let _ ← caller.argint n
  env.passesString path
  pure .other

def sysUnlink : Handler := sysOnPath []
def sysMkdir : Handler := sysOnPath []
def sysChdir : Handler := sysOnPath []
def sysOpen : Handler := sysOnPath [1]
def sysMknod : Handler := sysOnPath [1, 2]

def sysLink : Handler := fun caller env ↦ do
  let old ← caller.argstr 0
  let new ← caller.argstr 1
  env.passesString old
  env.passesString new
  pure .other

def sysExec : Handler := fun caller env ↦ do
  let path ← caller.argstr 0
  let uargv ← caller.argint 1
  let argv ← caller.argvLoop (Word.ofInt uargv) maxArg 0
  env.passesString path
  argv.forM env.passesString
  pure (.call (.exec env.program (argv.map caller.content)))

def sysPipe : Handler := fun caller env ↦ do
  let fd ← caller.argptr 0 8
  .emit (if env.piped then fieldsAt fd [(0, 4), (4, 4)] else [])
  pure .other

def sysShmget : Handler := fun caller _ ↦ do
  let key ← caller.argint 0
  let size ← caller.argint 1
  let shmflag ← caller.argint 2
  pure (.call (.shmget key (Word.ofInt size) (Word.ofInt shmflag)))

def sysShmat : Handler := fun caller _ ↦ do
  let shmid ← (caller.argint 0).failing (.returns 101)
  let shmaddr ← (caller.argint 1).failing (.returns 102)
  let shmflag ← (caller.argint 2).failing (.returns 103)
  pure (.call (.shmat shmid shmaddr (Word.ofInt shmflag)))

def sysShmctl : Handler := fun caller env ↦ do
  let shmid ← caller.argint 0
  let cmd ← caller.argint 1
  let buf ← caller.argptr 2 pointerSize
  caller.shmctlAccesses env.kernel.shmpgtable shmid cmd buf
  pure (.call (.shmctl shmid cmd (caller.shmidDs buf)))

def sysRemoveshm : Handler := fun caller _ ↦ do
  let shmIdentifier ← caller.argint 0
  let flag ← caller.argint 1
  pure (.call (.removeshm shmIdentifier flag))

end Handler

/-- The system calls, in the order of their numbers. -/
inductive Syscall where
  | fork | exit | wait | pipe | read | kill | exec | fstat | chdir | dup | getpid | sbrk | sleep
  | uptime | «open» | write | mknod | unlink | link | mkdir | close
  | shmget | shmat | shmdt | shmctl | shminfo | removeshm
deriving DecidableEq, Repr

namespace Syscall

/-- The dispatch table from number 1 on. -/
def table : List Syscall :=
  [fork, exit, wait, pipe, read, kill, exec, fstat, chdir, dup, getpid, sbrk, sleep, uptime, «open»,
    write, mknod, unlink, link, mkdir, close, shmget, shmat, shmdt, shmctl, shminfo, removeshm]

/-- The system call with a number, if there is one. -/
def ofNumber (num : ℤ) : Option Syscall := if num > 0 then table[(num - 1).toNat]? else none

def handler : Syscall → Handler
  | fork => .sysFork
  | exit => .sysExit
  | wait => .sysWait
  | pipe => .sysPipe
  | read => .sysRead
  | kill => .sysKill
  | exec => .sysExec
  | fstat => .sysFstat
  | chdir => .sysChdir
  | dup => .sysDup
  | getpid => .sysGetpid
  | sbrk => .sysSbrk
  | sleep => .sysSleep
  | uptime => .sysUptime
  | «open» => .sysOpen
  | write => .sysWrite
  | mknod => .sysMknod
  | unlink => .sysUnlink
  | link => .sysLink
  | mkdir => .sysMkdir
  | close => .sysClose
  | shmget => .sysShmget
  | shmat => .sysShmat
  | shmdt => .sysShmdt
  | shmctl => .sysShmctl
  | shminfo => .sysShminfo
  | removeshm => .sysRemoveshm

end Syscall

/-- The dispatcher; a number that is not in the table gives -1. -/
def syscall (caller : Caller) (env : Environment) (num : ℤ) : UserAccess Request :=
  match Syscall.ofNumber num with
  | some call => call.handler caller env
  | none => .stop (.returns (-1))

end Xv6Shm
