import Xv6Shm.Memory.Memmove
import Xv6Shm.Proc.Copyout
import Xv6Shm.System.Sharing
import Xv6Shm.System.Permissions
import Xv6Shm.System.Accounting
import Xv6Shm.System.Deferred
import Xv6Shm.System.Interleaving
import Xv6Shm.System.Separation
import Xv6Shm.System.Mappings
import Xv6Shm.System.Layouts
import Xv6Shm.System.Removal
import Xv6Shm.System.Control
import Xv6Shm.System.Growproc
import Xv6Shm.Syscall.Soundness
import Xv6Shm.Proc.Kill
import Xv6Shm.Proc.OneCpu
import Xv6Shm.Proc.Mpinit
import Xv6Shm.Sync.Sleeplock
import Xv6Shm.Sync.PipeSafety
import Xv6Shm.Sync.ConsoleEditor
import Xv6Shm.Sync.IdeQueue
import Xv6Shm.File.OpenFiles
import Xv6Shm.Fs.Buffers
import Xv6Shm.Fs.CrashAtomicity
import Xv6Shm.Fs.InodeRefs
import Xv6Shm.Fs.FileBytes
import Xv6Shm.Fs.BlockOwnership
import Xv6Shm.User.Grep
