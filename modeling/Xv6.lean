import Xv6.Lib.Run
import Xv6.Lib.Prog
import Xv6.Lib.CArray
import Xv6.Lib.Crash
import Xv6.Lib.Pool
import Xv6.Lib.Ring
import Xv6.Container.Hints
import Xv6.Container.Membership
import Xv6.Container.Interleaving
import Xv6.Message.SendRecv
import Xv6.Log.Operations
import Xv6.Proc.Tree
import Xv6.Proc.Wait
import Xv6.Proc.Kill
import Xv6.Proc.Wakeup
import Xv6.Proc.Sleep
import Xv6.Proc.Sleeplock
import Xv6.Fs.Locking
import Xv6.Fs.Quiet
import Xv6.Pipe.Machine
import Xv6.Pipe.Wakeup
import Xv6.Log.GroupCommit
import Xv6.Lib.Links
import Xv6.Bio.Cache
import Xv6.Bio.Coherent
import Xv6.Alloc.Content
import Xv6.Alloc.Follow
import Xv6.Message.Index
import Xv6.Message.Lock
import Xv6.Message.Multicast
import Xv6.Alloc.Array
import Xv6.Alloc.Bitmap
import Xv6.Alloc.Holes
import Xv6.Alloc.ReadWrite
import Xv6.Alloc.Filewrite
import Xv6.Alloc.DirMap
import Xv6.Fs.Path
import Xv6.Console.Committed
import Xv6.Ide.Refine
import Xv6.Malloc.Runs
import Xv6.Message.Arrives
import Xv6.Message.Registry
import Xv6.Syscall.Count
import Xv6.Syscall.SendMulti
import Xv6.Shell.Grammar
import Xv6.Vm.Copy
import Xv6.Exec.Size
import Xv6.Vm.Translate
import Xv6.Vm.Dealloc
import Xv6.Exec.Growproc
import Xv6.Exec.Outcome
import Xv6.Memmove
import Xv6.Mp
import Xv6.Grep.Match
import Xv6.Grep.Lines
import Xv6.Malloc.Sizes
import Xv6.Shell.Terminate
