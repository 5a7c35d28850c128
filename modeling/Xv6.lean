import Xv6.Bio.Ring
import Xv6.Console.Input
import Xv6.Fs.Link
import Xv6.Fs.Namei
import Xv6.Fs.Unique
import Xv6.Ide.Queue
import Xv6.Life.Cli
import Xv6.Life.Kill
import Xv6.Life.OneCpu
import Xv6.Life.Pids
import Xv6.Life.Sleep
import Xv6.Log.Admission
import Xv6.Log.Crash
import Xv6.Mkfs.Boot
import Xv6.Mmu.Exec
import Xv6.Mmu.Map
import Xv6.Mp.Init
import Xv6.Pipe.Fifo
import Xv6.Pipe.Wakeup
import Xv6.Print.Long
import Xv6.Rand.Race
import Xv6.Sched.Race
import Xv6.Sched.Tickets
import Xv6.Str.Memmove
import Xv6.Syscall.Chunks
import Xv6.Syscall.Dots
import Xv6.Syscall.Fail
import Xv6.Syscall.Links
import Xv6.Syscall.Open
import Xv6.Syscall.Owned
import Xv6.Syscall.Read
import Xv6.Syscall.Refs
import Xv6.Syscall.Shared
import Xv6.Syscall.Walk
import Xv6.User.Nulterminate
import Xv6.User.Parse
import Xv6.User.Regex
import Xv6.User.Sbrk
import Xv6.Vm.Size
