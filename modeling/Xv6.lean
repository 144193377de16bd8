import Xv6.Log.Reboot
import Xv6.Log.Reserve
import Xv6.Fs.LinkCount
import Xv6.Fs.Read
import Xv6.Bio.Coherent
import Xv6.Bio.Lru
import Xv6.Harts.OneHart
import Xv6.Harts.Pids
import Xv6.Harts.Reap
import Xv6.Harts.Fresh
import Xv6.Sleep.Lost
import Xv6.Proc.RoundRobin
import Xv6.Proc.Waiting
import Xv6.Proc.Select
import Xv6.Sys.Report
import Xv6.Sys.Datetime
import Xv6.Fmt.Kernel
import Xv6.Fmt.User
import Xv6.Sh.Correct
import Xv6.Mv.Refuse
import Xv6.Malloc.Large
import Xv6.Vm.Refine
import Xv6.Vm.Sbrk
import Xv6.Lock.Nesting
