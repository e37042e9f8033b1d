import Xv6.Bio.List
import Xv6.Bio.Capacity
import Xv6.Bio.Crash
import Xv6.Fs.Counts
import Xv6.Fs.TreeShape
import Xv6.Fs.LinkSize
import Xv6.Fs.Shared
import Xv6.Fs.Resolve
import Xv6.Fs.Reclaim
import Xv6.Fs.ChunkLog
import Xv6.Vm.Lifetime
import Xv6.Console.Lines
import Xv6.Virtio.Protocol
import Xv6.Pipe.Reads
import Xv6.Pipe.Sleepers
import Xv6.Proc.Kill
import Xv6.Proc.Pids
import Xv6.Proc.Sched
import Xv6.Sys.Memory
import Xv6.User.Find
import Xv6.User.Grep
import Xv6.User.GrepLines
import Xv6.User.Library
import Xv6.User.Shell
