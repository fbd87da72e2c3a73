import Tlpi.Sigchld.Multi
import Tlpi.Shell.Commands
import Tlpi.Shell.Reaper
import Tlpi.Shell.Signals
import Tlpi.Multijoin.Joining
import Tlpi.Copy.Endings
import Tlpi.Tee.Delivery
import Tlpi.Env.Map
import Tlpi.ProcTree.Printing
import Tlpi.ProcTree.Capacity
import Tlpi.ProcTree.Ppid
import Tlpi.UserProcs.Bounds
import Tlpi.Daemon.Descriptors
import Tlpi.Rlimit.Nofile
import Tlpi.PipeAffinity.PeerGone
import Tlpi.PipeSync.Waiting
import Tlpi.MkFifo.Writers
import Tlpi.Seqnum.Ranges
import Tlpi.Seqnum.Accounting
import Tlpi.Seqnum.Routing
import Tlpi.Seqnum.Isolation
import Tlpi.GetNum.Model
import Tlpi.Ugid.Numeric
import Tlpi.Env.Compact
import Tlpi.SeekIo.Dump
import Tlpi.Inotify.Decoding
import Tlpi.Utmp.History
import Tlpi.Utmp.Terminal
import Tlpi.Nanosleep.Sleeping
import Tlpi.Suspend.Waiting
import Tlpi.IncrMutex.Counting
import Tlpi.FreeSbrk.Freeing
import Tlpi.Syslog.Message
import Tlpi.ThreadCancel.Cleanup
import Tlpi.StrerrorTsd.Isolation
import Tlpi.SvshmXfr.Model
import Tlpi.SvshmXfr.Turns
import Tlpi.SvshmXfr.Transfer
import Tlpi.SvshmXfr.Completion
import Tlpi.Lib.Stream
import Tlpi.Sockets.Rdwrn
import Tlpi.Sockets.ReadLine
import Tlpi.SvmsgFile.Model
import Tlpi.SvmsgFile.Replies
import Tlpi.SvmsgFile.Completion
import Tlpi.InotifyDtree.Model
import Tlpi.InotifyDtree.Cache
import Tlpi.InotifyDtree.Kernel
import Tlpi.InotifyDtree.Phases
import Tlpi.InotifyDtree.Consistent
import Tlpi.InotifyDtree.Runs
import Tlpi.InotifyDtree.Settling
import Tlpi.InotifyDtree.Races
