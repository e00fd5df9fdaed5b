import Ferrix.Fnmatch.Matching
import Ferrix.BlockRing.SubmissionTable
import Ferrix.Epoll.Nesting
import Ferrix.Objects.HandleRuns
import Ferrix.Seccomp.Verification
import Ferrix.Sched.Sleepers
import Ferrix.Sched.LoadAverage
import Ferrix.Sched.Fairness
import Ferrix.AddressSpaces.SpaceRuns
import Ferrix.Frame.FrameRuns
import Ferrix.KernelHeap.HeapRuns
import Ferrix.Objects.Channels
import Ferrix.Paging.MapperRuns
import Ferrix.Block.BarrierOrder
import Ferrix.Block.Conservation
import Ferrix.Block.Progress
import Ferrix.BlockRing.HostileDriver
import Ferrix.BlockRing.HonestRuns
import Ferrix.Vfs.BindMounts
import Ferrix.Vfs.NameAgreement
import Ferrix.Vfs.Paths
import Ferrix.Vfs.Pipes
import Ferrix.Sync.SleepLock
import Ferrix.Locks.LockCalls
import Ferrix.Sockets.Connections
import Ferrix.Sockets.TcpTable
