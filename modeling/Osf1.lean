import Osf1.Bio.Keeping
import Osf1.Bmap.Hashalloc
import Osf1.Bmap.Write
import Osf1.Callout.Hzto
import Osf1.Clists.Queues
import Osf1.Defect.Alternates
import Osf1.Defect.Directory
import Osf1.Defect.Transfers
import Osf1.Delivery.Delivered
import Osf1.Flock.Deadlock
import Osf1.Flock.FileId
import Osf1.Flock.Records
import Osf1.Lvm.ResyncSafe
import Osf1.Mach.Misplaced
import Osf1.Message.Receivers
import Osf1.Mwc.Logging
import Osf1.Mwc.Missing
import Osf1.Quota.Chown
import Osf1.Quota.Grace
import Osf1.QuotaCache.Consistency
import Osf1.Reassembly.Delivery
import Osf1.Rmap.Free
import Osf1.Runq.System
import Osf1.Rwlock.Routines
import Osf1.Semaphore.NoLostWakeup
import Osf1.Shm.Accounting
import Osf1.Sockbuf.Marks
import Osf1.Strategy.Counters
import Osf1.Tcp.Honesty
import Osf1.Tcp.Scan
import Osf1.Tcp.Stream
import Osf1.Unp.Stream
import Osf1.Vgsa.Continue
import Osf1.Vgsa.Quorum
import Osf1.VmMap.Copyin
import Osf1.VmMap.Space
import Osf1.Wait.System
import Osf1.Zalloc.System
import Osf1.Wiring.Refinement
import Osf1.Strategy.Split
