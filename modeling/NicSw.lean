import NicSw.Ftl.Refine
import NicSw.Api.TwoPhase
import NicSw.ApiCache.Refine
import NicSw.Staging.Buffer
import NicSw.Acl.Route
import NicSw.Sfw.TcpStream
import NicSw.Shm.HtableMap
import NicSw.Shm.HtableRefs
import NicSw.Memdb.Cycles
import NicSw.Memdb.Streams
import NicSw.Memdb.WatchFilter
import NicSw.Learn.Orphan
import NicSw.Rfc.EqTables
import NicSw.Sltcam.Blocks
import NicSw.Slhash.Reserve
import NicSw.Lpm.IntervalBest
import NicSw.Sdk.RteBlocks
import NicSw.Routes.Limits
import NicSw.Routes.Accounting
import NicSw.Acl.ItreeRuns
import NicSw.Sfw.Groups
import NicSw.Staging.Merge
import NicSw.Requirement.Set
