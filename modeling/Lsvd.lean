import Lsvd.Basic
import Lsvd.ObjectCreator
import Lsvd.ObjectReader
import Lsvd.ObjectIndex
import Lsvd.Extent
import Lsvd.RangeData
import Lsvd.SegmentCreator
import Lsvd.ExtentMap
import Lsvd.Disk.Basic
import Lsvd.Disk.Read
import Lsvd.Disk.Write
import Lsvd.Disk.Invariant
import Lsvd.Refinement
import Lsvd.Concurrency
import Lsvd.Coherence
import Lsvd.Progress
import Lsvd.Simulation
import Lsvd.Store
import Lsvd.Snapshot
import Lsvd.Durability
