import NaliStore.Resolve
import NaliStore.Logdb
import NaliStore.Refine
import NaliStore.Chain
import NaliStore.Clht
import NaliStore.Cache
import NaliStore.Concurrent
import NaliStore.Interleave
import NaliStore.Relocate
import NaliStore.Recovery
import NaliStore.Restore
import NaliStore.Durable
import NaliStore.Gc
import NaliStore.Marks
import NaliStore.Tidy
import NaliStore.Collect
import NaliStore.Collections
import NaliStore.Regions
import NaliStore.Rejected
import NaliStore.Resume
import NaliStore.Handing
import NaliStore.Torn
import NaliStore.Links
import NaliStore.Versions
import NaliStore.Erasure
import NaliStore.Adapters
import NaliStore.RangeScan
import NaliStore.Parallel
import NaliStore.Misplaced
import NaliStore.RteRing
import NaliStore.NumaCache
import NaliStore.SpinLatch
import NaliStore.ThreadPool
import NaliStore.Walks
import NaliStore.Visits
import NaliStore.Retries
import NaliStore.Fast
import NaliStore.Iteration
import NaliStore.BulkLoad
import NaliStore.ScanBySize
import NaliStore.VarRecord
import NaliStore.Payloads
import NaliStore.Stride
import NaliStore.Decode
import NaliStore.Listing
import NaliStore.Predict
import NaliStore.Finger
import NaliStore.SortBuncket
import NaliStore.Tombstones
import NaliStore.Batches
import NaliStore.Bitops
import NaliStore.Packed
import NaliStore.RingReports
import NaliStore.Spsc
import NaliStore.BuncketChain
import NaliStore.Bookkeeping
import NaliStore.FindEntry
import NaliStore.Segmentation
import NaliStore.SegmentBuilder
import NaliStore.ClhtThreads
import NaliStore.OverTree
import NaliStore.Mpmc
