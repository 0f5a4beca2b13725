import TreePass.Cache.Clock
import TreePass.Cache.PinCounts
import TreePass.Cache.Mapping
import TreePass.Merge.Drain
import TreePass.Core.Runs
import TreePass.Alloc.RcRuns
import TreePass.Core.PipelineRuns
import TreePass.Btree.IteratorOpens
import TreePass.Btree.IteratorSeekExact
import TreePass.Btree.RawPageRuns
import TreePass.Btree.LeafOverflow
import TreePass.Btree.InsertLocks
import TreePass.Trunk.MapletPipeline
import TreePass.Trunk.DropDeletes
import TreePass.Btree.PivotTransparency
import TreePass.Btree.AsyncLookupAgrees
import TreePass.Cache.Batches
import TreePass.Platform.BatchRwlock
import TreePass.Tasks.TaskRuns
import TreePass.Core.WindowRuns
import TreePass.Log.ShardLogRead
import TreePass.Core.LogOrderRuns
import TreePass.Trunk.CollectUndo
import TreePass.Trunk.SerializeFails
import TreePass.Trunk.RootGrowth
import TreePass.Trunk.PendingGcExact
import TreePass.Trunk.LeafSplit
import TreePass.Btree.PackAbort
import TreePass.Alloc.MiniAddresses
import TreePass.Btree.PivotIteration
import TreePass.Btree.PackIteration
import TreePass.Btree.CountByIterator
import TreePass.Btree.PivotCompensation
import TreePass.Tasks.ThreadSlotRuns
import TreePass.Trunk.LeafEstimate
import TreePass.Platform.LaioProgress
import TreePass.Cache.EvictIntervalRuns
import TreePass.Filter.EstimateExact
import TreePass.Platform.ShmHeapCalls
import TreePass.Cache.Flush
import TreePass.Trunk.MapletLookup
import TreePass.Merge.Reinsert
import TreePass.Filter.RadixBuffers
import TreePass.Lib.WordScan
import TreePass.Filter.Decode
import TreePass.Filter.DecodeIndex
import TreePass.Util.WritableBuffer
import TreePass.Util.Vector
import TreePass.Util.Numeral
import TreePass.Util.StringToInt
import TreePass.Btree.PackLookup
import TreePass.Btree.PackCounts
import TreePass.Filter.PackedArray
import TreePass.Filter.IndexMeta
