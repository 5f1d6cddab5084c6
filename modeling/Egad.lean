import Egad.Lib.StableSort
import Egad.Lib.KeyedFold
import Egad.Lib.AbsentMap
import Egad.Lib.Journal
import Egad.Lib.Scan
import Egad.Lib.Claim
import Egad.Lib.Layout
import Egad.Timeline.Serial
import Egad.Timeline.Model
import Egad.Timeline.Packing
import Egad.Timeline.Walks
import Egad.Timeline.Lives
import Egad.Timeline.Resolve
import Egad.Timeline.Correct
import Egad.Timeline.InsertFresh
import Egad.Timeline.FreshEpoch
import Egad.Timeline.JournalRun
import Egad.Ycsb.Oracle
import Egad.Ycsb.Index
import Egad.Ycsb.GeneralPath
import Egad.Ycsb.FastPath
import Egad.Ycsb.ShadowIndex
import Egad.Ycsb.Pieces
import Egad.Tpcc.Keys
import Egad.Tpcc.Index
import Egad.Tpcc.Stores
import Egad.Tpcc.FastTable
import Egad.Tpcc.TableEpoch
import Egad.Tpcc.Inputs
import Egad.Tpcc.FastPath
import Egad.Tpcc.ShadowIndex
import Egad.Tpcc.DenseShadow
import Egad.Tpcc.ShadowRun
import Egad.Tpcc.RecoverIndexes
import Egad.Tpcc.Generator
import Egad.Tpcc.OrderIds
import Egad.Tpcc.Sizing
import Egad.Tpcc.Minted
import Egad.Planner.Model
import Egad.Planner.Locations
import Egad.Execution.Storage
import Egad.Execution.Serializable
import Egad.Execution.Progress
import Egad.Tpcc.OrderLines
import Egad.Tpcc.Pieces
import Egad.Stager.Model
import Egad.Stager.Evict
import Egad.Stager.Mapping
import Egad.Stager.Hybrid
import Egad.Stager.Flush
import Egad.Tpcc.Values
import Egad.Tpcc.Executors
import Egad.Tpcc.Delivery
import Egad.Recovery.Meta
import Egad.Recovery.Cursors
import Egad.Recovery.CrashPoint
import Egad.Recovery.CrashRecovery
import Egad.Recovery.Durable
import Egad.Recovery.Writeback
import Egad.Execution.Deadlock
import Egad.Transfer.Chunks
import Egad.Transfer.Bytes
import Egad.Stager.Slots
import Egad.Transfer.Admission
import Egad.Stager.Reclaim
import Egad.Stager.Admitted
import Egad.Stager.Owned
import Egad.Ycsb.InsertAllocate
import Egad.Tpcc.AuxIndex
import Egad.Ycsb.ReadMultiple
import Egad.Ycsb.InsertKeys
import Egad.Gacco.Protocol
import Egad.Gacco.Exec
import Egad.Gacco.Runs
import Egad.Gacco.Serial
import Egad.Gacco.Updates
import Egad.Lib.Blocks
import Egad.Planner.Encoding
import Egad.Ycsb.Submission
import Egad.Tpcc.Submission
import Egad.Tpcc.PlanArray
import Egad.Ycsb.FreeRows
import Egad.Stager.Needed
import Egad.Planner.Versions
import Egad.Execution.ScratchVersions
import Egad.Lib.Naming
import Egad.Tpcc.CpuIndex
import Egad.Tpcc.SameRecords
import Egad.Tpcc.OrderRecords
import Egad.Tpcc.AuxRebuild
import Egad.Tpcc.AuxRecovery
import Egad.Stager.Ring
import Egad.Transfer.Capacity
import Egad.Lib.BitFields
import Egad.Tpcc.KeyLayouts
import Egad.Tpcc.NewOrderDraws
import Egad.Ycsb.SlidingWindow
import Egad.Tpcc.StockLevel
import Egad.Execution.CpuStorage
import Egad.Lib.Marks
import Egad.Ycsb.DeletePositions
import Egad.Tpcc.DeletePositions
import Egad.Stager.Overlap
import Egad.Stager.Staged
import Egad.Execution.OnCache
import Egad.Execution.SerialOutcome
import Egad.Ycsb.HybridRun
import Egad.Ycsb.CrashRun
import Egad.Tpcc.Presence
import Egad.Tpcc.Contents
import Egad.Tpcc.IndexRun
import Egad.Execution.WarpPrograms
import Egad.Execution.StagedPrograms
import Egad.Micro.Model
import Egad.Micro.Slots
import Egad.Micro.Retries
import Egad.Tpcc.WarpTxns
import Egad.Tpcc.Concurrent
