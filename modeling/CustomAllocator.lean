import CustomAllocator.Base.Word
import CustomAllocator.Base.ByteMemory
import CustomAllocator.Base.Tiling
import CustomAllocator.Base.Linked
import CustomAllocator.Base.Lockstep
import CustomAllocator.Os.Config
import CustomAllocator.Os.Memory
import CustomAllocator.Heap.Block
import CustomAllocator.Heap.FreeList
import CustomAllocator.Pool.Pool
import CustomAllocator.Alloc.State
import CustomAllocator.Alloc.General
import CustomAllocator.Alloc.Cache
import CustomAllocator.Alloc.Api
import CustomAllocator.Layout.Carving
import CustomAllocator.Layout.Edits
import CustomAllocator.Layout.Growth
import CustomAllocator.Layout.Neighbors
import CustomAllocator.Layout.InHand
import CustomAllocator.Layout.General
import CustomAllocator.Layout.Operations
import CustomAllocator.Layout.Malloc
import CustomAllocator.Layout.Refusal
import CustomAllocator.Layout.Canonical
import CustomAllocator.Layout.Determined
import CustomAllocator.Layout.Density
import CustomAllocator.Pool.Cells
import CustomAllocator.Pool.Supply
import CustomAllocator.Pool.Caches
import CustomAllocator.Pool.Spots
import CustomAllocator.Pool.Steps
import CustomAllocator.Pool.Pooled
import CustomAllocator.Pool.Stock
import CustomAllocator.Pool.Stages
import CustomAllocator.Client.Coherent
import CustomAllocator.Client.Ledger
import CustomAllocator.Client.Grants
import CustomAllocator.Client.Returns
import CustomAllocator.Client.Calls
import CustomAllocator.Client.Runs
import CustomAllocator.Properties.Safety
import CustomAllocator.Properties.Sizes
import CustomAllocator.Properties.Reallocation
import CustomAllocator.Client.Tiled
import CustomAllocator.Properties.BoundaryTags
import CustomAllocator.Properties.Atomicity
import CustomAllocator.Properties.Calloc
import CustomAllocator.Properties.Adjacency
import CustomAllocator.Properties.Reuse
import CustomAllocator.Properties.Fragmentation
import CustomAllocator.Properties.FreeOrder
import CustomAllocator.Properties.Inverse
import CustomAllocator.Properties.Room
import CustomAllocator.Properties.ListRefinement
import CustomAllocator.Properties.Batches
import CustomAllocator.Properties.ThreadCache
import CustomAllocator.Properties.SlotPartition
import CustomAllocator.Properties.SharedHeap
import CustomAllocator.Properties.Search
import CustomAllocator.Properties.Routing
import CustomAllocator.Properties.Churn
import CustomAllocator.Properties.Assertions
import CustomAllocator.Properties.Shutdown
import CustomAllocator.Properties.Progress
import CustomAllocator.Properties.ServedAtOnce
import CustomAllocator.Properties.Uninterrupted
import CustomAllocator.Properties.Turnover
import CustomAllocator.Stages.Outline
import CustomAllocator.Stages.Twins
import CustomAllocator.Properties.Stages
import CustomAllocator.Properties.DebugBuild
import CustomAllocator.Alloc.Observers
import CustomAllocator.Properties.Observers
