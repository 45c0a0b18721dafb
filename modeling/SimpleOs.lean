import SimpleOs.Lib.BitField
import SimpleOs.Lib.Run
import SimpleOs.Lib.Pool
import SimpleOs.Lib.Layout
import SimpleOs.Basic
import SimpleOs.Memphy
import SimpleOs.Pte
import SimpleOs.PageTable
import SimpleOs.Region
import SimpleOs.Paging
import SimpleOs.Queue
import SimpleOs.Sched
import SimpleOs.Vm
import SimpleOs.SysMem
import SimpleOs.LibMem
import SimpleOs.Fault
import SimpleOs.Machine
import SimpleOs.Effects
import SimpleOs.Rule
import SimpleOs.Reach
import SimpleOs.Owner
import SimpleOs.Conservation
import SimpleOs.Content
import SimpleOs.Eviction
import SimpleOs.Isolation
import SimpleOs.ReadBack
import SimpleOs.Places
import SimpleOs.RunningList
import SimpleOs.RegionStep
import SimpleOs.AddressSpace
import SimpleOs.Backing
import SimpleOs.Policy
import SimpleOs.FlatTable
import SimpleOs.Growth
import SimpleOs.Undefined
import SimpleOs.Bounds
import SimpleOs.Confinement
import SimpleOs.Lib.Barrier
import SimpleOs.Timer
import SimpleOs.Os
import SimpleOs.Completion
import SimpleOs.Lib.Recency
import SimpleOs.Replacement
import SimpleOs.Lib.Mutex
import SimpleOs.Access
import SimpleOs.Solo
import SimpleOs.Turns
import SimpleOs.Guard
import SimpleOs.Discipline
import SimpleOs.Smp
import SimpleOs.FailedFault
import SimpleOs.Status
import SimpleOs.Codec
import SimpleOs.Translation
import SimpleOs.AllocSize
import SimpleOs.Reuse
import SimpleOs.Lifecycle
import SimpleOs.SymTable
import SimpleOs.MapRange
import SimpleOs.Reclaim
import SimpleOs.FrameAlloc
import SimpleOs.Storage
import SimpleOs.Overlap
import SimpleOs.Emptiness
import SimpleOs.QueueArray
import SimpleOs.Lib.Chain
import SimpleOs.Victim
import SimpleOs.Quantum
import SimpleOs.Lib.Scan
import SimpleOs.Loader
import SimpleOs.Lib.Greedy
import SimpleOs.Loading
import SimpleOs.Pace
import SimpleOs.Makespan
import SimpleOs.Stamps
import SimpleOs.Termination
import SimpleOs.Lib.Atomic
import SimpleOs.Sections
import SimpleOs.Creation
import SimpleOs.Lib.Related
import SimpleOs.Dispatch
import SimpleOs.Serial
import SimpleOs.Lookup
import SimpleOs.Config
import SimpleOs.Whole
import SimpleOs.Ample
import SimpleOs.Simulator
