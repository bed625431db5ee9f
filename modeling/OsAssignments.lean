import OsAssignments.Library.Reduction
import OsAssignments.Library.DirectedCycle
import OsAssignments.Library.Outcome
import OsAssignments.Library.RefPool
import OsAssignments.Library.RadixTree
import OsAssignments.Library.EventRun
import OsAssignments.Library.Mutex
import OsAssignments.Library.Cyclic
import OsAssignments.Library.Interleaving
import OsAssignments.Library.TableIndex
import OsAssignments.Deadlock.Sweep
import OsAssignments.Deadlock.Bankers
import OsAssignments.Deadlock.Detection
import OsAssignments.Deadlock.WaitGraph
import OsAssignments.Deadlock.Agreement
import OsAssignments.Memory.Kalloc
import OsAssignments.Memory.PageTable
import OsAssignments.Memory.TableFree
import OsAssignments.Memory.Vm
import OsAssignments.Memory.Machine
import OsAssignments.Memory.Space
import OsAssignments.Memory.Invariant
import OsAssignments.Memory.Perform
import OsAssignments.Memory.Boot
import OsAssignments.Memory.References
import OsAssignments.Memory.SharedPage
import OsAssignments.Memory.Threads
import OsAssignments.Memory.Holes
import OsAssignments.Process.Table
import OsAssignments.Process.Steps
import OsAssignments.Process.Family
import OsAssignments.Process.Simulation
import OsAssignments.Process.Locks
import OsAssignments.Process.Waiting
import OsAssignments.Process.Exits
import OsAssignments.Process.Kill
import OsAssignments.Process.Tree
import OsAssignments.Process.Reaping
import OsAssignments.Process.Semaphore
import OsAssignments.Process.Exclusion
import OsAssignments.Process.Reinit
import OsAssignments.Scheduler.Cpus
import OsAssignments.Scheduler.Steps
import OsAssignments.Scheduler.OneCpu
import OsAssignments.Scheduler.Turns
import OsAssignments.Scheduler.Priorities
import OsAssignments.Scheduler.Aging
import OsAssignments.Scheduler.Idle
import OsAssignments.Scheduler.RoundRobin
import OsAssignments.Sync.LazyInit
import OsAssignments.Sync.ReadersWriters
import OsAssignments.Sync.BoundedBuffer
import OsAssignments.Deadlock.Safety
import OsAssignments.Deadlock.DeadlockedSet
import OsAssignments.Deadlock.Requests
import OsAssignments.Library.OrderedLocks
import OsAssignments.Sync.LockPair
import OsAssignments.Sync.SyncDeadlock
import OsAssignments.Sync.Dining
import OsAssignments.Library.StoreBuffer
import OsAssignments.Sync.Peterson
import OsAssignments.Sync.PetersonCounter
import OsAssignments.Memory.Supply
import OsAssignments.Memory.Clone
import OsAssignments.Memory.Fresh
import OsAssignments.Library.LinkedList
import OsAssignments.Library.MachineInt
import OsAssignments.Library.Pruning
import OsAssignments.Process.SemaphoreRange
import OsAssignments.Scheduler.Selection
import OsAssignments.Memory.Threaded
import OsAssignments.Memory.AllOrNothing
import OsAssignments.Memory.Dealloc
import OsAssignments.Assignment4.Table
import OsAssignments.Assignment4.Steps
import OsAssignments.Assignment4.KilledFlag
import OsAssignments.Assignment4.SemDown
import OsAssignments.Memory.Growth
import OsAssignments.Memory.Contents
import OsAssignments.Library.FlatMemory
import OsAssignments.Library.Refinement
import OsAssignments.Memory.Flat
import OsAssignments.Memory.Paging
import OsAssignments.Memory.Copy
import OsAssignments.Memory.UserMemory
import OsAssignments.Assignment4.Descriptors
import OsAssignments.Assignment4.FileRefs
import OsAssignments.Assignment4.Directories
import OsAssignments.Assignment4.Links
import OsAssignments.Assignment4.LinkCounts
import OsAssignments.Assignment4.LinkSections
import OsAssignments.Assignment4.LinkSafety
import OsAssignments.Assignment4.LinkConsistency
import OsAssignments.Assignment4.LinkWaits
import OsAssignments.Process.Pause
import OsAssignments.Sync.ThreadTest
import OsAssignments.Sync.SyncTest
import OsAssignments.Memory.KernelTable
import OsAssignments.Memory.KernelBoot
import OsAssignments.Memory.ExecArgs
import OsAssignments.Memory.WaitStatus
