import MiniOs.Lib.Run
import MiniOs.Lib.Fifo
import MiniOs.Lib.Count
import MiniOs.Sched.Priority
import MiniOs.Sched.RoundRobin
import MiniOs.Os.OnePlace
import MiniOs.Os.NoneLost
import MiniOs.Os.Exit
import MiniOs.Os.RunningList
import MiniOs.Os.KillByPath
import MiniOs.Timer.Barrier
import MiniOs.Timer.Slots
import MiniOs.Os.Arrival
import MiniOs.Os.Quantum
import MiniOs.Lib.Translation
import MiniOs.Mem.Refinement
import MiniOs.Paging.Losses
import MiniOs.Paging.FlatMemory
import MiniOs.Paging.Partition
import MiniOs.Paging.Failures
import MiniOs.Paging.Contents
import MiniOs.Paging.Reports
import MiniOs.Paging.OnDevice
import MiniOs.Paging.TwoRuns
import MiniOs.Lib.Ownership
import MiniOs.Paging.FrameAllocator
import MiniOs.Paging.TearDown
import MiniOs.Paging.Mapping
import MiniOs.Paging.Resident
import MiniOs.Paging.Replacement
import MiniOs.Paging.FreeList
import MiniOs.Paging.Release
import MiniOs.Paging.Allocation
import MiniOs.Paging.RegionIds
import MiniOs.Paging.Breaks
import MiniOs.Paging.Modes
import MiniOs.Mem.Limits
import MiniOs.Mem.Rows
import MiniOs.Mem.Chains
import MiniOs.Mem.Cpu
import MiniOs.Paging.ProcName
import MiniOs.Sched.Removal
import MiniOs.Paging.PteUpdates
import MiniOs.Os.Programs
import MiniOs.Paging.PageCopy
import MiniOs.Sched.Emptiness
import MiniOs.Os.Termination
import MiniOs.Paging.PrivateBytes
import MiniOs.Paging.Exhaustion
import MiniOs.Paging.Alone
import MiniOs.Os.NeverStuck
import MiniOs.Mem.Isolation
