import Ferrum.Library.Memory
import Ferrum.Library.Outcome
import Ferrum.Library.Chain
import Ferrum.Library.Tiling
import Ferrum.Machine.Basic
import Ferrum.Allocator.Model
import Ferrum.Allocator.Invariant
import Ferrum.Allocator.Operations
import Ferrum.Allocator.Region
import Ferrum.Allocator.Run
import Ferrum.Paging.Entry
import Ferrum.Paging.Tree
import Ferrum.Paging.View
import Ferrum.Paging.Operations
import Ferrum.Frames.Pool
import Ferrum.Paging.Refinement
import Ferrum.AddressSpace.Model
import Ferrum.Elf.Model
import Ferrum.Fd.Model
import Ferrum.Process.Model
import Ferrum.System.Model
import Ferrum.Process.Roster
import Ferrum.System.Effect
import Ferrum.System.Safety
import Ferrum.System.Wakeup
import Ferrum.Fd.Ends
import Ferrum.System.Ends
import Ferrum.System.Stream
import Ferrum.Vma.Areas
import Ferrum.Kernel.Image
import Ferrum.Kernel.Model
import Ferrum.Vma.Place
import Ferrum.Kernel.Effect
import Ferrum.AddressSpace.Areas
import Ferrum.Kernel.Overflow
import Ferrum.Kernel.Layout
import Ferrum.Allocator.Coalescing
import Ferrum.AddressSpace.Owned
import Ferrum.AddressSpace.Clearing
import Ferrum.AddressSpace.Teardown
import Ferrum.Kernel.Fork
import Ferrum.Kernel.Trace
import Ferrum.Kernel.RoundTrip
import Ferrum.AddressSpace.Faults
import Ferrum.Kernel.Isolation
import Ferrum.AddressSpace.Unmapping
import Ferrum.Elf.Fidelity
import Ferrum.Kernel.Exec
import Ferrum.Kernel.Confined
import Ferrum.Kernel.UserPages
import Ferrum.Kernel.Ownership
import Ferrum.Kernel.Lower
import Ferrum.Heap.Model
import Ferrum.Heap.Slab
import Ferrum.Library.Parcels
import Ferrum.Heap.Invariant
import Ferrum.Heap.Operations
import Ferrum.Heap.Run
import Ferrum.Vma.Canonical
import Ferrum.Vma.Search
import Ferrum.Kernel.Requests
import Ferrum.Fs.Ramfs
import Ferrum.Fs.Newc
import Ferrum.Fs.Tree
import Ferrum.Kernel.Accounts
import Ferrum.Kernel.Replace
import Ferrum.Kernel.UserStores
import Ferrum.Kernel.Guard
import Ferrum.Kernel.Relock
import Ferrum.Fs.Resolve
import Ferrum.Library.Strings
import Ferrum.Fs.Dirents
import Ferrum.System.Frame
import Ferrum.Fd.Contents
import Ferrum.System.Writev
import Ferrum.System.FileStream
import Ferrum.Kernel.Window
import Ferrum.Kernel.InitialStack
import Ferrum.Kernel.Arguments
import Ferrum.Kernel.Progress
import Ferrum.Heap.Ceiling
import Ferrum.Kernel.Sizes
import Ferrum.Paging.Mixed
import Ferrum.Paging.Range
import Ferrum.Paging.Unmap
import Ferrum.Allocator.Exclusion
import Ferrum.Elf.Reads
import Ferrum.Fs.Subtree
import Ferrum.Kernel.Lookups
import Ferrum.AddressSpace.Demand
import Ferrum.AddressSpace.Exhaustion
import Ferrum.Kernel.Delivery
import Ferrum.Kernel.Program
import Ferrum.Kernel.Results
import Ferrum.Fs.Bounds
import Ferrum.Kernel.Exact
import Ferrum.Process.Fairness
import Ferrum.Locks.Mutex
import Ferrum.Kernel.Files
import Ferrum.Kernel.Procfs
