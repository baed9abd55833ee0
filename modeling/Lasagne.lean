import Lasagne.Util.Math
import Lasagne.Util.Bitmap
import Lasagne.Buddy.Allocate
import Lasagne.Buddy.Deallocate
import Lasagne.Buddy.Initial
import Lasagne.Buddy.Run
import Lasagne.Buddy.Safety
import Lasagne.Buddy.Drain
import Lasagne.Library.SelectionSort
import Lasagne.Library.Span
import Lasagne.MemoryMap.Map
import Lasagne.MemoryMap.Canonical
import Lasagne.Library.CyclicList
import Lasagne.Library.RoundRobin
import Lasagne.Task.Scheduler
import Lasagne.Task.Fairness
import Lasagne.Tty.Console
import Lasagne.Tty.Ideal
import Lasagne.Tty.Refinement
import Lasagne.Library.X86
import Lasagne.Switch.Threads
import Lasagne.Switch.Resume
import Lasagne.Switch.Run
import Lasagne.Buddy.Coalesce
import Lasagne.Buddy.Serve
import Lasagne.Buddy.Determined
import Lasagne.Buddy.Undo
import Lasagne.Buddy.Order
import Lasagne.Buddy.Level
import Lasagne.Buddy.Refusal
import Lasagne.Buddy.Small
import Lasagne.Util.Ds
import Lasagne.Task.Environment
import Lasagne.Task.Current
import Lasagne.Syscall.Entries
import Lasagne.Syscall.Fast
import Lasagne.Switch.Preempt
import Lasagne.Switch.Untouched
import Lasagne.Syscall.Interleaved
import Lasagne.Frame.Allocator
import Lasagne.Frame.Stack
import Lasagne.Frame.Boot
import Lasagne.Frame.Chain
import Lasagne.Frame.Run
import Lasagne.Buddy.Large
import Lasagne.KernelHeap.Alloc
import Lasagne.KernelHeap.Realloc
import Lasagne.KernelHeap.Store
import Lasagne.KernelHeap.Exhaustion
import Lasagne.Task.Search
import Lasagne.Library.RadixTree
import Lasagne.Pages.Map
import Lasagne.Pages.Exhaustion
import Lasagne.Pages.Unmap
import Lasagne.Pages.Exact
import Lasagne.Pages.Range
import Lasagne.Pages.Ledger
import Lasagne.Pages.MapRange
import Lasagne.Pages.Fault
import Lasagne.Pages.UnmapRange
import Lasagne.Pages.Balance
import Lasagne.Pages.Access
import Lasagne.Pages.Lazy
import Lasagne.Pages.Space
import Lasagne.Task.Spaces
import Lasagne.MemoryMap.Capacity
import Lasagne.Switch.Callee
import Lasagne.Libc.StringAsm
import Lasagne.Printk.Numbers
import Lasagne.Printk.Format
import Lasagne.Printk.Backend
import Lasagne.Library.BitFields
import Lasagne.Irq.Idt
import Lasagne.Irq.Handler
import Lasagne.Boot.Paging
import Lasagne.Boot.Image
import Lasagne.Multiboot.Stride
import Lasagne.Multiboot.Contain
import Lasagne.Multiboot.Encode
import Lasagne.Boot.Memory
import Lasagne.Buddy.Fixed
import Lasagne.Buddy.Index
import Lasagne.Task.Rings
import Lasagne.Libc.Direction
import Lasagne.Buddy.Placement
import Lasagne.Buddy.Bitmaps
