import StarOS.Lib.EventSystem
import StarOS.Lib.Trace
import StarOS.Lib.WrapRing
import StarOS.Lib.Custody
import StarOS.Lib.Queue
import StarOS.Lib.Mail
import StarOS.Lib.Handover
import StarOS.Lib.Bits
import StarOS.Lib.FreeList
import StarOS.Lib.Buddy
import StarOS.Lib.Radix
import StarOS.Lib.Cursor
import StarOS.Lib.Patch
import StarOS.Lib.Holders
import StarOS.Lib.FirstMax
import StarOS.Lib.Gregorian
import StarOS.Lib.Rotation
import StarOS.Lib.Progress
import StarOS.Abi
import StarOS.Mm.Heap
import StarOS.Mm.Buddy
import StarOS.Mm.BuddyTree
import StarOS.Mm.BuddyRun
import StarOS.Mm.Pool
import StarOS.Mm.PoolRun
import StarOS.Mm.Stock
import StarOS.Mm.Region
import StarOS.Arch.Mmu
import StarOS.Arch.AddrSpace
import StarOS.Arch.Tables
import StarOS.Arch.PartialMap
import StarOS.Arch.Frames
import StarOS.Arch.UserRange
import StarOS.Kernel.Object
import StarOS.Kernel.Cap
import StarOS.Kernel.Irq
import StarOS.Kernel.Survey
import StarOS.Shm.Table
import StarOS.Shm.TableRun
import StarOS.Shm.Sweep
import StarOS.Shm.SweepRun
import StarOS.Ipc.Endpoint
import StarOS.Sched.Parking
import StarOS.Sched.Class
import StarOS.Sched.Cores
import StarOS.Sched.Exclusion
import StarOS.Sched.Lives
import StarOS.Sched.Decision
import StarOS.Sched.Bands
import StarOS.Sched.Turns
import StarOS.Sched.Pinned
import StarOS.Sched.Stacks
import StarOS.Sched.Teardown
import StarOS.Sched.LastOut
import StarOS.Wait.Notify
import StarOS.Wait.Machine
import StarOS.Wait.Step
import StarOS.Wait.TaskStep
import StarOS.Wait.Wake
import StarOS.Wait.Sleep
import StarOS.Wait.Send
import StarOS.Wait.Receive
import StarOS.Wait.Signals
import StarOS.Wait.Poll
import StarOS.Wait.Custody
import StarOS.Wait.Carry
import StarOS.Syscall.Resolve
import StarOS.Syscall.Machine
import StarOS.Syscall.Step
import StarOS.Syscall.Provenance
import StarOS.Syscall.Mint
import StarOS.Syscall.Receive
import StarOS.Memory.Placements
import StarOS.Memory.Machine
import StarOS.Memory.Step
import StarOS.Memory.Anon
import StarOS.Memory.Place
import StarOS.Memory.Mapped
import StarOS.Lib.Checked
import StarOS.Lib.Bytes
import StarOS.Cpio.Archive
import StarOS.Cpio.RoundTrip
import StarOS.Fdt.Blob
import StarOS.Fdt.Walk
import StarOS.Fdt.Node
import StarOS.Fdt.Safety
import StarOS.Fs.Server
import StarOS.Libc.Fd
import StarOS.Libc.File
import StarOS.Libc.FileRead
import StarOS.Libc.Alias
import StarOS.Libc.Nonblock
import StarOS.Libc.Handles
import StarOS.Libc.FdThreads
import StarOS.Libc.FdThreadsRun
import StarOS.Libc.Pipe
import StarOS.Libc.Eventfd
import StarOS.Libc.Stream
import StarOS.Libc.StreamCursor
import StarOS.Lib.ByteMemory
import StarOS.Display.Outbox
import StarOS.Display.Machine
import StarOS.Display.Stack
import StarOS.Display.Isolation
import StarOS.Display.Requests
import StarOS.Display.Run
import StarOS.Display.Paint
import StarOS.Display.Safety
import StarOS.Display.Picture
import StarOS.Display.Hit
import StarOS.Lib.Exclusion
import StarOS.Libc.Guard
import StarOS.Lib.Chain
import StarOS.Lib.Cover
import StarOS.Libc.Queue
import StarOS.Libc.Linked
import StarOS.Libc.QueueRun
import StarOS.Libc.Promise
import StarOS.Libc.Pthread
import StarOS.Libc.Calls
import StarOS.Libc.Malloc
import StarOS.Libc.MallocCalls
import StarOS.Libc.MallocList
import StarOS.Libc.MallocRun
import StarOS.Libc.Mutex
import StarOS.Libc.Cond
import StarOS.Libc.Semaphore
import StarOS.Libc.RwLock
import StarOS.Libc.RwWait
import StarOS.Hal.Clock
import StarOS.Input.Pointer
import StarOS.Input.Stream
import StarOS.Arch.SmmuEvent
import StarOS.Arch.Stage2
import StarOS.Fs.Session
import StarOS.Lib.SlotMap
import StarOS.Libc.Environ
import StarOS.Lib.Firsts
import StarOS.Libc.Dir
import StarOS.Libc.Listing
import StarOS.Libc.Spelling
import StarOS.Cxx.ListNode
import StarOS.Libc.Sorting
import StarOS.Libc.Atexit
import StarOS.Libc.ThreadExit
import StarOS.Libc.ParkerSlots
import StarOS.Libc.Primitives
import StarOS.Input.Layout
import StarOS.Libc.Select
import StarOS.Libc.PipeAtomic
import StarOS.Libc.Realpath
import StarOS.Libc.ScanRun
import StarOS.Libc.ScanStar
import StarOS.Libc.Strtol
import StarOS.Libc.Snprintf
import StarOS.Libc.Calendar
import StarOS.Libc.Strftime
import StarOS.Libc.ReadBack
import StarOS.Libc.Sendfile
import StarOS.Video.Mailbox
import StarOS.Video.Framebuffer
import StarOS.Video.Grid
import StarOS.Lib.Ticket
import StarOS.Kernel.SpinLock
import StarOS.Fdt.Readers
