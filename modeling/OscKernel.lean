import OscKernel.Lib.Transition
import OscKernel.Lib.DyadicBlock
import OscKernel.Lib.DyadicCover
import OscKernel.Lib.Forest
import OscKernel.Lib.Chain
import OscKernel.Lib.Ownership
import OscKernel.Lib.Rv64
import OscKernel.Lib.StableQueue
import OscKernel.Lib.Bytes
import OscKernel.Lib.Endian
import OscKernel.Lib.RingBuffer
import OscKernel.Lib.CircularList
import OscKernel.Lib.WaitingLine
import OscKernel.Word
import OscKernel.Buddy.Frames
import OscKernel.Buddy.Invariant
import OscKernel.Buddy.Operations
import OscKernel.Buddy.Startup
import OscKernel.Buddy.Run
import OscKernel.Buddy.Canonical
import OscKernel.Buddy.Gap
import OscKernel.Buddy.Room
import OscKernel.Buddy.Table
import OscKernel.Kmalloc.Pools
import OscKernel.Kmalloc.Invariant
import OscKernel.Kmalloc.Operations
import OscKernel.Kmalloc.Run
import OscKernel.Kmalloc.Blocks
import OscKernel.Kmalloc.Boot
import OscKernel.Kmalloc.Interrupt
import OscKernel.Kmalloc.Size
import OscKernel.Kmalloc.Footprint
import OscKernel.Trap.Entry
import OscKernel.Trap.Context
import OscKernel.Trap.Nested
import OscKernel.Trap.Switch
import OscKernel.Trap.Threads
import OscKernel.Trap.Simulation
import OscKernel.Trap.Resumed
import OscKernel.Sched.Thread
import OscKernel.Sched.Machine
import OscKernel.Sched.Stack
import OscKernel.Sched.Effect
import OscKernel.Sched.Tick
import OscKernel.Sched.Timers
import OscKernel.Sched.Tasks
import OscKernel.Sched.Api
import OscKernel.Sched.Queues
import OscKernel.Sched.Stacked
import OscKernel.Sched.Priority
import OscKernel.Sched.Tree
import OscKernel.Sched.Wait
import OscKernel.Sched.Fork
import OscKernel.Sched.Drain
import OscKernel.Sched.Flow
import OscKernel.Sched.Turn
import OscKernel.Sched.Usleep
import OscKernel.Sched.Handoff
import OscKernel.Sched.Resched
import OscKernel.Sched.SavedSie
import OscKernel.Sched.Token
import OscKernel.Sched.ListHead
import OscKernel.Sched.RoundRobin
import OscKernel.Sched.Deferred
import OscKernel.Process.Signal
import OscKernel.Process.Machine
import OscKernel.Process.Ownership
import OscKernel.Process.Handler
import OscKernel.Process.Creation
import OscKernel.Process.Isolation
import OscKernel.Process.ForkStack
import OscKernel.Process.Images
import OscKernel.Process.Pending
import OscKernel.Process.Release
import OscKernel.Process.ShellNumbers
import OscKernel.Boot.Cpio
import OscKernel.Boot.Dtb
import OscKernel.Boot.DtbTree
import OscKernel.Boot.FdtWalk
import OscKernel.Boot.Framebuffer
import OscKernel.Boot.MemoryRegion
import OscKernel.Boot.ReservedMemory
import OscKernel.Boot.Main
import OscKernel.Uart.Load
import OscKernel.Boot.Relocate
import OscKernel.Boot.UserRange
import OscKernel.Boot.CpioWalkers
import OscKernel.Boot.Display
import OscKernel.Boot.FwCfg
import OscKernel.Uart.Ring
import OscKernel.Uart.Console
import OscKernel.Uart.ShellLoad
import OscKernel.Uart.Completion
import OscKernel.Uart.Fifo
import OscKernel.Uart.SysRead
import OscKernel.Process.ShellReader
import OscKernel.Process.ShellCommands
import OscKernel.Process.PrintNumbers
import OscKernel.Process.Ramdisk
