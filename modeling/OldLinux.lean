import OldLinux.Process.Isolation
import OldLinux.Pipe.Faults
import OldLinux.Pipe.Fifo
import OldLinux.Inodes.OpenRuns
import OldLinux.Syscalls.Exact
import OldLinux.Tasks.Ids
import OldLinux.Tasks.Signals
import OldLinux.Tasks.Fpu
import OldLinux.Syscalls.Writing
import OldLinux.Process.EmptySlots
import OldLinux.Malloc.Interrupts
import OldLinux.Sched.Timers
import OldLinux.Tty.Lines
import OldLinux.Tty.Ahead
import OldLinux.Exec.LostPages
import OldLinux.Malloc.Lengths
import OldLinux.Asm.DirectionFlag
import OldLinux.Fork.CopyProcess
import OldLinux.Process.VerifyArea
import OldLinux.Demand.Loading
import OldLinux.Creation.Device
import OldLinux.Creation.Growing
import OldLinux.Exec.Headers
import OldLinux.Exec.StringArea
import OldLinux.Buffers.Elevator
import OldLinux.Disk.Retries
import OldLinux.Namei.Names
import OldLinux.Namei.Paths
import OldLinux.Files.Dup2
import OldLinux.Syscalls.Access
import OldLinux.Volume.References
import OldLinux.Volume.ReadSuper
import OldLinux.Volume.OffsetRuns
import OldLinux.Inodes.Evicted
import OldLinux.Tasks.Kill
import OldLinux.Print.Stars
import OldLinux.Asm.SystemCall
import OldLinux.Console.SavedCursor
import OldLinux.Sched.Pids
import OldLinux.Tty.ReadAlarm
import OldLinux.Tty.ReadLines
import OldLinux.Tty.Erasing
import OldLinux.Buffers.Served
import OldLinux.Clock.Mktime
import OldLinux.Cache.Lists
import OldLinux.Asm.Descriptor
import OldLinux.Asm.StringSearch
import OldLinux.Boot.ReadIt
