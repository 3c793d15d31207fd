import PlumOs.Fs.Inherit
import PlumOs.Fs.Listing
import PlumOs.Libc.MallocRun
import PlumOs.Mm.Mirror
import PlumOs.Proc.ExecArgs
import PlumOs.Proc.Files
import PlumOs.Proc.KernelFrame
import PlumOs.Proc.KernelStack
import PlumOs.Proc.Wait
import PlumOs.Tty.Lines
import PlumOs.Tty.Readers
import PlumOs.Tty.Rollover
import PlumOs.Vm.Break
import PlumOs.Vm.Calls
import PlumOs.Vm.Duplicate
import PlumOs.Vm.Headers
import PlumOs.Vm.Image
import PlumOs.Vm.Trees
import PlumOs.Vm.Trick
import PlumOs.Proc.Whole
import PlumOs.Proc.Killed
import PlumOs.Libc.Printf
import PlumOs.Fs.Cat
import PlumOs.Fs.Chdir
import PlumOs.Shell.Search
import PlumOs.Shell.Balance
import PlumOs.Vm.BootStores
import PlumOs.Proc.Zombies
import PlumOs.Proc.Attended
import PlumOs.Proc.Cleaner
import PlumOs.Fs.Reads
import PlumOs.Fs.FdChecks
import PlumOs.Fs.FirstMatch
import PlumOs.Fs.DotDot
import PlumOs.Fs.PathBuffers
import PlumOs.Lib.X86
import PlumOs.Proc.ForkRegs
import PlumOs.Proc.Interp
import PlumOs.Proc.TaskStrings
import PlumOs.Vm.Mapping
import PlumOs.Vm.Scratch
import PlumOs.Proc.RoundRobin
import PlumOs.Proc.Wakeup
import PlumOs.Tty.Layout
import PlumOs.Vm.Unmap
import PlumOs.Vm.NewTables
import PlumOs.Lib.Quoted
import PlumOs.Lib.Slots
import PlumOs.Shell.Cmds
import PlumOs.Shell.Locate
import PlumOs.Shell.PathValue
import PlumOs.Shell.Script
import PlumOs.Libc.SbrkFail
import PlumOs.Lib.Numeral
import PlumOs.Libc.Formats
import PlumOs.Libc.Strings
import PlumOs.Proc.Removal
import PlumOs.Shell.LineInput
import PlumOs.Proc.Timeslice
import PlumOs.Tty.Display
import PlumOs.Tty.Echo
import PlumOs.Lib.Interrupt
import PlumOs.Proc.Contexts
import PlumOs.Proc.Preempt
import PlumOs.Fs.OpenFiles
import PlumOs.Irq.Entries
import PlumOs.Irq.Pic
import PlumOs.Vm.Flat
import PlumOs.Vm.FlatCalls
import PlumOs.Vm.FlatRun
import PlumOs.Libc.KernelHeap
import PlumOs.Proc.Ps
import PlumOs.Mm.MemoryMap
