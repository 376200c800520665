import WeirdOs.Heap.Correctness.Payload
import WeirdOs.Heap.Correctness.FreeOrder
import WeirdOs.Elf.Correctness
import WeirdOs.Fs.Correctness.Runs
import WeirdOs.Fs.Correctness.Image
import WeirdOs.Lib.Tally
import WeirdOs.Util.Rc
import WeirdOs.Util.Correctness.Rc
import WeirdOs.Clib.Stdio
import WeirdOs.Drivers.Correctness.Ps2
import WeirdOs.Drivers.Correctness.Vga
import WeirdOs.Fs.Correctness.Fifo
import WeirdOs.Fs.Correctness.Inodes
import WeirdOs.Fs.Correctness.Syscall
import WeirdOs.Fs.Correctness.Udev
import WeirdOs.Kernel.Correctness.Syscall
import WeirdOs.Heap.Correctness.Aligned
import WeirdOs.Heap.Correctness.AlignedFit
import WeirdOs.Heap.Correctness.AlignedHeap
import WeirdOs.Util.Correctness.Hashmap
import WeirdOs.Util.Correctness.List
import WeirdOs.Util.Correctness.Vector
import WeirdOs.Util.Correctness.String
import WeirdOs.Util.Correctness.Weak
import WeirdOs.Paging.Correctness.Bitmap
import WeirdOs.Paging.Correctness.Ranges
import WeirdOs.Paging.Correctness.Rights
import WeirdOs.Elf.Reads
import WeirdOs.Elf.Segments
import WeirdOs.Fs.Correctness.Kinds
import WeirdOs.Heap.Correctness.AlignedFree
import WeirdOs.Clib.Correctness.Itoa
import WeirdOs.Clib.Correctness.Stdio
import WeirdOs.Fs.Correctness.Components
import WeirdOs.Fs.Correctness.Limits
import WeirdOs.Kernel.Correctness.Interrupt
import WeirdOs.Kernel.Correctness.Irq
import WeirdOs.Util.Correctness.Destructor
import WeirdOs.Kernel.Correctness.Gdt
import WeirdOs.Util.Correctness.Terminated
import WeirdOs.Kernel.Correctness.Session
import WeirdOs.Kernel.Correctness.Exec
import WeirdOs.Kernel.Correctness.Fault
import WeirdOs.Fs.Correctness.Boot
import WeirdOs.Paging.Correctness.TableHeap
import WeirdOs.Elf.Paged
import WeirdOs.Kernel.Correctness.Timer
