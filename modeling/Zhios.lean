import Zhios.Machine.Word
import Zhios.Machine.Extent
import Zhios.Machine.Memory
import Zhios.Machine.Search
import Zhios.Machine.Run
import Zhios.Memory.Heap
import Zhios.Memory.HeapScan
import Zhios.Memory.HeapTiling
import Zhios.Memory.HeapRun
import Zhios.Memory.Kheap
import Zhios.Memory.Paging
import Zhios.Memory.PagingChunk
import Zhios.Memory.PagingRun
import Zhios.Task.ProcessMemory
import Zhios.Task.Task
import Zhios.Task.TaskList
import Zhios.Task.Process
import Zhios.Task.Scheduler
import Zhios.Disk.Stream
import Zhios.Lib.CString
import Zhios.Fs.Fat16
import Zhios.Fs.FatChain
import Zhios.Fs.FatCount
import Zhios.Fs.FatRead
import Zhios.Fs.FatDirectory
import Zhios.Fs.Path
import Zhios.Fs.FatOpen
import Zhios.Fs.File
import Zhios.Fs.FileOpen
import Zhios.Fs.FilePosition
import Zhios.Machine.Ring
import Zhios.Task.Keyboard
import Zhios.Memory.HeapPinned
import Zhios.Memory.HeapGuards
import Zhios.Memory.HeapRequest
import Zhios.Memory.PagingRange
import Zhios.Task.Allocations
import Zhios.Task.AllocationRelease
import Zhios.Task.ProcessTable
import Zhios.Fs.FileLeak
import Zhios.Machine.Rank
import Zhios.Task.Registers
import Zhios.Task.Schedule
import Zhios.Task.ContextSwitch
import Zhios.Loaders.Elf
import Zhios.Loaders.ElfMap
import Zhios.Loaders.ElfSegments
import Zhios.Loaders.ElfLoad
import Zhios.Loaders.ElfBuffer
import Zhios.Loaders.LoadHeap
import Zhios.Lib.StringMemory
import Zhios.Task.Arguments
import Zhios.Task.Load
import Zhios.Task.ProcessMapping
import Zhios.Task.LoadFailure
import Zhios.Task.LoadContract
import Zhios.Task.ProcessEnd
import Zhios.Memory.PagingRelease
import Zhios.Fs.FatName
import Zhios.Fs.FatWalk
import Zhios.Fs.FatResolve
import Zhios.Fs.FatBreak
import Zhios.Fs.FileSeek
import Zhios.Fs.FatDivision
import Zhios.Fs.FatOverflow
import Zhios.Fs.FatUnion
import Zhios.Fs.PathMemory
import Zhios.Task.RoundRobin
import Zhios.Fs.PathFree
import Zhios.Task.CopyString
import Zhios.Lib.ObjectStrings
import Zhios.Task.CommandBuffers
import Zhios.Loaders.ElfReads
import Zhios.Syslib.ReadLine
import Zhios.Syslib.Itoa
import Zhios.Syslib.Printf
import Zhios.Machine.Raster
import Zhios.Syslib.ArgParser
import Zhios.Video.Vesa
import Zhios.Video.Psf
import Zhios.Video.Terminal
import Zhios.Video.TextPlace
import Zhios.Video.PsfTable
import Zhios.Fs.FatMatch
import Zhios.Lib.Tokens
import Zhios.Loaders.ElfBounds
import Zhios.Disk.Controller
import Zhios.Task.InputRun
import Zhios.Task.Isolation
import Zhios.Video.Echo
import Zhios.Syslib.TypedLine
import Zhios.Syslib.LibraryCall
import Zhios.Interrupts.Isr
import Zhios.Memory.PagingFresh
import Zhios.Task.AddressSpace
