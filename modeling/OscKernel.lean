import OscKernel.Lib.Allocations
import OscKernel.Lib.ArrayStores
import OscKernel.Lib.Bytes
import OscKernel.Lib.Caches
import OscKernel.Lib.Circular
import OscKernel.Lib.Dialogues
import OscKernel.Lib.Dyadic
import OscKernel.Lib.Fuel
import OscKernel.Lib.Histories
import OscKernel.Lib.LinkedList
import OscKernel.Lib.NamedStrings
import OscKernel.Lib.Numerals
import OscKernel.Lib.Overlay
import OscKernel.Lib.References
import OscKernel.Lib.Ring
import OscKernel.Lib.Rotation
import OscKernel.Lib.Sv39
import OscKernel.Lib.System
import OscKernel.Lib.Words
import OscKernel.Model.ActiveTable
import OscKernel.Model.Address
import OscKernel.Model.Cpio
import OscKernel.Model.CpioFields
import OscKernel.Model.Devfs
import OscKernel.Model.Exec
import OscKernel.Model.Fdt
import OscKernel.Model.FileSystem
import OscKernel.Model.Lifecycle
import OscKernel.Model.Memory
import OscKernel.Model.Mmap
import OscKernel.Model.MmapMemory
import OscKernel.Model.OpenFiles
import OscKernel.Model.PageFault
import OscKernel.Model.PageWalk
import OscKernel.Model.Paging
import OscKernel.Model.PathBuffers
import OscKernel.Model.PreemptiveTasks
import OscKernel.Model.Printf
import OscKernel.Model.Printing
import OscKernel.Model.ProcessTables
import OscKernel.Model.Ramfs
import OscKernel.Model.ReservedMemory
import OscKernel.Model.Sched
import OscKernel.Model.SignalDelivery
import OscKernel.Model.Signals
import OscKernel.Model.TaskCreation
import OscKernel.Model.Timers
import OscKernel.Model.Tmpfs
import OscKernel.Model.Trap
import OscKernel.Model.Uart
import OscKernel.Model.Vfs
import OscKernel.Model.VfsUpdate
import OscKernel.Soundness.ActiveTable
import OscKernel.Soundness.AddressSpaces
import OscKernel.Soundness.Allocator
import OscKernel.Soundness.AllocatorAccounts
import OscKernel.Soundness.BlockChoice
import OscKernel.Soundness.BlockRuns
import OscKernel.Soundness.BuddyBlocks
import OscKernel.Soundness.CopyOnWrite
import OscKernel.Soundness.CpioArchive
import OscKernel.Soundness.CpioReaders
import OscKernel.Soundness.CurrentTask
import OscKernel.Soundness.DemandPaging
import OscKernel.Soundness.DeviceTree
import OscKernel.Soundness.ExecImage
import OscKernel.Soundness.FaultProgress
import OscKernel.Soundness.FileCalls
import OscKernel.Soundness.FileContents
import OscKernel.Soundness.ForkFailure
import OscKernel.Soundness.FormattedOutput
import OscKernel.Soundness.FreeLists
import OscKernel.Soundness.HardwareWalk
import OscKernel.Soundness.HexFields
import OscKernel.Soundness.InterruptMasks
import OscKernel.Soundness.KernelTables
import OscKernel.Soundness.Lifecycle
import OscKernel.Soundness.Lookup
import OscKernel.Soundness.LookupTermination
import OscKernel.Soundness.MemoryAccounts
import OscKernel.Soundness.MetadataPlacement
import OscKernel.Soundness.MmapFailure
import OscKernel.Soundness.MountTable
import OscKernel.Soundness.MountVisibility
import OscKernel.Soundness.NestedSignals
import OscKernel.Soundness.OpenFiles
import OscKernel.Soundness.PageTables
import OscKernel.Soundness.PageWalks
import OscKernel.Soundness.PathBuffers
import OscKernel.Soundness.PathCreation
import OscKernel.Soundness.PopulatedPages
import OscKernel.Soundness.PreemptiveTasks
import OscKernel.Soundness.PrintWaits
import OscKernel.Soundness.PrivateMemory
import OscKernel.Soundness.ProcessCreation
import OscKernel.Soundness.ProcessMemory
import OscKernel.Soundness.ProcessTables
import OscKernel.Soundness.RamfsDirectory
import OscKernel.Soundness.RamfsFiles
import OscKernel.Soundness.RefCounts
import OscKernel.Soundness.ReservedMemory
import OscKernel.Soundness.RoundRobin
import OscKernel.Soundness.SerialPort
import OscKernel.Soundness.ShellWait
import OscKernel.Soundness.SignalDelivery
import OscKernel.Soundness.SignalStack
import OscKernel.Soundness.Startup
import OscKernel.Soundness.TableWalks
import OscKernel.Soundness.TaskQueues
import OscKernel.Soundness.TimerList
import OscKernel.Soundness.TmpfsFile
import OscKernel.Soundness.TmpfsTree
import OscKernel.Soundness.TrapFrames
import OscKernel.Soundness.TrapReturn
import OscKernel.Soundness.TreeUpdates
import OscKernel.Soundness.UserMappings
import OscKernel.Soundness.UserMemory
import OscKernel.Soundness.UserPages
import OscKernel.Soundness.VmaTable
import OscKernel.Soundness.WaitReports
import OscKernel.Soundness.WriteBounds
import OscKernel.Model.Bootloader
import OscKernel.Soundness.KernelTransfer
