import SbuUnix.Tarfs.Descriptors
import SbuUnix.Tarfs.Directory
import SbuUnix.Tarfs.WorkingDirectory
import SbuUnix.Tarfs.PathResolution
import SbuUnix.Tarfs.ParentName
import SbuUnix.Library.Ring
import SbuUnix.Process.Identity
import SbuUnix.Process.PidBitmap
import SbuUnix.Process.KernelStack
import SbuUnix.Process.Nesting
import SbuUnix.Process.Table
import SbuUnix.Paging.FrameOwnership
import SbuUnix.Paging.ForkRefinement
import SbuUnix.Paging.CopyOnWrite
import SbuUnix.Paging.CopyTables
import SbuUnix.Paging.Fork
import SbuUnix.Paging.FaultResolution
import SbuUnix.Paging.PageFault
import SbuUnix.Paging.Translation
import SbuUnix.Paging.Exhaustion
import SbuUnix.Paging.FrameLeak
import SbuUnix.Process.Exit
import SbuUnix.Crt.ArgumentPassing
import SbuUnix.Paging.FaultTermination
import SbuUnix.Process.Heap
import SbuUnix.Process.Environment
import SbuUnix.Shell.Dispatch
import SbuUnix.Shell.Echo
import SbuUnix.Process.TaskStates
import SbuUnix.Console.Scrolling
import SbuUnix.Console.Session
import SbuUnix.Console.Timer
import SbuUnix.Console.StringPaths
import SbuUnix.Console.Hexadecimal
import SbuUnix.Tarfs.SizeField
import SbuUnix.Libc.Strings
import SbuUnix.Libc.Search
import SbuUnix.Libc.SplitString
import SbuUnix.Library.Pieces
import SbuUnix.Libc.Export
import SbuUnix.Libc.AddParent
import SbuUnix.Libc.Script
import SbuUnix.Process.ArgumentSplitting
import SbuUnix.Libc.Formats
import SbuUnix.Libc.Decimal
import SbuUnix.Console.Cursor
import SbuUnix.Paging.LinearMap
import SbuUnix.Paging.KernelHalf
import SbuUnix.Process.FailedExecve
import SbuUnix.Process.MalformedImage
import SbuUnix.Process.ImageConfinement
import SbuUnix.Process.VmaRecords
import SbuUnix.Process.DescriptorCopy
import SbuUnix.Process.ImageAreas
import SbuUnix.Process.ImageContents
import SbuUnix.Process.Killing
import SbuUnix.Paging.UserMapping
import SbuUnix.Paging.StaleTables
import SbuUnix.Paging.StaleWalks
import SbuUnix.Paging.FrameMap
import SbuUnix.Paging.BootTables
import SbuUnix.Paging.FreeAreas
import SbuUnix.Paging.Confinement
import SbuUnix.Paging.Blocks
import SbuUnix.Console.Interrupted
import SbuUnix.Console.Clock
import SbuUnix.Interrupts.Frames
import SbuUnix.Tarfs.Contents
import SbuUnix.Interrupts.Gates
import SbuUnix.Interrupts.SystemCalls
import SbuUnix.Boot.Handover
import SbuUnix.Library.PagedMemory
import SbuUnix.Paging.FlatMemory
import SbuUnix.Console.Formatted
import SbuUnix.Process.Listing
