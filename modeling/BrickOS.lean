import BrickOS.ACPI.IoApic
import BrickOS.ACPI.Mappings
import BrickOS.ACPI.PciConfig
import BrickOS.Basic
import BrickOS.Drivers.Mouse
import BrickOS.Drivers.RxRing
import BrickOS.Drivers.TxRing
import BrickOS.Filesystem.ActivePath
import BrickOS.Filesystem.BitmapIndices
import BrickOS.Filesystem.BitmapSectors
import BrickOS.Filesystem.Deletion
import BrickOS.Filesystem.Directory
import BrickOS.Filesystem.DirectoryReading
import BrickOS.Filesystem.FileContents
import BrickOS.Filesystem.FileMap
import BrickOS.Filesystem.FileOperations
import BrickOS.Filesystem.Handles
import BrickOS.Filesystem.InodeTable
import BrickOS.Filesystem.Listing
import BrickOS.Filesystem.Operations
import BrickOS.Filesystem.Paths
import BrickOS.Filesystem.ReadFile
import BrickOS.Filesystem.SectorAllocator
import BrickOS.Filesystem.UsedSectors
import BrickOS.Filesystem.WriteFile
import BrickOS.IPC.PipeObjects
import BrickOS.IPC.Pipes
import BrickOS.Lib.Bitmap
import BrickOS.Lib.Block
import BrickOS.Lib.ByteReader
import BrickOS.Lib.ByteWriter
import BrickOS.Lib.Cache
import BrickOS.Lib.Deadlock
import BrickOS.Lib.FirstBest
import BrickOS.Lib.Groups
import BrickOS.Lib.Keyed
import BrickOS.Lib.LinkedList
import BrickOS.Lib.PathTree
import BrickOS.Lib.Ranked
import BrickOS.Lib.Ring
import BrickOS.Lib.Run
import BrickOS.Lib.Segments
import BrickOS.Memory.AddressSpaces
import BrickOS.Memory.FaultResolution
import BrickOS.Memory.FilePages
import BrickOS.Memory.FrameAllocator
import BrickOS.Memory.Kmalloc
import BrickOS.Memory.MmapPlacement
import BrickOS.Memory.MunmapLoop
import BrickOS.Memory.PageEntry
import BrickOS.Memory.PageTables
import BrickOS.Memory.Pmm
import BrickOS.Memory.SharedMemory
import BrickOS.Networking.Arp
import BrickOS.Networking.ArpNetwork
import BrickOS.Networking.Checksum
import BrickOS.Networking.ChecksumLaws
import BrickOS.Networking.Dhcp
import BrickOS.Networking.DhcpLease
import BrickOS.Networking.DhcpOptions
import BrickOS.Networking.DhcpRoundTrip
import BrickOS.Networking.DhcpRoutes
import BrickOS.Networking.EchoReply
import BrickOS.Networking.FragmentStore
import BrickOS.Networking.FrameLaws
import BrickOS.Networking.Frames
import BrickOS.Networking.Ip
import BrickOS.Networking.LeaseTimes
import BrickOS.Networking.Receive
import BrickOS.Networking.RecvWaiters
import BrickOS.Networking.Redirects
import BrickOS.Networking.RouteLaws
import BrickOS.Networking.Routing
import BrickOS.Networking.RxOperations
import BrickOS.Networking.RxQueues
import BrickOS.Networking.Send
import BrickOS.Networking.Sockets
import BrickOS.Networking.UdpLocks
import BrickOS.Networking.UdpPorts
import BrickOS.Networking.UdpQueue
import BrickOS.Processes.Candidates
import BrickOS.Processes.Descriptors
import BrickOS.Processes.ElfHeaders
import BrickOS.Processes.Kworker
import BrickOS.Processes.Mutex
import BrickOS.Processes.Periods
import BrickOS.Processes.RoundRobin
import BrickOS.Processes.Scheduler
import BrickOS.Processes.Semaphore
import BrickOS.Processes.SleepQueue
import BrickOS.Processes.ThreadLists
import BrickOS.Processes.TimerCallbacks
import BrickOS.Processes.WaitQueue
import BrickOS.Shared.Format
import BrickOS.Shared.Ipv4Text
import BrickOS.Userland.Borders
import BrickOS.Userland.Compositing
import BrickOS.Userland.FramebufferBounds
import BrickOS.Userland.MergeSections
import BrickOS.Userland.Sections
import BrickOS.Userland.ShellLine
import BrickOS.Userland.Time
import BrickOS.Userland.WinManAnswers
import BrickOS.Userland.WinManMessages
import BrickOS.Utilities.Random
import BrickOS.Utilities.Vector
