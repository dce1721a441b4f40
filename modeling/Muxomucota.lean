import Muxomucota.Lib.Runs
import Muxomucota.Lib.Crc
import Muxomucota.Lib.Slots
import Muxomucota.Lib.RefCount
import Muxomucota.Lib.Tally
import Muxomucota.Lib.Linked
import Muxomucota.Lib.Tiling
import Muxomucota.Lib.FirstGap
import Muxomucota.Lib.Returns
import Muxomucota.Lib.Last
import Muxomucota.Lib.Ring
import Muxomucota.Lib.Walk
import Muxomucota.Lib.Keyed
import Muxomucota.Lib.Pieces
import Muxomucota.Lib.FirstDifference
import Muxomucota.Lib.Trees
import Muxomucota.Lib.DoublyLinked
import Muxomucota.Lib.Tables
import Muxomucota.Memory.Pmm
import Muxomucota.Memory.Lifecycle
import Muxomucota.Memory.BootMap
import Muxomucota.Memory.AllocAdvanced
import Muxomucota.Memory.SearchHint
import Muxomucota.Mmu.Ram
import Muxomucota.Mmu.Vmem
import Muxomucota.Mmu.KernelWindow
import Muxomucota.Mmu.Tables
import Muxomucota.Mmu.Spaces
import Muxomucota.Mmu.AddressSpace
import Muxomucota.Mmu.Owned
import Muxomucota.Mmu.Faults
import Muxomucota.Mmu.Clone
import Muxomucota.Mmu.Teardown
import Muxomucota.Mmu.Balance
import Muxomucota.Mmu.Contexts
import Muxomucota.Mmu.FrameLists
import Muxomucota.Memory.Kmalloc
import Muxomucota.Memory.Krealloc
import Muxomucota.Mmu.Kernel
import Muxomucota.Mmu.LazyArea
import Muxomucota.Mmu.Unmap
import Muxomucota.Mmu.Heap
import Muxomucota.Mmu.Shm
import Muxomucota.Mmu.UserMem
import Muxomucota.Mmu.UserMap
import Muxomucota.Mmu.PageContents
import Muxomucota.Mmu.UserUnmap
import Muxomucota.Mmu.ShmReferences
import Muxomucota.Mmu.Digest
import Muxomucota.Mmu.ShmOpenFailure
import Muxomucota.Mmu.Objects
import Muxomucota.Mmu.Access
import Muxomucota.Mmu.Invariant
import Muxomucota.Mmu.FramesInUse
import Muxomucota.Mmu.Sbrk
import Muxomucota.Mmu.Forks
import Muxomucota.Mmu.ForkRights
import Muxomucota.Mmu.Isolation
import Muxomucota.Mmu.FirstTouch
import Muxomucota.Mmu.PageStatus
import Muxomucota.Mmu.LazyMapping
import Muxomucota.Mmu.LazyExact
import Muxomucota.Mmu.ShmIsolation
import Muxomucota.Sync.Rwl
import Muxomucota.Sync.RwlExclusion
import Muxomucota.Sync.RwlProgress
import Muxomucota.Net.TcpIncoming
import Muxomucota.Net.TcpOpen
import Muxomucota.Net.TcpPackets
import Muxomucota.Net.TcpDisconnect
import Muxomucota.Net.TcpStream
import Muxomucota.Net.TcpNumbers
import Muxomucota.Net.TcpAcknowledge
import Muxomucota.Net.TcpRecv
import Muxomucota.Net.TcpRaw
import Muxomucota.Net.TcpWhole
import Muxomucota.Net.TcpMalformed
import Muxomucota.Net.PipeFilter
import Muxomucota.Net.Ports
import Muxomucota.Net.Arp
import Muxomucota.Net.Routing
import Muxomucota.Net.Reception
import Muxomucota.Net.ArpCache
import Muxomucota.Net.AddressPath
import Muxomucota.Net.DnsQuery
import Muxomucota.Net.DnsResponse
import Muxomucota.Net.DhcpOptions
import Muxomucota.Net.Checksum
import Muxomucota.Net.UdpRoundTrip
import Muxomucota.Vfs.PipesAcrossFork
import Muxomucota.Vfs.PipeTable
import Muxomucota.Tasking.Irqs
import Muxomucota.Tasking.IrqSettlement
import Muxomucota.Tasking.PopupLeaders
import Muxomucota.Tasking.PopupStacks
import Muxomucota.Tasking.Waits
import Muxomucota.Tasking.Reaping
import Muxomucota.Tasking.ProcessLists
import Muxomucota.Tasking.TlsIds
import Muxomucota.Tasking.Scheduler
import Muxomucota.Tasking.RunQueue
import Muxomucota.Tasking.IdleScan
import Muxomucota.Tasking.Pids
import Muxomucota.Tasking.PidsUnique
import Muxomucota.Tasking.Load
import Muxomucota.Tasking.LoadWindow
import Muxomucota.Tasking.LoadReads
import Muxomucota.Tasking.LoadContents
import Muxomucota.Tasking.Arguments
import Muxomucota.Tasking.ArgumentContents
import Muxomucota.Tasking.ArgumentPassing
import Muxomucota.Stdlib.Malloc
import Muxomucota.Stdlib.Blocks
import Muxomucota.Stdlib.Client
import Muxomucota.Stdlib.Alignment
import Muxomucota.Stdlib.SizeContract
import Muxomucota.Stdlib.Environment
import Muxomucota.Stdlib.AlignedGeometry
import Muxomucota.Stdlib.AlignedAlloc
import Muxomucota.Stdlib.PageAlloc
import Muxomucota.Tar.Mount
import Muxomucota.Tar.Handles
import Muxomucota.Tar.Malformed
import Muxomucota.Console.Strings
import Muxomucota.Console.Screen
import Muxomucota.Console.Print
import Muxomucota.Console.Cursor
import Muxomucota.Console.Items
import Muxomucota.Console.Chunks
import Muxomucota.Console.Bounded
import Muxomucota.Console.Inside
import Muxomucota.Console.Usable
import Muxomucota.Keyboard.Driver
import Muxomucota.Keyboard.Modifiers
import Muxomucota.Keyboard.Prefixes
import Muxomucota.Keyboard.Fifo
import Muxomucota.Text.Strtok
import Muxomucota.Text.Strstr
import Muxomucota.Text.Strtoll
import Muxomucota.Text.Vsnprintf
import Muxomucota.Text.PrintBound
import Muxomucota.Text.PrintNumbers
import Muxomucota.Text.FormatPanic
import Muxomucota.Text.Compare
import Muxomucota.Boot.Strings
import Muxomucota.Boot.CommandLine
import Muxomucota.Vm86.Machine
import Muxomucota.Vm86.Gpf
import Muxomucota.Vm86.Interrupt
import Muxomucota.Vm86.Cleanup
import Muxomucota.Pci.Tree
import Muxomucota.Pci.Enumeration
import Muxomucota.Vfs.SimplifyPath
import Muxomucota.Vfs.CanonicalPath
import Muxomucota.Vfs.ExtractPath
import Muxomucota.Vfs.RootMapper
import Muxomucota.Vfs.PositionedReads
import Muxomucota.Vfs.LargeTransfer
import Muxomucota.Vfs.LargeReceive
import Muxomucota.Cdi.Tree
import Muxomucota.Cdi.TreeShape
import Muxomucota.Cdi.TreeBalance
import Muxomucota.Cdi.TreeInsert
import Muxomucota.Cdi.TreeRemove
import Muxomucota.Cdi.TreeRuns
import Muxomucota.Cdi.Cache
import Muxomucota.Cdi.Blocks
import Muxomucota.Cdi.CacheSync
import Muxomucota.Cdi.CacheGet
import Muxomucota.Cdi.CacheRuns
