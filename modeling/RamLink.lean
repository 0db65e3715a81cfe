import RamLink.Lib.Slice
import RamLink.Lib.Dict
import RamLink.Lib.Run
import RamLink.Lib.Extent
import RamLink.Lib.Python
import RamLink.Lib.Socket
import RamLink.Wire
import RamLink.Pool
import RamLink.Handler
import RamLink.Server
import RamLink.Client
import RamLink.Framing
import RamLink.Server.Threads
import RamLink.Provider
import RamLink.Provider.Privacy
import RamLink.Server.Allocator
import RamLink.Provider.Threads
import RamLink.Lib.Lru
import RamLink.WriteBack
import RamLink.WriteBack.Flat
import RamLink.CacheManager
import RamLink.MemoryApi
import RamLink.MemoryApi.Regions
import RamLink.RemoteCache
import RamLink.RemoteCache.Coherence
import RamLink.MemoryService
import RamLink.MemoryService.Lease
import RamLink.Lib.Text
import RamLink.MemoryService.LocalApi
import RamLink.MemoryService.Segments
import RamLink.Agreement
import RamLink.Server.FailedBorrow
import RamLink.Lib.Journal
import RamLink.Server.ByteStore
import RamLink.Provider.Keepalive
import RamLink.Lib.Segmentation
import RamLink.Server.Connection
import RamLink.BlockDevice
import RamLink.MemoryService.OneLease
import RamLink.MemoryService.Ledger
import RamLink.Borrower
import RamLink.Lib.Outcome
import RamLink.WriteBack.Failures
import RamLink.RemoteCache.Failures
import RamLink.WriteBack.Order
import RamLink.RemoteCache.Order
import RamLink.MemoryService.Clients
import RamLink.Eviction
import RamLink.RemoteCache.Reads
import RamLink.WriteBack.Progress
import RamLink.Dokan
import RamLink.Lib.Prog
import RamLink.Lib.Monitor
import RamLink.Lib.Resources
import RamLink.Lib.Quiesce
import RamLink.MemoryService.Programs
import RamLink.MemoryService.Threads
import RamLink.Provider.Exclusive
import RamLink.Lifetime
import RamLink.MemoryService.Commands
import RamLink.MemoryService.Loopback
import RamLink.MemoryService.Apis
import RamLink.Dokan.Client
import RamLink.Dokan.Service
import RamLink.Server.Replies
import RamLink.MemoryService.Phone
import RamLink.Dokan.Phone
import RamLink.Lib.Simulation
import RamLink.WriteBack.Simulation
import RamLink.CacheManager.Served
import RamLink.WriteBack.Contents
import RamLink.WriteBack.Served
import RamLink.CacheManager.Integrity
import RamLink.MemoryApi.Served
