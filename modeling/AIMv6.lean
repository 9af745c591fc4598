import AIMv6.GlobalTimer
import AIMv6.SlabLayout
import AIMv6.SlabLists
import AIMv6.PageTableRollback
import AIMv6.DirectoryRuns
import AIMv6.UvmSearch
import AIMv6.UvmAtomic
import AIMv6.UvmPieces
import AIMv6.FreeListPages
import AIMv6.MemoryRuns
import AIMv6.DeviceListRuns
import AIMv6.SnprintfScan
import AIMv6.SnprintfNumbers
import AIMv6.ArmMap
import AIMv6.I386LeafTables
import AIMv6.EarlyMap
import AIMv6.ArmTableCache
import AIMv6.MsimBoot
import AIMv6.ZynqDisk
import AIMv6.I386Boot
import AIMv6.AddMemoryPages
import AIMv6.LoongsonMemory
import AIMv6.PageReferences
import AIMv6.PageListForm
import AIMv6.Spinlocks
import AIMv6.UserAccess
