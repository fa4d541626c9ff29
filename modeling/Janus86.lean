import Janus86.StepMachine
import Janus86.RingList
import Janus86.IntervalTiling
import Janus86.ChainWalk
import Janus86.TopBits
import Janus86.KmallocModel
import Janus86.KmallocFreeRing
import Janus86.KmallocPartition
import Janus86.KmallocFreeList
import Janus86.KmallocGaps
import Janus86.CircularQueue
import Janus86.SchedModel
import Janus86.SchedContexts
import Janus86.PageTables
import Janus86.ChunkStores
import Janus86.DiskModel
import Janus86.FileListing
import Janus86.Ext2Model
import Janus86.Ext2InodePlacement
import Janus86.Ext2SparseGroups
import Janus86.Ext2Directory
import Janus86.Ext2FileBlocks
import Janus86.Ext2DirectFile
import Janus86.Ext2DirectoryBounds
import Janus86.Fat32Model
import Janus86.Fat32FileLoad
import Janus86.FileLoadBounds
import Janus86.Fat32Names
import Janus86.Fat32Directory
import Janus86.Fat32SlotsBack
import Janus86.PrintfSpec
import Janus86.VsnprintfModel
import Janus86.VsnprintfRefinement
import Janus86.VsnprintfLaws
import Janus86.ShellArguments
import Janus86.ScreenModel
import Janus86.ScreenSheet
import Janus86.ScreenSession
import Janus86.Fat32Termination
import Janus86.PartitionModel
import Janus86.PartitionWalks
import Janus86.PartitionScan
import Janus86.PartitionPlaces
import Janus86.PartitionTermination
import Janus86.FsModel
import Janus86.FsRoot
import Janus86.FsRegistry
import Janus86.DirectoryWalk
import Janus86.DriverCalls
import Janus86.DriverSpecs
import Janus86.DriveReads
import Janus86.Ext2MountGeometry
import Janus86.FileTree
import Janus86.ShellCommands
import Janus86.CommandSpecs
import Janus86.FsMountFailure
import Janus86.FsDrives
import Janus86.Ext2SameListing
import Janus86.Fat32SameListing
import Janus86.PathResolution
import Janus86.CdFailure
import Janus86.SessionDirectory
import Janus86.Fat32Geometry
import Janus86.Fat32ChainLinks
import Janus86.Fat32RootDirectory
import Janus86.VsnprintfFormatEnd
import Janus86.PrintfNumbers
import Janus86.PrintfBounds
import Janus86.AtoiModel
import Janus86.AtoiNumbers
import Janus86.Fat32NameWalk
import Janus86.NameFieldBounds
import Janus86.ScreenPieces
import Janus86.ZeroTerminated
import Janus86.StringModel
import Janus86.CutStrings
import Janus86.ShellTokens
import Janus86.ShellStrcat
import Janus86.ShellLine
import Janus86.ShellExec
import Janus86.PathBuffers
import Janus86.ArgumentUses
import Janus86.FsRegistrations
import Janus86.PartitionChains
import Janus86.PartitionErrors
import Janus86.ListedNodes
import Janus86.Fat32EntryLog
import Janus86.Fat32DirEntries
import Janus86.Ext2ListedNodes
import Janus86.Fat32ListedNodes
import Janus86.SchedRoundRobin
import Janus86.SchedTasks
import Janus86.KeyboardModel
import Janus86.KeyboardShift
import Janus86.InterruptMask
import Janus86.MemoryCompare
import Janus86.DelayCalibration
import Janus86.AtaModel
import Janus86.AtaRoundTrip
import Janus86.ElfModel
import Janus86.ElfSymbols
import Janus86.ElfBlocks
import Janus86.IdtModel
import Janus86.InterruptRouting
import Janus86.ShellPrints
import Janus86.ShellMain
import Janus86.ShellSession
import Janus86.ShellBuiltins
import Janus86.FileSession
import Janus86.KernelMemory
import Janus86.SessionSheet
import Janus86.BootModel
import Janus86.BootLoad
import Janus86.RequestPrograms
import Janus86.PortDisk
import Janus86.PartitionTable
import Janus86.ModuleSession
import Janus86.MemoryDump
