import Boron.Cc.ViewsMapped
import Boron.Ex.HandleDeletion
import Boron.Ex.HandleDisposal
import Boron.Ex.HandleDuplication
import Boron.Ex.ParentNames
import Boron.Ex.RwLockExclusion
import Boron.Ex.RwLockTry
import Boron.Ex.ServiceCalls
import Boron.Ex.WaitServices
import Boron.Ext2.Contents
import Boron.Ext2.DirLookup
import Boron.Ext2.InodesSafe
import Boron.Ext2.Location
import Boron.Io.DeviceControl
import Boron.Io.DirectoryListing
import Boron.Io.FileMap
import Boron.Io.FileRefs
import Boron.Io.Partition
import Boron.Io.PipeCounts
import Boron.Io.SharedOffset
import Boron.Io.UncachedRead
import Boron.Ke.Acquisitions
import Boron.Ke.ApcDelivery
import Boron.Ke.DispatcherLock
import Boron.Ke.NextThread
import Boron.Ke.TimerRuns
import Boron.Ldr.ProgramHeaders
import Boron.Mm.AtomicCommit
import Boron.Mm.CacheDetails
import Boron.Mm.CleanUp
import Boron.Mm.Contiguous
import Boron.Mm.FaultLocks
import Boron.Mm.FrameAccounting
import Boron.Mm.LockSwitch
import Boron.Mm.MdlCopies
import Boron.Mm.ModifiedWriter
import Boron.Mm.PageCache
import Boron.Mm.PfnAccounting
import Boron.Mm.Query
import Boron.Mm.SlaTeardown
import Boron.Mm.SlabRuns
import Boron.Mm.Teardown
import Boron.Mm.UnmapPages
import Boron.Mm.ViewReferences
import Boron.Nvme.QueueRuns
import Boron.Os.Constructors
import Boron.Os.CriticalSection
import Boron.Os.LibraryLoading
import Boron.Os.SymbolLookup
import Boron.Os.UserHeapClearing
import Boron.Os.UserHeapRequests
import Boron.Ps.ProcessCreation
import Boron.Ps.ThreadCreation
import Boron.Ps.ThreadRuns
import Boron.Rtl.CommandLine
import Boron.Rtl.RelocAgree
import Boron.Rtl.RelrEncode
import Boron.Tmpfs.FileContents
import Boron.Tmpfs.ReadDir
import Boron.Tmpfs.TreeRuns
import Boron.Tty.TerminalObjects
import Boron.Cg.Line
import Boron.Ex.SystemInformation
import Boron.Os.ProcessReplacement
import Boron.Tty.BufferBounds
