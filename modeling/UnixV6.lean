import UnixV6.Lib.Extent
import UnixV6.Lib.Ownership
import UnixV6.Lib.Run
import UnixV6.Ken.Malloc
import UnixV6.Ken.ResourceMap
import UnixV6.Ken.Slp
import UnixV6.Ken.Custody
import UnixV6.Ken.SlpCustody
import UnixV6.Ken.Swapping
import UnixV6.Dmr.Ide
import UnixV6.Dmr.Swap
import UnixV6.Dmr.SwapImage
import UnixV6.Dmr.Bio
import UnixV6.Dmr.BioLists
import UnixV6.Dmr.BioCache
import UnixV6.Dmr.BufferCache
import UnixV6.H.Inode
import UnixV6.Ken.Fio
import UnixV6.Ken.FileTable
import UnixV6.Ken.Iget
import UnixV6.Ken.InodeTable
import UnixV6.Ken.InodeIdentity
import UnixV6.Ken.InodeLock
import UnixV6.Ken.Pipe
import UnixV6.Ken.PipeFifo
import UnixV6.Dmr.BioData
import UnixV6.Dmr.Coherence
import UnixV6.Ken.Alloc
import UnixV6.Ken.FreeList
import UnixV6.Ken.Sig
import UnixV6.Ken.LifeCycle
import UnixV6.Ken.SigClean
import UnixV6.Ken.SigKil
import UnixV6.Ken.Rdwri
import UnixV6.Ken.Tables
import UnixV6.Ken.Bmap
import UnixV6.Ken.FileBytes
import UnixV6.Ken.FileSpace
import UnixV6.Ken.BlockConservation
import UnixV6.Ken.DeviceList
import UnixV6.Ken.BmapCache
import UnixV6.Ken.Panic
import UnixV6.Dmr.Pc
import UnixV6.Ken.Psig
import UnixV6.Ken.Sslep
import UnixV6.Dmr.Clist
import UnixV6.Ken.Callout
import UnixV6.Ken.Exec
import UnixV6.Ken.ExecArgs
import UnixV6.Ken.ExecImage
import UnixV6.Ken.ExecOutcome
import UnixV6.Dmr.BufWait
import UnixV6.Dmr.BufWaitHeaders
import UnixV6.Dmr.BufWaitPieces
import UnixV6.Dmr.Wakeups
import UnixV6.Dmr.BioWaits
import UnixV6.Dmr.Canon
import UnixV6.Dmr.TtyLines
import UnixV6.Dmr.RkLists
import UnixV6.Dmr.RkOrder
import UnixV6.Dmr.BioDrives
import UnixV6.Ken.Nami
import UnixV6.Ken.NamiStays
import UnixV6.Lib.Slots
import UnixV6.Ken.Directory
import UnixV6.Ken.DirectoryMap
import UnixV6.Ken.IgetError
import UnixV6.Ken.Swtch
import UnixV6.Lib.Calendar
import UnixV6.Lib.OrderRing
import UnixV6.Usr.Ctime
import UnixV6.Usr.Ulib
import UnixV6.Lib.Program
import UnixV6.Tools.Mkfs
import UnixV6.Tools.MkfsFrame
import UnixV6.Tools.MkfsFree
import UnixV6.Tools.MkfsInodes
import UnixV6.Tools.MkfsInput
import UnixV6.Ken.FileRead
import UnixV6.Ken.ExecDevice
import UnixV6.Ken.PipeFile
import UnixV6.Lib.Chunks
import UnixV6.Tools.MkfsCopy
import UnixV6.Tools.MkfsFiles
import UnixV6.Tools.MkfsImage
import UnixV6.Tools.MkfsRead
import UnixV6.Lib.Lines
import UnixV6.Usr.Strings
import UnixV6.Usr.Grep
import UnixV6.Usr.Sh
import UnixV6.Usr.ShSyntax
import UnixV6.Usr.ShWords
import UnixV6.Usr.ShProcess
import UnixV6.Usr.ShMeaning
import UnixV6.Usr.ShSteps
import UnixV6.Usr.ShTrees
import UnixV6.Usr.ShRefines
import UnixV6.Lib.AtomicObject
import UnixV6.Ken.AllocSleep
import UnixV6.Ken.AllocAtomic
import UnixV6.Ken.AllocOrder
import UnixV6.Tools.MkfsMount
import UnixV6.Ken.Path
import UnixV6.Ken.PathWalk
import UnixV6.Ken.PathResolve
import UnixV6.Ken.Ialloc
import UnixV6.Ken.IgetAlone
import UnixV6.Dmr.Kbd
