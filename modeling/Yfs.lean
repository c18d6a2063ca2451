import Yfs.Lib.ByteBlock
import Yfs.Lib.Transition
import Yfs.Lib.RootedTree
import Yfs.Lib.Codec
import Yfs.Lib.Monitor
import Yfs.Lib.Termination
import Yfs.Storage.BlockManager
import Yfs.Storage.Inode
import Yfs.Storage.InodeManager
import Yfs.Storage.ExtentServer
import Yfs.Storage.Layout
import Yfs.Storage.WriteFile
import Yfs.Storage.Ownership
import Yfs.Storage.FileMap
import Yfs.Storage.Runs
import Yfs.Storage.AllInodes
import Yfs.Storage.Times
import Yfs.Storage.Indirect
import Yfs.Storage.SizeLimit
import Yfs.Storage.DeadInodes
import Yfs.Rpc.Handle
import Yfs.Rpc.Wire
import Yfs.Rpc.Remote
import Yfs.Rpc.Fifo
import Yfs.Lock.System
import Yfs.Lock.Protocol
import Yfs.Lock.Refinement
import Yfs.Lock.Exclusion
import Yfs.Lock.Custody
import Yfs.Lock.Fallbacks
import Yfs.Lock.Drain
import Yfs.Lock.SpuriousWakes
import Yfs.Lock.LockServer
import Yfs.Client.Prog
import Yfs.Client.ExtentClient
import Yfs.Client.YfsClient
import Yfs.Client.System
import Yfs.Client.Threads
import Yfs.Client.Sections
import Yfs.Client.SectionRuns
import Yfs.Client.Schedule
import Yfs.Client.Files
import Yfs.Client.ExtentRules
import Yfs.Client.Coherence
import Yfs.Client.DirFormat
import Yfs.Client.Directories
import Yfs.Client.Atomicity
import Yfs.Client.Mount
import Yfs.Client.CacheLocks
import Yfs.Client.Alone
import Yfs.Client.ExtentCalls
import Yfs.Client.FailedCalls
import Yfs.Client.Times
import Yfs.Client.FileContent
import Yfs.Client.Reuse
import Yfs.Client.FileOps
import Yfs.Client.Routine
import Yfs.Client.LockDiscipline
import Yfs.Client.FileView
import Yfs.Client.DirView
import Yfs.Client.Names
import Yfs.Client.Tree
import Yfs.Client.Calls
import Yfs.Client.Failures
import Yfs.Client.DirRecords
import Yfs.Client.Listing
import Yfs.Client.FileSharing
import Yfs.Client.Visibility
import Yfs.Client.Fuse
import Yfs.Client.FuseView
import Yfs.Client.FileSystem
import Yfs.Client.Daemon
import Yfs.Client.OverDisk
import Yfs.Client.Endings
import Yfs.Client.Hanging
import Yfs.Client.OverWire
