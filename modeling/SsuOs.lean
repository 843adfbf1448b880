import SsuOs.Base.Run
import SsuOs.Base.Monitor
import SsuOs.Base.BubbleSort
import SsuOs.Base.ByteFile
import SsuOs.Base.Fields
import SsuOs.Base.Prog
import SsuOs.Base.Descriptors
import SsuOs.Base.Progress
import SsuOs.Base.Ring
import SsuOs.Base.Fallible
import SsuOs.Base.Bytes
import SsuOs.Base.RedoLog
import SsuOs.Base.Links
import SsuOs.Base.Count
import SsuOs.Base.Bitmap
import SsuOs.Base.Ledger
import SsuOs.RwLock.Basic
import SsuOs.RwLock.WriterPreferring
import SsuOs.RwLock.ReaderPreferring
import SsuOs.RwLock.Progress
import SsuOs.MasterWorker.Program
import SsuOs.MasterWorker.Buffer
import SsuOs.MasterWorker.Progress
import SsuOs.Semaphore.Basic
import SsuOs.Semaphore.Toggle
import SsuOs.Semaphore.ToggleRounds
import SsuOs.Semaphore.ToggleRuns
import SsuOs.Shell.Tokenize
import SsuOs.Shell.Commands
import SsuOs.Shell.Tokens
import SsuOs.Shell.Bounds
import SsuOs.Shell.Blanks
import SsuOs.Shell.Processes
import SsuOs.Shell.Pipeline
import SsuOs.Alloc.SlotTable
import SsuOs.Alloc.Page
import SsuOs.Alloc.Pages
import SsuOs.Alloc.MmapFailures
import SsuOs.Alloc.FirstFit
import SsuOs.Ssufs.Disk
import SsuOs.Ssufs.Ops
import SsuOs.Ssufs.Image
import SsuOs.Ssufs.Simulation
import SsuOs.Ssufs.Records
import SsuOs.Ssufs.RecordCalls
import SsuOs.Ssufs.Functions
import SsuOs.Ssufs.NewFiles
import SsuOs.Ssufs.WriteBlocks
import SsuOs.Ssufs.WriteLoop
import SsuOs.Ssufs.Ownership
import SsuOs.Ssufs.Contents
import SsuOs.Ssufs.FileStore
import SsuOs.Ssufs.Refinement
import SsuOs.Ssufs.WriteEffects
import SsuOs.Ssufs.Attempts
import SsuOs.Ssufs.Effects
import SsuOs.Ssufs.Handles
import SsuOs.Ssufs.Names
import SsuOs.Ssufs.Sizes
import SsuOs.Ssufs.Safety
import SsuOs.Ssufs.Supply
import SsuOs.Ssufs.Remains
import SsuOs.Ssufs.Frames
import SsuOs.Ssufs.Loops
import SsuOs.Ssufs.ClosedHandles
import SsuOs.Ssufs.Slices
import SsuOs.Ssufs.Counts
import SsuOs.Ssufs.Creation
import SsuOs.Ssufs.Reclaim
import SsuOs.Xv6.Scheduler
import SsuOs.Xv6.Fairness
import SsuOs.Xv6.Shares
import SsuOs.Xv6.Process
import SsuOs.Xv6.ProcessTable
import SsuOs.Xv6.Control
import SsuOs.Xv6.Starts
import SsuOs.Xv6.Lives
import SsuOs.Xv6.Pids
import SsuOs.Xv6.ProcessInfo
import SsuOs.Xv6.Pipe
import SsuOs.Xv6.PipeStream
import SsuOs.Xv6.PipeSleepers
import SsuOs.Xv6Fs.Param
import SsuOs.Xv6Fs.Log
import SsuOs.Xv6Fs.LogControl
import SsuOs.Xv6Fs.LogSpace
import SsuOs.Xv6Fs.LogContents
import SsuOs.Xv6Fs.LogCrash
import SsuOs.Xv6Fs.LogWaits
import SsuOs.Xv6Fs.LogRuns
import SsuOs.Xv6Fs.Buf
import SsuOs.Xv6Fs.BufControl
import SsuOs.Xv6Fs.BufRing
import SsuOs.Xv6Fs.BufContents
import SsuOs.Xv6Fs.BufRuns
import SsuOs.Xv6Fs.Inode
import SsuOs.Xv6Fs.Files
import SsuOs.Xv6Fs.FileData
import SsuOs.Xv6Fs.FileFree
import SsuOs.Xv6Fs.FileCalls
import SsuOs.Xv6Fs.FileSpecs
import SsuOs.Xv6Fs.FileRuns
import SsuOs.Xv6Fs.FileLog
import SsuOs.Xv6Fs.InodeCache
import SsuOs.Xv6Fs.Path
import SsuOs.Xv6Sh.Parse
import SsuOs.Xv6Sh.Lex
import SsuOs.Xv6Sh.Grammar
import SsuOs.Xv6Sh.Strings
import SsuOs.Xv6Sh.Run
