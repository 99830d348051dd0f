import Linux012.Runs
import Linux012.Counting
import Linux012.FrameCounts
import Linux012.Coherence
import Linux012.PageFaults
import Linux012.Paging
import Linux012.VerifyArea
import Linux012.Fork
import Linux012.Links
import Linux012.Requests
import Linux012.Pipe
import Linux012.ProcessTree
import Linux012.Zones
import Linux012.Truncate
import Linux012.SwapOut
import Linux012.GetFreePage
import Linux012.ForkFailure
import Linux012.Bitmaps
import Linux012.CreateBlock
import Linux012.SwapSlots
import Linux012.SwapCheck
import Linux012.MountTable
import Linux012.InodeTable
import Linux012.Owning
import Linux012.Namei
import Linux012.Chroot
import Linux012.Signals
import Linux012.WaitQueue
import Linux012.PipeWait
import Linux012.Deltas
import Linux012.Timers
import Linux012.RingBuffer
import Linux012.Tty
import Linux012.LineCount
import Linux012.TtyRoom
import Linux012.ConWrite
import Linux012.Malloc
import Linux012.ExitCode
import Linux012.Bytes
import Linux012.CopyStrings
import Linux012.Exec
import Linux012.Ids
import Linux012.Sessions
import Linux012.Terminals
import Linux012.Files
import Linux012.Integrity
import Linux012.Confidential
import Linux012.HardDisk
import Linux012.Floppy
import Linux012.FloppyEnds
import Linux012.Transfers
import Linux012.TempReals
import Linux012.Stores
import Linux012.Emulator
import Linux012.Rounding
import Linux012.Words
import Linux012.NewNames
import Linux012.ZoneGrowth
import Linux012.NameFailure
import Linux012.Kill
import Linux012.ReadSuper
import Linux012.FilePosition
import Linux012.Scheduler
import Linux012.RequestLife
import Linux012.Rmdir
import Linux012.OpenFiles
import Linux012.BufferRuns
import Linux012.DirectoryMap
import Linux012.FileContent
import Linux012.ExecHeader
import Linux012.ArgumentSpace
import Linux012.AlarmClock
import Linux012.SelectTime
import Linux012.Orphans
import Linux012.Restart
import Linux012.TtyWrites
import Linux012.CallStacks
import Linux012.PtyCopy
import Linux012.LineEditor
import Linux012.CanonicalInput
import Linux012.ExecFailure
import Linux012.WallClock
import Linux012.Limits
import Linux012.RamDisk
import Linux012.Symlinks
import Linux012.OperandAddress
import Linux012.Addition
import Linux012.Comparison
import Linux012.Products
import Linux012.Formats
import Linux012.ConsolePicture
import Linux012.FairShare
import Linux012.StartupTime
