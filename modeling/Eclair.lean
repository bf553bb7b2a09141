import Eclair.Lib.System
import Eclair.Lib.Simulation
import Eclair.Lib.Loop
import Eclair.Lib.Fuel
import Eclair.Lib.Exact
import Eclair.Lib.Resume
import Eclair.Lib.ByteMem
import Eclair.Lib.Words
import Eclair.Lib.Bits
import Eclair.Lib.StrList
import Eclair.Lib.Linked
import Eclair.Lib.Blocks
import Eclair.Lib.Slice
import Eclair.Lib.Layers
import Eclair.Lib.Outbox
import Eclair.Lib.Marking
import Eclair.Lib.Toggle
import Eclair.Lib.Walk
import Eclair.Lib.RingBuf
import Eclair.Lib.Digits
import Eclair.Lib.Fifo
import Eclair.Basic
import Eclair.Vfs.Node
import Eclair.Vfs.CString
import Eclair.Vfs.Ramfs
import Eclair.Vfs.RamfsBytes
import Eclair.Vfs.Chnlfs
import Eclair.Vfs.Fs
import Eclair.Vfs.Path
import Eclair.Task.State
import Eclair.Task.Lists
import Eclair.Task.Sched
import Eclair.Task.Inv
import Eclair.Task.Tick
import Eclair.Task.Moves
import Eclair.Task.Runs
import Eclair.Task.Wakeups
import Eclair.Task.Turns
import Eclair.Task.Sleep
import Eclair.Task.File
import Eclair.Task.Machine
import Eclair.Task.Wait
import Eclair.Task.WaitRuns
import Eclair.Task.Signals
import Eclair.Task.Sharing
import Eclair.Task.RamFile
import Eclair.Task.UserPages
import Eclair.Chnl.Framing
import Eclair.Mm.Heap
import Eclair.Mm.HeapRuns
import Eclair.Mm.HeapTidy
import Eclair.Mm.Paging
import Eclair.Mm.Frames
import Eclair.Mm.HeapPages
import Eclair.Mm.Space
import Eclair.Mm.Isolation
import Eclair.Mm.SpaceRuns
import Eclair.Boot.Init
import Eclair.Boot.Cmdline
import Eclair.Boot.MemMap
import Eclair.Users
import Eclair.Libc.Memory
import Eclair.Libc.MemoryRuns
import Eclair.Libc.WordFill
import Eclair.Libc.Fixpath
import Eclair.Libc.PathRuns
import Eclair.Libc.Getenv
import Eclair.Libc.Getopt
import Eclair.Libc.Hmap
import Eclair.Libc.Stdio
import Eclair.Libc.Input
import Eclair.Libc.Position
import Eclair.Libc.Printf
import Eclair.Libc.PrintfBound
import Eclair.Libc.PrintfText
import Eclair.Elf.Load
import Eclair.Elf.Image
import Eclair.Elf.Args
import Eclair.Elf.LoadTask
import Eclair.Fs.OpenFile
import Eclair.Fs.Tarfs
import Eclair.Fs.TarScan
import Eclair.Fs.Ext2
import Eclair.Fs.Ext2Held
import Eclair.Fs.Ext2Read
import Eclair.Fs.Ext2Dir
import Eclair.Ecfs.Volume
import Eclair.Ecfs.Accounts
import Eclair.Ecfs.Format
import Eclair.Ecfs.Alloc
import Eclair.Ecfs.Node
import Eclair.Ecfs.BlockMap
import Eclair.Ecfs.File
import Eclair.Ecfs.Contents
import Eclair.Ecfs.FileLoops
import Eclair.Ecfs.FileRuns
import Eclair.Ecfs.Driver
import Eclair.Ecfs.Reader
import Eclair.Driver.Escape
import Eclair.Driver.Console
import Eclair.Driver.Lines
import Eclair.Driver.Pixels
import Eclair.Driver.Cursor
import Eclair.Driver.Screen
import Eclair.Driver.DeviceRings
import Eclair.Lib.Decoder
import Eclair.Driver.Ps2
import Eclair.Driver.Ac97
import Eclair.Shell.Control
import Eclair.Shell.Line
import Eclair.Shell.Exec
import Eclair.Shell.Flow
import Eclair.Shell.Words
import Eclair.Shell.Vectors
import Eclair.Wm.Image
import Eclair.Wm.Draw
import Eclair.Wm.Clip
import Eclair.Wm.CopyArea
import Eclair.Wm.State
import Eclair.Wm.Table
import Eclair.Wm.Stack
import Eclair.Wm.Refs
import Eclair.Wm.Message
import Eclair.Wm.Safety
import Eclair.Wm.Calls
import Eclair.Wm.Net
import Eclair.Crepe.Pass
import Eclair.Wm.Batch
import Eclair.Wm.Screen
import Eclair.Wm.Routing
import Eclair.Wm.Queues
import Eclair.Wm.Compose
import Eclair.Crepe.Draw
import Eclair.Crepe.Tiles
import Eclair.Crepe.Title
import Eclair.Lib.Area
import Eclair.Lib.Calendar
import Eclair.Driver.Rtc
import Eclair.Crepe.Widget
import Eclair.Crepe.Layout
import Eclair.Crepe.Upload
import Eclair.Crepe.Entry
import Eclair.Media.Image
import Eclair.Media.Rle
import Eclair.Media.Sound
import Eclair.Media.Limits
