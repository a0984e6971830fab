import MoBoMemory.Base.Loop
import MoBoMemory.Base.Walks
import MoBoMemory.Base.Spans
import MoBoMemory.Base.Gaps
import MoBoMemory.Base.Tables
import MoBoMemory.Base.Keyed
import MoBoMemory.Base.Exchange
import MoBoMemory.Base.Runs
import MoBoMemory.Base.Rings
import MoBoMemory.Base.Programs
import MoBoMemory.Base.Dialogues
import MoBoMemory.Base.Digits
import MoBoMemory.Base.Rounding
import MoBoMemory.Base.MultiplyWithCarry
import MoBoMemory.Base.Heaps
import MoBoMemory.Base.Transfers
import MoBoMemory.Base.CStrings
import MoBoMemory.Base.StringRows
import MoBoMemory.Driver.E820
import MoBoMemory.Driver.NodeMap
import MoBoMemory.Driver.Regions
import MoBoMemory.Driver.Ioctl
import MoBoMemory.Driver.Pipeline
import MoBoMemory.Driver.Srat
import MoBoMemory.Driver.SratBlocks
import MoBoMemory.Driver.SratWalk
import MoBoMemory.Driver.Mmap
import MoBoMemory.Driver.PageTable
import MoBoMemory.Driver.Placement
import MoBoMemory.Driver.UserArgs
import MoBoMemory.TestLib.Block
import MoBoMemory.TestLib.MarchC
import MoBoMemory.TestLib.Faults
import MoBoMemory.TestLib.Touches
import MoBoMemory.TestLib.Honours
import MoBoMemory.TestLib.Spin
import MoBoMemory.TestLib.Sessions
import MoBoMemory.TestLib.Confined
import MoBoMemory.TestLib.MovInv
import MoBoMemory.TestLib.MovInvLong
import MoBoMemory.TestLib.Modulo
import MoBoMemory.TestLib.StuckBits
import MoBoMemory.TestLib.Detection
import MoBoMemory.TestLib.AddrWalk
import MoBoMemory.TestLib.Aliases
import MoBoMemory.TestLib.Banks
import MoBoMemory.TestLib.RandomScale
import MoBoMemory.TestLib.BitColumns
import MoBoMemory.TestLib.Downward
import MoBoMemory.TestLib.BlockMove
import MoBoMemory.TestLib.BlockRotation
import MoBoMemory.TestLib.BlockNotice
import MoBoMemory.TestLib.Unflagged
import MoBoMemory.App.E820Entries
import MoBoMemory.App.CmdlineLimit
import MoBoMemory.App.HexAddress
import MoBoMemory.App.TestItems
import MoBoMemory.App.InitModule
import MoBoMemory.App.TestPolicy
import MoBoMemory.App.SlicePartition
import MoBoMemory.App.WindowClip
import MoBoMemory.App.RandomPattern
import MoBoMemory.App.PatternFile
import MoBoMemory.App.ReadWriteTest
import MoBoMemory.App.ItemExpansion
import MoBoMemory.App.Schedule
import MoBoMemory.App.Coverage
import MoBoMemory.App.FirmwareMap
import MoBoMemory.App.CommandLine
import MoBoMemory.App.ItemVerdicts
import MoBoMemory.App.JoinResults
import MoBoMemory.App.NoFalsePass
import MoBoMemory.App.ExitCode
import MoBoMemory.App.Processes
import MoBoMemory.App.ModuleTestRuns
import MoBoMemory.App.OrphanedChild
import MoBoMemory.TestLib.OwnCodes
import MoBoMemory.App.Capacity
import MoBoMemory.App.RegionLoop
import MoBoMemory.App.ReadOnly
import MoBoMemory.App.NonTestable
import MoBoMemory.App.ComparisonFlag
import MoBoMemory.App.Interleaving
import MoBoMemory.App.Execution
import MoBoMemory.App.EndToEnd
import MoBoMemory.App.Program
import MoBoMemory.App.ListMemory
import MoBoMemory.App.Cleanup
import MoBoMemory.App.CleanupRuns
import MoBoMemory.App.CleanupOnce
import MoBoMemory.AbsDiag.Cachetest
import MoBoMemory.AbsDiag.CachetestPages
import MoBoMemory.AbsDiag.Mcamce
import MoBoMemory.AbsDiag.McaStatus
import MoBoMemory.AbsDiag.ProcFiles
import MoBoMemory.AbsDiag.Thread
