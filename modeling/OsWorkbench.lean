import OsWorkbench.Library.Matching
import OsWorkbench.Library.Grouping
import OsWorkbench.Library.PointerChain
import OsWorkbench.Library.Ring
import OsWorkbench.Library.Monitor
import OsWorkbench.Library.Writes
import OsWorkbench.Library.Tally
import OsWorkbench.Library.Tiling
import OsWorkbench.Library.ChildSibling
import OsWorkbench.Library.PointerTree
import OsWorkbench.Library.Segment
import OsWorkbench.Library.Blocks
import OsWorkbench.Library.Allocation
import OsWorkbench.Fsrecov.ScanResult
import OsWorkbench.Fsrecov.Format
import OsWorkbench.Fsrecov.OneToOne
import OsWorkbench.Fsrecov.Partition
import OsWorkbench.Fsrecov.PartBounds
import OsWorkbench.Fsrecov.LongAsShort
import OsWorkbench.Fsrecov.LongName
import OsWorkbench.Fsrecov.Coverage
import OsWorkbench.Fsrecov.LegalRuns
import OsWorkbench.Fsrecov.EntrySet
import OsWorkbench.Fsrecov.ClusterView
import OsWorkbench.Fsrecov.Rejoin
import OsWorkbench.Fsrecov.Layout
import OsWorkbench.Fsrecov.Recovery
import OsWorkbench.Fsrecov.Addressing
import OsWorkbench.Fsrecov.WaitingCapacity
import OsWorkbench.Fsrecov.HandleRange
import OsWorkbench.Fsrecov.HandleRoutes
import OsWorkbench.Fsrecov.Sequences
import OsWorkbench.Fsrecov.NameLength
import OsWorkbench.Fsrecov.ForeignNames
import OsWorkbench.Fsrecov.NameBytes
import OsWorkbench.Fsrecov.Matcher
import OsWorkbench.Fsrecov.Checksum
import OsWorkbench.Libco.Model
import OsWorkbench.Libco.NodeList
import OsWorkbench.Libco.Scheduler
import OsWorkbench.Libco.Refine
import OsWorkbench.Libco.Runs
import OsWorkbench.Libco.ListIntegrity
import OsWorkbench.Libco.WaitStatus
import OsWorkbench.Libco.Aborts
import OsWorkbench.Libco.LifeCycle
import OsWorkbench.Libco.TestQueue
import OsWorkbench.Libco.Outcomes
import OsWorkbench.Libco.Threads
import OsWorkbench.Libco.TestProgram
import OsWorkbench.Libco.ProducerConsumer
import OsWorkbench.Libco.ExitWalk
import OsWorkbench.Gpt.Model
import OsWorkbench.Gpt.Accounting
import OsWorkbench.Gpt.Wakeups
import OsWorkbench.Gpt.MatmulLoop
import OsWorkbench.Gpt.Refinement
import OsWorkbench.Gpt.Shutdown
import OsWorkbench.Gpt.Transformer
import OsWorkbench.Gpt.Layers
import OsWorkbench.Gpt.LayerRows
import OsWorkbench.Gpt.Attention
import OsWorkbench.Gpt.AttentionRows
import OsWorkbench.Gpt.Tensors
import OsWorkbench.Gpt.Forward
import OsWorkbench.Gpt.BlockRows
import OsWorkbench.Gpt.ForwardRows
import OsWorkbench.Gpt.Replay
import OsWorkbench.Gpt.Generate
import OsWorkbench.Gpt.Exact
import OsWorkbench.Pstree.Model
import OsWorkbench.Pstree.Build
import OsWorkbench.Pstree.PidOrder
import OsWorkbench.Pstree.Print
import OsWorkbench.Pstree.PrefixWidth
import OsWorkbench.Sperf.Model
import OsWorkbench.Sperf.Statistics
import OsWorkbench.Sperf.Extract
import OsWorkbench.Sperf.Ordering
import OsWorkbench.Sperf.Shares
import OsWorkbench.Klib.Strings
import OsWorkbench.Klib.Heap
import OsWorkbench.Klib.Expansion
import OsWorkbench.Klib.Numbers
import OsWorkbench.Hello.Draw
import OsWorkbench.Crepl.Session
import OsWorkbench.Library.Words
import OsWorkbench.Library.Radix
import OsWorkbench.Am.Paging
import OsWorkbench.Am.PageTables
import OsWorkbench.Am.PageWalk
import OsWorkbench.Am.Teardown
import OsWorkbench.Am.AddressSpaces
import OsWorkbench.Am.SpaceInvariant
import OsWorkbench.Am.VmeInit
import OsWorkbench.Am.SpaceRuns
import OsWorkbench.Am.SpaceRefinement
import OsWorkbench.Library.BitCount
import OsWorkbench.Library.DoubleWord
import OsWorkbench.Library.LongDivision
import OsWorkbench.Klib.Int64
import OsWorkbench.Klib.DivisionLoop
import OsWorkbench.Klib.DivisionSetup
import OsWorkbench.Klib.Division
import OsWorkbench.Klib.BitCounts
import OsWorkbench.Library.Reading
import OsWorkbench.Sperf.Parent
import OsWorkbench.Pstree.Status
import OsWorkbench.Pstree.Main
import OsWorkbench.Library.Overlay
import OsWorkbench.Am.Boot
import OsWorkbench.Am.Loader
import OsWorkbench.Library.Stack
import OsWorkbench.Am.Trap
import OsWorkbench.Am.ContextSwitch
import OsWorkbench.Am.ContextRuns
import OsWorkbench.Klib.Memory
import OsWorkbench.Am.KeyQueue
import OsWorkbench.Am.Trap32
