import LowLevel.Analysis.PayloadSafety
import LowLevel.Analysis.LostBlocks
import LowLevel.Analysis.UnservedRequests
import LowLevel.Analysis.FreeMemoryCuts
import LowLevel.Analysis.RotationGroup
import LowLevel.Analysis.BmpRoundTrip
import LowLevel.Analysis.RowPadding
import LowLevel.Analysis.NumberRoundTrip
import LowLevel.Analysis.DictionaryLookup
import LowLevel.Analysis.CompleteSearch
import LowLevel.Analysis.GrowthSuffices
import LowLevel.Analysis.FailedAllocation
import LowLevel.Analysis.FreeUndoesMalloc
import LowLevel.Model.Segments
import LowLevel.Interface.HeapRelease
import LowLevel.Analysis.FullRelease
import LowLevel.Interface.HeapLifetime
import LowLevel.Analysis.FallbackRegion
import LowLevel.Analysis.GeometricTurns
import LowLevel.Analysis.FileClasses
import LowLevel.Analysis.RotationOracle
import LowLevel.Analysis.MemoryRelease
import LowLevel.Analysis.SepiaFilters
import LowLevel.Analysis.NumberParsing
import LowLevel.Analysis.HeaderDescription
import LowLevel.Analysis.PixelBuffers
import LowLevel.Analysis.AngleAcceptance
import LowLevel.Analysis.ImageAccess
import LowLevel.Analysis.BufferBounds
import LowLevel.Analysis.WordReading
import LowLevel.Analysis.LineReading
import LowLevel.Analysis.LineTermination
import LowLevel.Analysis.SplitBlocks
import LowLevel.Analysis.ChunkedComparison
import LowLevel.Analysis.PrintedExpressions
import LowLevel.Analysis.FirstFitBlocks
import LowLevel.Analysis.BlockOwnership
import LowLevel.Analysis.StringCopying
import LowLevel.Analysis.CallingConvention
import LowLevel.Interface.ReorderingRounds
import LowLevel.Analysis.ReorderingTest
import LowLevel.Analysis.PipeExchange
import LowLevel.Analysis.AlternatingPrinter
import LowLevel.Analysis.PrintedWords
import LowLevel.Analysis.TransformedFiles
import LowLevel.Analysis.InterruptedWrites
import LowLevel.Analysis.DictionaryRuns
import LowLevel.Analysis.ClientData
import LowLevel.Analysis.ComparerVerdicts
import LowLevel.Library.Codes
import LowLevel.Analysis.PrintedHeap
import LowLevel.Program.OccupiedHeap
import LowLevel.Analysis.SingleBlocks
import LowLevel.Library.Linked
import LowLevel.Program.LinkedLists
import LowLevel.Interface.ListNodes
import LowLevel.Analysis.ListValues
import LowLevel.Library.ObjectHeap
import LowLevel.Program.AstHeap
import LowLevel.Interface.AstNodes
import LowLevel.Analysis.BuiltExpressions
import LowLevel.Program.AllocatorDebug
import LowLevel.Interface.HeapPrinting
import LowLevel.Analysis.ShownBlocks
import LowLevel.Analysis.SepiaFiles
import LowLevel.Library.X86.Stack
import LowLevel.Program.ParseUintTest
import LowLevel.Interface.ParseUintSteps
import LowLevel.Analysis.TestVerdict
