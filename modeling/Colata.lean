import Colata.Languages.JavaScript.Text
import Colata.Languages.JavaScript.Number
import Colata.IR.Node
import Colata.IR.Parser
import Colata.Math.Levelling
import Colata.Math.Occurrence
import Colata.Math.Kahn
import Colata.IR.Edges
import Colata.IR.Levels
import Colata.IR.LevelOrder
import Colata.Math.Dataflow
import Colata.IR.Value
import Colata.IR.Arithmetic
import Colata.IR.LongArithmetic
import Colata.IR.Steps
import Colata.IR.StepEdges
import Colata.IR.StepValues
import Colata.Math.Search
import Colata.IR.Exceptions
import Colata.IR.HiddenSteps
import Colata.IR.FrameNodes
import Colata.IR.StepTexts
import Colata.IR.Params
import Colata.IR.DumpOrder
import Colata.IR.Constants
import Colata.Math.Pieces
import Colata.IR.Dump
import Colata.IR.ReturnValue
import Colata.BenchmarkCompare.CsvLine
import Colata.Languages.Java.Text
import Colata.Languages.Java.Number
import Colata.Math.TreeSet
import Colata.BenchmarkCompare.Params
import Colata.BenchmarkCompare.ReadCsv
import Colata.BenchmarkCompare.CsvText
import Colata.BenchmarkCompare.Rows
import Colata.BenchmarkCompare.JoinByKey
import Colata.BenchmarkCompare.PatchOrder
import Colata.BenchmarkCompare.ListRows
import Colata.Math.CommonPrefix
import Colata.BenchmarkCompare.DenseClassNames
import Colata.BenchmarkCompare.Listing
import Colata.Math.Table
import Colata.Math.Rounding
import Colata.Languages.Java.Format
import Colata.BenchmarkCompare.ScoreFormatter
import Colata.BenchmarkCompare.WriteOut
import Colata.BenchmarkCompare.Alignment
import Colata.Math.Machine
import Colata.Math.StableSort
import Colata.BenchmarkCompare.Orders
import Colata.Languages.Java.Basic
import Colata.Languages.Java.Operators
import Colata.Math.Reduction
import Colata.Languages.Java.ForLoop
import Colata.ReassocChain.Gen
import Colata.ReassocChain.Blocks
import Colata.ReassocChain.Generated
import Colata.Math.PairTree
import Colata.Languages.Java.Operands
import Colata.ReassocChain.Trees
import Colata.Languages.Java.BlockLoop
import Colata.ReassocChain.DualReductions
import Colata.ReassocChain.Unrolled
import Colata.ReassocChain.Xor
import Colata.ReassocChain.PrefixMaxArray
import Colata.Math.Records
import Colata.BranchProbability.LoopState
import Colata.BranchProbability.Reductions
import Colata.BranchProbability.Drawn
import Colata.BranchProbability.Generator
import Colata.Math.Binary64Order
import Colata.ReassocChain.DoubleMax
import Colata.BranchProbability.Doubles
import Colata.MinMaxLoop.RangeState
import Colata.MinMaxLoop.LoopState
import Colata.MinMaxLoop.Loops
import Colata.Languages.Awk
import Colata.CompareInstructions.Report
import Colata.CompareInstructions.Counting
import Colata.Math.Copies
import Colata.Languages.Python.Text
import Colata.CompareMaxShape.Analyze
import Colata.CompareMaxShape.Accumulator
import Colata.Languages.Python.Number
import Colata.Math.RegexTexts
import Colata.Math.RegexComments
import Colata.Disassembly.Address
import Colata.CompareMaxShape.MemName
import Colata.CompareMaxShape.Parse
import Colata.Math.Bracketing
import Colata.CompareMaxShape.Shapes
import Colata.UopsLoop.LoopAssembly
import Colata.Log2Compilation.ByStartTime
import Colata.MwValhalla.ParentInfoIdentity
import Colata.MwValhalla.ParentInfoValue
import Colata.MwValhalla.PatchAsmClassReader
import Colata.MwValhalla.PatchTwice
import Colata.Math.Elements
import Colata.Viewer.Page
import Colata.Viewer.Painting
import Colata.Viewer.Redrawing
import Colata.Viewer.Handlers
import Colata.Viewer.Runs
import Colata.Viewer.Fields
import Colata.Viewer.Shown
import Colata.Viewer.Searching
import Colata.Viewer.JavaSource
