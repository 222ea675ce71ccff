import TVMCompiler.Lib.SortedDifference
import TVMCompiler.Lib.Slices
import TVMCompiler.Lib.Bits
import TVMCompiler.Stack.Change
import TVMCompiler.Stack.Fixup
import TVMCompiler.Stack.Diff
import TVMCompiler.Stack.DiffForArgs
import TVMCompiler.Stack.RepeatedArgs
import TVMCompiler.Stack.Returns
import TVMCompiler.StackModel.EdgeLayouts
import TVMCompiler.StackModel.Totality
import TVMCompiler.Sdk.Answers
import TVMCompiler.Sdk.Schema
import TVMCompiler.Pass.StoreCombine
import TVMCompiler.Stack.Related
import TVMCompiler.Sdk.RollingIds
import TVMCompiler.Sdk.DictArray
import TVMCompiler.Sdk.Queue
import TVMCompiler.Pass.MCInstLower
import TVMCompiler.Pass.Peephole
import TVMCompiler.Pass.InlineExecution
import TVMCompiler.Pass.ReFuncMerge
import TVMCompiler.Sdk.ChainDynamic
import TVMCompiler.Sdk.ChainOffset
import TVMCompiler.Sdk.PersistentData
import TVMCompiler.Sdk.FuncSignature
import TVMCompiler.Pass.StoreCombineBlock
import TVMCompiler.Pass.PhiPreservation
import TVMCompiler.Pass.BranchRoundTrip
import TVMCompiler.Pass.IfConversionTerm
import TVMCompiler.Pass.ContinuationsDominate
import TVMCompiler.Sdk.MessageAddress
import TVMCompiler.Sdk.CallResult
import TVMCompiler.Sdk.ExternalCall
import TVMCompiler.Sdk.Timestamp
import TVMCompiler.Sdk.TreeCell
import TVMCompiler.Sdk.DictIterator
import TVMCompiler.Sdk.DictMap
import TVMCompiler.Sdk.CellIterator
import TVMCompiler.Sdk.Sequence
import TVMCompiler.Sdk.LogSequence
import TVMCompiler.Sdk.StringCells
import TVMCompiler.Sdk.ParseFailure
import TVMCompiler.Sdk.FullParse
import TVMCompiler.Pass.EmptyBranch
import TVMCompiler.Stack.EqualXchgs
import TVMCompiler.CSdk.TonStruct
import TVMCompiler.Sdk.JsonAbiText
import TVMCompiler.Pass.DefineUndef
import TVMCompiler.CSdk.Memory
import TVMCompiler.Pass.MoveMaterializable
import TVMCompiler.Pass.IntrinsicsLowered
