import MCompiler.Buffer
import MCompiler.SpillSlots
import MCompiler.ParserPrecedence
import MCompiler.HashmapRefinement
import MCompiler.IrCreationMeaning
import MCompiler.IrCreationBlocks
import MCompiler.X86Decoder
import MCompiler.RelocationJumps
import MCompiler.TokenizerLongest
import MCompiler.DomFrontiers
import MCompiler.SsaDominance
import MCompiler.SsaPrecondition
import MCompiler.IrUseRuns
import MCompiler.IrCreationNames
import MCompiler.Lib.Recency
import MCompiler.CodegenTables
import MCompiler.CodegenCalls
import MCompiler.DominatorsPostorder
import MCompiler.CfgBuilding
import MCompiler.DominatorsBackEdges
import MCompiler.DominatorsRooted
import MCompiler.SsaUses
import MCompiler.SsaPhiOperands
import MCompiler.DominatorChains
import MCompiler.HashmapIteration
import MCompiler.ParserLiterals
import MCompiler.TokenizerProgress
import MCompiler.BufferContents
import MCompiler.ParserStatements
import MCompiler.ParserTermination
import MCompiler.Lib.Preorder
import MCompiler.TokenizerPositions
import MCompiler.DecimalNumerals
import MCompiler.DominatorsIntersect
import MCompiler.SsaRenameStacks
import MCompiler.Lib.LevelSearch
import MCompiler.FunctionDump
import MCompiler.ZoneAllocation
import MCompiler.IntrusiveList
import MCompiler.FormatScanner
import MCompiler.Formatting
import MCompiler.PhiOperandArray
import MCompiler.Lib.Stopping
import MCompiler.AstTraversal
import MCompiler.ParserChains
import MCompiler.ParserPhrases
import MCompiler.ParserErrors
import MCompiler.ParserSigns
import MCompiler.ParserGrammar
import MCompiler.ParserReadings
import MCompiler.ParserAccepts
import MCompiler.BufferWriters
import MCompiler.ParserNodes
import MCompiler.Lib.FrontierWalks
import MCompiler.IrPaths
import MCompiler.SsaReaching
import MCompiler.SsaPaths
import MCompiler.SsaPreservation
import MCompiler.SsaEdges
import MCompiler.IrCreationDominators
import MCompiler.SsaExecution
import MCompiler.SourceTokens
import MCompiler.SourceText
import MCompiler.Lib.ByteMemory
import MCompiler.X86Processor
import MCompiler.CodegenMachineCode
import MCompiler.Lib.Lockstep
import MCompiler.AssembledCode
import MCompiler.Hashset
import MCompiler.HashedTraversals
import MCompiler.IrText
import MCompiler.IrTextNames
import MCompiler.Lib.TreeListing
import MCompiler.DominatorsDot
import MCompiler.BufferRoom
import MCompiler.CodegenRoom
import MCompiler.SsaStored
import MCompiler.SsaStackRoom
import MCompiler.SsaFits
import MCompiler.BufferText
import MCompiler.DotBuilder
import MCompiler.IrTextLength
import MCompiler.AstText
