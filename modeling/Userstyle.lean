import Userstyle.Main
import Userstyle.Proofs.Places
import Userstyle.Proofs.Positions
import Userstyle.Proofs.LineCursors
import Userstyle.Proofs.ReaderMoves
import Userstyle.Proofs.NodeSpans
import Userstyle.Proofs.Compilation
import Userstyle.Proofs.StringLiterals
import Userstyle.Proofs.Execution
import Userstyle.Proofs.PatternState
import Userstyle.Proofs.PatternCoverage
import Userstyle.Proofs.Inspection
import Userstyle.Proofs.HeaderText
import Userstyle.Proofs.CheckLiterals
import Userstyle.Proofs.NameEnds
import Userstyle.Proofs.TokenEnds
import Userstyle.Proofs.Words
import Userstyle.Proofs.BlankLines
import Userstyle.Proofs.Sketches
import Userstyle.Proofs.NodeLexemes
import Userstyle.Proofs.ReaderLexemes
import Userstyle.Proofs.NodeTexts
import Userstyle.Proofs.Brackets
import Userstyle.Proofs.SheetGrammar
import Userstyle.Proofs.SheetReading
import Userstyle.Proofs.SheetRuns
import Userstyle.Proofs.SheetNodes
import Userstyle.Proofs.ClosedBlocks
import Userstyle.Proofs.LexemeTexts
import Userstyle.Proofs.NodeEnds
import Userstyle.Proofs.GatheredSheets
import Userstyle.Proofs.Parameters
import Userstyle.Proofs.HeldCharacters
import Userstyle.Proofs.PageReach
import Userstyle.Proofs.ParameterGrammar
import Userstyle.Proofs.BuilderCalls
import Userstyle.Proofs.SpanTree
import Userstyle.Proofs.ClosingTokens
import Userstyle.Proofs.MovedSheets
import Userstyle.Proofs.Seams
import Userstyle.Proofs.Concatenation
import Userstyle.Proofs.WrittenParameters
import Userstyle.Proofs.ParameterFaults
import Userstyle.Proofs.NestedSheets
import Userstyle.Proofs.FaultPlaces
import Userstyle.Proofs.HostChecks
import Userstyle.Proofs.PrefixCuts
import Userstyle.Proofs.MergedPatterns
import Userstyle.Proofs.MetadataLayers
import Userstyle.Proofs.LineScans
import Userstyle.Proofs.CursorCalls
import Userstyle.Proofs.LocatedPlaces
import Userstyle.Proofs.CommandRuns
import Userstyle.Proofs.InclusiveSlices
import Userstyle.Proofs.BareSlashes
import Userstyle.Proofs.HeaderValues
