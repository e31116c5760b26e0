import Asm65816.Action
import Asm65816.Assembly
import Asm65816.Asset.Path
import Asm65816.Asset.Petscii
import Asm65816.Asset.Store
import Asm65816.Command.Byte
import Asm65816.Command.Config
import Asm65816.Command.Files
import Asm65816.Command.Literal
import Asm65816.Command.Options
import Asm65816.Command.Reach
import Asm65816.Command.Run
import Asm65816.Diagnostic.Basic
import Asm65816.Diagnostic.Report
import Asm65816.Expr.Basic
import Asm65816.Expr.Binding
import Asm65816.Expr.Value
import Asm65816.Expr.Width
import Asm65816.Fault
import Asm65816.Flow.Basic
import Asm65816.Flow.Frame
import Asm65816.Flow.Step
import Asm65816.Instruction
import Asm65816.Label
import Asm65816.Line.Basic
import Asm65816.Line.Comment
import Asm65816.Line.Expectation
import Asm65816.Line.Operand
import Asm65816.Line.Reader
import Asm65816.Listing
import Asm65816.Machine.Mode
import Asm65816.Machine.Opcode
import Asm65816.Main
import Asm65816.Number
import Asm65816.Output.Format
import Asm65816.Output.Image
import Asm65816.Output.IntelHex
import Asm65816.Pieces
import Asm65816.Program.Build
import Asm65816.Program.Emission
import Asm65816.Program.Layout
import Asm65816.Program.Names
import Asm65816.Program.Placement
import Asm65816.Proofs.Outcome
import Asm65816.Proofs.ListingIndependence
import Asm65816.Proofs.Walk
import Asm65816.Proofs.EmittedOperations
import Asm65816.Segment.Basic
import Asm65816.Segment.Bytes
import Asm65816.Source.Span
import Asm65816.Table
import Asm65816.Text.Blank
import Asm65816.Text.Case
import Asm65816.Text.Cased
import Asm65816.Text.Digits
import Asm65816.Text.Letters
import Asm65816.Token.Basic
import Asm65816.Token.Class
import Asm65816.Token.Lexer
import Asm65816.Proofs.Length
import Asm65816.Proofs.EmissionFaults
import Asm65816.Proofs.FlowMove
import Asm65816.Proofs.Outline
import Asm65816.Proofs.Agreement
import Asm65816.Proofs.FlowStack
import Asm65816.Proofs.FlowLowering
import Asm65816.Proofs.PlacedBytes
import Asm65816.Proofs.CodeRows
import Asm65816.Proofs.SegmentNames
import Asm65816.Proofs.Coverage
import Asm65816.Proofs.KeyOrder
import Asm65816.Proofs.ListingRows
import Asm65816.Proofs.MachineCode
import Asm65816.Proofs.Disassembly
import Asm65816.Proofs.PastedSources
import Asm65816.Proofs.HexReader
import Asm65816.Proofs.ImageLayout
import Asm65816.Proofs.LabelLookup
import Asm65816.Proofs.BranchReach
import Asm65816.Proofs.OperatorWidths
import Asm65816.Proofs.WidthEstimates
import Asm65816.Proofs.SegmentBounds
import Asm65816.Proofs.BuildLiterals
import Asm65816.Proofs.PlacedLiterals
import Asm65816.Proofs.OperandFields
import Asm65816.Proofs.OperandGrammar
import Asm65816.Proofs.OperandDerivations
import Asm65816.Proofs.LineGrammar
import Asm65816.Proofs.LineDerivations
import Asm65816.Proofs.FlowGrammar
import Asm65816.Proofs.WalkFaults
import Asm65816.Proofs.FlowAcceptance
import Asm65816.Proofs.MacroScope
import Asm65816.Proofs.LayoutPositions
import Asm65816.Proofs.LinePositions
import Asm65816.Proofs.BuildRun
import Asm65816.Proofs.IncludeDepth
import Asm65816.Proofs.IncludeTermination
import Asm65816.Proofs.BlockGrammar
import Asm65816.Proofs.StatementEffects
import Asm65816.Proofs.TrimmedPrograms
import Asm65816.Proofs.DeletedLines
import Asm65816.Proofs.ArmBodies
import Asm65816.Proofs.UnselectedArms
import Asm65816.Proofs.MacroStack
import Asm65816.Proofs.WalkHistory
import Asm65816.Proofs.DefinedNames
import Asm65816.Proofs.NameTables
import Asm65816.Proofs.BlockBodies
import Asm65816.Proofs.BlockNesting
import Asm65816.Proofs.GlobalRequests
import Asm65816.Proofs.LocalLabels
import Asm65816.Proofs.SegmentSwitches
import Asm65816.Proofs.LabelDirections
import Asm65816.Proofs.ModeChoice
import Asm65816.Proofs.ImmediateSigns
import Asm65816.Proofs.LabelFreeInstructions
import Asm65816.Proofs.BoundOperands
import Asm65816.Proofs.PassedOperands
import Asm65816.Proofs.EquateAddresses
import Asm65816.Proofs.EditedPrograms
import Asm65816.Proofs.ChangedWalks
import Asm65816.Proofs.CheckedArithmetic
import Asm65816.Proofs.RefusedResults
import Asm65816.Proofs.ShortestFields
import Asm65816.Proofs.LongestPieces
import Asm65816.Proofs.PrintedOperands
import Asm65816.Proofs.LayoutReferences
import Asm65816.Proofs.FewerReferences
import Asm65816.Proofs.DottedOperands
import Asm65816.Proofs.DottedPrograms
import Asm65816.Proofs.BindingNames
import Asm65816.Proofs.CoveringWidths
import Asm65816.Proofs.ExactOperators
import Asm65816.Proofs.ExactValues
import Asm65816.Proofs.LiteralTokens
import Asm65816.Proofs.StackWalk
import Asm65816.Proofs.LoopRounds
import Asm65816.Proofs.TokenPatterns
import Asm65816.Proofs.LinePieces
import Asm65816.Proofs.NumberTokens
import Asm65816.Proofs.LineCovers
import Asm65816.Proofs.CommentParts
import Asm65816.Proofs.CommentedLines
import Asm65816.Proofs.MovedLines
import Asm65816.Proofs.TextPositions
import Asm65816.Proofs.JoinedSources
import Asm65816.Proofs.LetterCase
import Asm65816.Proofs.RecasedTokens
import Asm65816.Proofs.RecasedLines
import Asm65816.Proofs.EditedInPlace
import Asm65816.Proofs.RecasedPrograms
