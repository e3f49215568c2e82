import ScriptLang.Assembly.Instruction
import ScriptLang.Assembly.Listing
import ScriptLang.Assembly.Operand
import ScriptLang.Assembly.StringLiteral
import ScriptLang.Codegen.Convention
import ScriptLang.Codegen.Generator
import ScriptLang.Codegen.Operation
import ScriptLang.Codegen.Program
import ScriptLang.Codegen.State
import ScriptLang.Codegen.Static
import ScriptLang.Codegen.Transfer
import ScriptLang.CommandLine.Command
import ScriptLang.CommandLine.Disk
import ScriptLang.CommandLine.Host
import ScriptLang.CommandLine.Options
import ScriptLang.CommandLine.Path
import ScriptLang.Environment
import ScriptLang.Evaluation.Call
import ScriptLang.Evaluation.Evaluator
import ScriptLang.Evaluation.Loop
import ScriptLang.Evaluation.State
import ScriptLang.Fault
import ScriptLang.Frame
import ScriptLang.Grammar.Cursor
import ScriptLang.Grammar.Expression
import ScriptLang.Grammar.Parser
import ScriptLang.Grammar.Precedence
import ScriptLang.Grammar.Source
import ScriptLang.Grammar.Statement
import ScriptLang.Halt
import ScriptLang.Main
import ScriptLang.NameMap
import ScriptLang.Number.Binary64
import ScriptLang.Number.Reading
import ScriptLang.Number.Shortest
import ScriptLang.Proofs.Assembly.Relabelling
import ScriptLang.Proofs.Codegen.Emission
import ScriptLang.Proofs.Codegen.Linking
import ScriptLang.Proofs.Codegen.Parallel
import ScriptLang.Proofs.Codegen.Pieces
import ScriptLang.Proofs.Codegen.Settling.Program
import ScriptLang.Proofs.Codegen.Stack
import ScriptLang.Proofs.Codegen.Statement
import ScriptLang.Proofs.Evaluation.Balance
import ScriptLang.Proofs.Evaluation.Enclosure
import ScriptLang.Proofs.Evaluation.Halting
import ScriptLang.Proofs.Evaluation.Resolution
import ScriptLang.Proofs.Evaluation.Signals
import ScriptLang.Proofs.Evaluation.Soundness
import ScriptLang.Proofs.Evaluation.Steady
import ScriptLang.Proofs.Evaluation.Transcript
import ScriptLang.Proofs.Failure
import ScriptLang.Proofs.Grammar.Completeness
import ScriptLang.Proofs.Grammar.Derivation
import ScriptLang.Proofs.Invariance
import ScriptLang.Proofs.Machine.Arithmetic
import ScriptLang.Proofs.Machine.Expression
import ScriptLang.Proofs.Machine.Frame
import ScriptLang.Proofs.Machine.Operation
import ScriptLang.Proofs.Machine.Realization
import ScriptLang.Proofs.Machine.Run
import ScriptLang.Proofs.Machine.State
import ScriptLang.Proofs.Machine.Tracking
import ScriptLang.Proofs.Token.Scanning
import ScriptLang.Proofs.Typing.Agreement
import ScriptLang.Proofs.Typing.Simulation
import ScriptLang.Report
import ScriptLang.Source.Line
import ScriptLang.Source.Position
import ScriptLang.Text.Blank
import ScriptLang.Text.Quoted
import ScriptLang.Text.Shapeless
import ScriptLang.Token
import ScriptLang.Token.Lexer
import ScriptLang.Tree.Operators
import ScriptLang.Tree.Program
import ScriptLang.Tree.Types
import ScriptLang.Value
import ScriptLang.Value.Operation
import ScriptLang.Proofs.Grammar.Placement
import ScriptLang.Proofs.Source.Line
import ScriptLang.Proofs.Placement
import ScriptLang.Proofs.Evaluation.Counting
import ScriptLang.Proofs.Codegen.ForPieces
import ScriptLang.Proofs.Machine.Outline
import ScriptLang.Proofs.Machine.Laps
import ScriptLang.Proofs.Evaluation.LapEnd
import ScriptLang.Proofs.LoopRefinement
import ScriptLang.Proofs.Grammar.Locality
import ScriptLang.Proofs.Grammar.Relocation
import ScriptLang.Proofs.Grammar.Rereading
import ScriptLang.Proofs.Tree.Nesting
import ScriptLang.Proofs.Grammar.Standing
import ScriptLang.Proofs.Grammar.Extent
import ScriptLang.Proofs.Extent
import ScriptLang.Proofs.Codegen.LoopJump
import ScriptLang.Proofs.Machine.Convention
import ScriptLang.Proofs.Grammar.Ending
import ScriptLang.Proofs.Grammar.Composition
import ScriptLang.Proofs.Token.Longest
import ScriptLang.Proofs.Token.Newline
import ScriptLang.Proofs.Token.Quoting
import ScriptLang.Proofs.Codegen.Meaning
import ScriptLang.Proofs.Codegen.Estimate
import ScriptLang.Proofs.Assembly.StringLiteral
import ScriptLang.Proofs.Evaluation.Arithmetic
import ScriptLang.Proofs.Evaluation.Resting
import ScriptLang.Proofs.Codegen.Pool
import ScriptLang.Proofs.Codegen.Pool.Operation
import ScriptLang.Proofs.Codegen.Pool.Statement
import ScriptLang.Proofs.Codegen.Pool.Program
import ScriptLang.Proofs.Source.Piece
import ScriptLang.Proofs.Report
import ScriptLang.Proofs.CommandLine.Path
import ScriptLang.Proofs.CommandLine.Directory
import ScriptLang.Proofs.CommandLine.Writing
import ScriptLang.Proofs.CommandLine.Extension
import ScriptLang.Proofs.CommandLine.Build
import ScriptLang.Proofs.Environment.History
import ScriptLang.Proofs.Codegen.Containment
