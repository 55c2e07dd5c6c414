import NamedLambda.Bytes
import NamedLambda.Name.Table
import NamedLambda.Name.Set
import NamedLambda.Name.Fresh
import NamedLambda.Token
import NamedLambda.Term.Basic
import NamedLambda.Term.Print
import NamedLambda.Term.Alpha
import NamedLambda.Program
import NamedLambda.Diagnostic
import NamedLambda.Parser
import NamedLambda.Encoding
import NamedLambda.Node.Basic
import NamedLambda.Node.Heap
import NamedLambda.Node.View
import NamedLambda.Reduction.Run
import NamedLambda.Reduction.Substitution
import NamedLambda.Reduction.Step
import NamedLambda.Reduction.Normalise
import NamedLambda.Reduction.Trace
import NamedLambda.Reduction.Compute
import NamedLambda.Pool
import NamedLambda.Session
import NamedLambda.Tool.Numeral
import NamedLambda.Tool.Outcome
import NamedLambda.Tool.Evaluate
import NamedLambda.Tool.Lines
import NamedLambda.Tool.Benchmark
import NamedLambda.Main
import NamedLambda.Proofs.Term
import NamedLambda.Proofs.Nameless.Basic
import NamedLambda.Proofs.Nameless.Form
import NamedLambda.Proofs.Nameless.Beta
import NamedLambda.Proofs.Nameless.Normalise
import NamedLambda.Proofs.FreshNames
import NamedLambda.Proofs.Supply
import NamedLambda.Proofs.Nameless.Alike
import NamedLambda.Proofs.Graph
import NamedLambda.Proofs.Calls
import NamedLambda.Proofs.Substitution
import NamedLambda.Proofs.Step
import NamedLambda.Proofs.Leftmost
import NamedLambda.Proofs.Evaluation
import NamedLambda.Proofs.Normalisation
import NamedLambda.Proofs.Lexing
import NamedLambda.Proofs.Layout
import NamedLambda.Proofs.Printing
import NamedLambda.Proofs.RoundTrip
import NamedLambda.Proofs.Grammar
import NamedLambda.Proofs.Parsing.Term
import NamedLambda.Proofs.Parsing.Program
import NamedLambda.Proofs.Parsing.Moves
import NamedLambda.Proofs.Parsing.Stuck
import NamedLambda.Proofs.Parsing.StuckSource
import NamedLambda.Proofs.Parsing.Errors
import NamedLambda.Proofs.Diagnostics
import NamedLambda.Proofs.Repetition
import NamedLambda.Proofs.Definitions
import NamedLambda.Proofs.Readability
import NamedLambda.Proofs.Traces
import NamedLambda.Proofs.Equivalence
import NamedLambda.Proofs.Facts
import NamedLambda.Proofs.Uses
import NamedLambda.Proofs.Visits
import NamedLambda.Proofs.Sharing
import NamedLambda.Proofs.Renaming
import NamedLambda.Proofs.Interning
import NamedLambda.Proofs.Unbound
import NamedLambda.Proofs.Encodings
import NamedLambda.Proofs.Recognition
import NamedLambda.Proofs.Sessions
import NamedLambda.Proofs.Limits
import NamedLambda.Proofs.Computing
import NamedLambda.Proofs.StepLimits
import NamedLambda.Proofs.Pool.Cells
import NamedLambda.Proofs.Pool.Registers
