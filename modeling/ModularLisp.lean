import ModularLisp.Action
import ModularLisp.Bindings
import ModularLisp.Builtin.Arithmetic
import ModularLisp.Builtin.Run
import ModularLisp.Error
import ModularLisp.Evaluation.Declaration
import ModularLisp.Evaluation.Form
import ModularLisp.Evaluation.Step
import ModularLisp.Files.Path
import ModularLisp.Files.Tree
import ModularLisp.Loader.Basic
import ModularLisp.Loader.Directory
import ModularLisp.Module.Registry
import ModularLisp.Number.Arithmetic
import ModularLisp.Number.Binary64
import ModularLisp.Number.Decimal
import ModularLisp.Number.Literal
import ModularLisp.Number.Notation
import ModularLisp.Number.Order
import ModularLisp.Number.Power
import ModularLisp.Proofs.Attribution
import ModularLisp.Proofs.Calls
import ModularLisp.Proofs.CanonicalNames
import ModularLisp.Proofs.Contents
import ModularLisp.Proofs.Contracts
import ModularLisp.Proofs.Counterparts
import ModularLisp.Proofs.Courses
import ModularLisp.Proofs.DependencySearch
import ModularLisp.Proofs.Descent
import ModularLisp.Proofs.Directories
import ModularLisp.Proofs.Division
import ModularLisp.Proofs.Domains
import ModularLisp.Proofs.Encoding
import ModularLisp.Proofs.Ending
import ModularLisp.Proofs.Equality
import ModularLisp.Proofs.Evolution
import ModularLisp.Proofs.ExactArithmetic
import ModularLisp.Proofs.ExactValues
import ModularLisp.Proofs.Exchange
import ModularLisp.Proofs.Existence
import ModularLisp.Proofs.Faults
import ModularLisp.Proofs.FileCache
import ModularLisp.Proofs.Filenames
import ModularLisp.Proofs.Flattening
import ModularLisp.Proofs.Frames
import ModularLisp.Proofs.Fuel
import ModularLisp.Proofs.Grammar
import ModularLisp.Proofs.Histories
import ModularLisp.Proofs.Imports
import ModularLisp.Proofs.InProgress
import ModularLisp.Proofs.Inclusion
import ModularLisp.Proofs.IntegerLiterals
import ModularLisp.Proofs.Interchange
import ModularLisp.Proofs.Isolation
import ModularLisp.Proofs.Joining
import ModularLisp.Proofs.KeptBindings
import ModularLisp.Proofs.Libraries
import ModularLisp.Proofs.Literals
import ModularLisp.Proofs.LocalBindings
import ModularLisp.Proofs.Modules
import ModularLisp.Proofs.Names
import ModularLisp.Proofs.Nesting
import ModularLisp.Proofs.NumberTexts
import ModularLisp.Proofs.NumericOrder
import ModularLisp.Proofs.Operands
import ModularLisp.Proofs.Pairings
import ModularLisp.Proofs.Paths
import ModularLisp.Proofs.Pieces
import ModularLisp.Proofs.QualifiedNames
import ModularLisp.Proofs.Quoting
import ModularLisp.Proofs.Reach
import ModularLisp.Proofs.ReadFailures
import ModularLisp.Proofs.Reading
import ModularLisp.Proofs.Renaming
import ModularLisp.Proofs.Requires
import ModularLisp.Proofs.RoundTrip
import ModularLisp.Proofs.Rounding
import ModularLisp.Proofs.Runs
import ModularLisp.Proofs.Safety
import ModularLisp.Proofs.Scoping
import ModularLisp.Proofs.Search
import ModularLisp.Proofs.Sessions
import ModularLisp.Proofs.SharedExports
import ModularLisp.Proofs.Simulation
import ModularLisp.Proofs.Snapshots
import ModularLisp.Proofs.Spelling
import ModularLisp.Proofs.Termination
import ModularLisp.Proofs.Tokens
import ModularLisp.Proofs.Visibility
import ModularLisp.Scope.Heap
import ModularLisp.Scope.Label
import ModularLisp.Session
import ModularLisp.Syntax.Declaration
import ModularLisp.Syntax.Expr
import ModularLisp.Syntax.Lexer
import ModularLisp.Syntax.Parser
import ModularLisp.Syntax.Token
import ModularLisp.Text.Blank
import ModularLisp.Text.DecimalDigit
import ModularLisp.Text.Newline
import ModularLisp.Text.Printable
import ModularLisp.Text.Quoted
import ModularLisp.Text.Utf8
import ModularLisp.Value.Basic
import ModularLisp.Value.Datum
import ModularLisp.Value.Display
import ModularLisp.Value.Equality
