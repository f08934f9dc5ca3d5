import Ember.Code
import Ember.Command
import Ember.Constant
import Ember.Decimal.Nearest
import Ember.Decimal.Notation
import Ember.Decimal.Read
import Ember.Decimal.Shortest
import Ember.Derivative
import Ember.Emit.Basic
import Ember.Emit.Broadcast
import Ember.Emit.Project
import Ember.Emit.Value
import Ember.Failure
import Ember.Files
import Ember.Function
import Ember.Grammar.Basic
import Ember.Grammar.Expr
import Ember.Grammar.Item
import Ember.Grammar.Literal
import Ember.Grammar.Pattern
import Ember.Grammar.Primary
import Ember.Grammar.Statement
import Ember.Grammar.Type
import Ember.Ids
import Ember.Issue
import Ember.Layout
import Ember.Lexeme
import Ember.Line
import Ember.Lower.Basic
import Ember.Lower.Call
import Ember.Lower.Control
import Ember.Lower.Expr
import Ember.Lower.Literal
import Ember.Lower.Pattern
import Ember.Lower.Statement
import Ember.Lower.Type
import Ember.Main
import Ember.NameTable
import Ember.Options
import Ember.Parse
import Ember.Prelude
import Ember.Program.Basic
import Ember.Program.Item
import Ember.Proofs.Atoms
import Ember.Proofs.Blame
import Ember.Proofs.Clean
import Ember.Proofs.Componentwise
import Ember.Proofs.Conversions
import Ember.Proofs.Declarations
import Ember.Proofs.Declare
import Ember.Proofs.Decomposition
import Ember.Proofs.Derivative
import Ember.Proofs.Elements
import Ember.Proofs.Ends
import Ember.Proofs.Exact
import Ember.Proofs.Fresh
import Ember.Proofs.Layout
import Ember.Proofs.Layout.Alternatives
import Ember.Proofs.Layout.Places
import Ember.Proofs.Lexemes
import Ember.Proofs.Lines
import Ember.Proofs.Literal
import Ember.Proofs.Literal.Broadcast
import Ember.Proofs.Literal.Folding
import Ember.Proofs.Literal.Items
import Ember.Proofs.Literal.Prelude
import Ember.Proofs.Literal.Rules
import Ember.Proofs.Matching
import Ember.Proofs.Matching.Arms
import Ember.Proofs.Mend
import Ember.Proofs.Names
import Ember.Proofs.NativeCalls
import Ember.Proofs.Once
import Ember.Proofs.Operands
import Ember.Proofs.Outputs
import Ember.Proofs.Overloads
import Ember.Proofs.ParamNames
import Ember.Proofs.Physical
import Ember.Proofs.Placeholders
import Ember.Proofs.Placeholders.Rules
import Ember.Proofs.Progress
import Ember.Proofs.Progress.Loops
import Ember.Proofs.Progress.Rules
import Ember.Proofs.Quiet
import Ember.Proofs.Quoted
import Ember.Proofs.Reached
import Ember.Proofs.Rounds
import Ember.Proofs.Running
import Ember.Proofs.Running.Operations
import Ember.Proofs.Running.Trees
import Ember.Proofs.Running.Words
import Ember.Proofs.Running.Writing
import Ember.Proofs.Safe
import Ember.Proofs.Safe.Broadcast
import Ember.Proofs.Safe.Call
import Ember.Proofs.Safe.Item
import Ember.Proofs.Safe.Parts
import Ember.Proofs.Safe.Reduce
import Ember.Proofs.Safe.Rules
import Ember.Proofs.Safe.Start
import Ember.Proofs.ScalarOps
import Ember.Proofs.Scan.Brackets
import Ember.Proofs.Scan.Coverage
import Ember.Proofs.Scan.Nesting
import Ember.Proofs.Scope
import Ember.Proofs.Shapes
import Ember.Proofs.SimpleTexts
import Ember.Proofs.Types
import Ember.Proofs.Units
import Ember.Proofs.Unread
import Ember.Proofs.Values
import Ember.Proofs.Worlds
import Ember.Proofs.Worlds.Control
import Ember.Proofs.Worlds.Functions
import Ember.Proofs.Worlds.Items
import Ember.Proofs.Worlds.Parts
import Ember.Proofs.Worlds.Rules
import Ember.Proofs.Worlds.Scoped
import Ember.Proofs.Worlds.Structs
import Ember.Proofs.Worlds.Values
import Ember.Proofs.Written.Words
import Ember.Report
import Ember.Scalar
import Ember.ScalarOp
import Ember.Scope
import Ember.Session
import Ember.Source
import Ember.Span
import Ember.Storage
import Ember.Stream
import Ember.Syntax.Basic
import Ember.Syntax.Operator
import Ember.Syntax.Outline
import Ember.Target
import Ember.Text.Blank
import Ember.Text.Escape
import Ember.Text.Invisible
import Ember.Text.Outline
import Ember.Text.Quoted
import Ember.Token.Basic
import Ember.Token.Kind
import Ember.Token.Listing
import Ember.Token.Scan
import Ember.Ty.Basic
import Ember.Ty.Declare
import Ember.Value
