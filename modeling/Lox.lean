import Lox.Arena
import Lox.Arguments
import Lox.Bindings
import Lox.CommandLine
import Lox.Compile
import Lox.Decimal.Double
import Lox.Decimal.Layout
import Lox.Decimal.Nearest
import Lox.Decimal.Shortest
import Lox.Diagnostic
import Lox.Grammar.Expression
import Lox.Grammar.Fault
import Lox.Grammar.Parser
import Lox.Grammar.Statement
import Lox.Machine
import Lox.Machine.Step
import Lox.Main
import Lox.Proofs.Alike.Machine
import Lox.Proofs.Alike.Map
import Lox.Proofs.Alike.Rename
import Lox.Proofs.Alike.Resolve
import Lox.Proofs.Alike.Run
import Lox.Proofs.Alike.Step
import Lox.Proofs.Alike.Store
import Lox.Proofs.Alike.Tree
import Lox.Proofs.Arena.Capture
import Lox.Proofs.Arena.Chain
import Lox.Proofs.Arena.Enclosing
import Lox.Proofs.Arena.Keeps
import Lox.Proofs.Arena.Lookup
import Lox.Proofs.Arena.Marking
import Lox.Proofs.Arena.Operations
import Lox.Proofs.Arena.Route
import Lox.Proofs.Arena.StoreLaws
import Lox.Proofs.Compile
import Lox.Proofs.Decimal.Double
import Lox.Proofs.Decimal.Layout
import Lox.Proofs.Decimal.Shortest
import Lox.Proofs.Grammar.CompleteStatements
import Lox.Proofs.Grammar.Completeness
import Lox.Proofs.Grammar.Declared
import Lox.Proofs.Grammar.Derivation
import Lox.Proofs.Grammar.Ensures
import Lox.Proofs.Grammar.Exact
import Lox.Proofs.Grammar.Follows
import Lox.Proofs.Grammar.Identifiers
import Lox.Proofs.Grammar.Join
import Lox.Proofs.Grammar.Later
import Lox.Proofs.Grammar.Nesting
import Lox.Proofs.Grammar.Observed
import Lox.Proofs.Grammar.Progress
import Lox.Proofs.Grammar.Soundness
import Lox.Proofs.Grammar.Spends
import Lox.Proofs.Grammar.Wording
import Lox.Proofs.Grammar.Yields
import Lox.Proofs.Machine.Access
import Lox.Proofs.Machine.Calls
import Lox.Proofs.Machine.Depth
import Lox.Proofs.Machine.Fits
import Lox.Proofs.Machine.ForRun
import Lox.Proofs.Machine.Nest
import Lox.Proofs.Machine.Preservation
import Lox.Proofs.Machine.Sequel
import Lox.Proofs.Machine.Stack
import Lox.Proofs.Machine.World
import Lox.Proofs.Repl.Brackets
import Lox.Proofs.Repl.Complete
import Lox.Proofs.Repl.Lines
import Lox.Proofs.Scope.Declarations
import Lox.Proofs.Scope.ForLoop
import Lox.Proofs.Scope.Lexical
import Lox.Proofs.Scope.Mentions
import Lox.Proofs.Scope.Names
import Lox.Proofs.Scope.Receiver
import Lox.Proofs.Scope.Reports
import Lox.Proofs.Scope.Resolved
import Lox.Proofs.Scope.Returns
import Lox.Proofs.Scope.Signs
import Lox.Proofs.Scope.Site
import Lox.Proofs.Scope.Walk
import Lox.Proofs.Session.CallLocals
import Lox.Proofs.Session.Closures
import Lox.Proofs.Session.Effects
import Lox.Proofs.Session.Entries
import Lox.Proofs.Session.Faults
import Lox.Proofs.Session.ForLoops
import Lox.Proofs.Session.ForRounds
import Lox.Proofs.Session.History
import Lox.Proofs.Session.Instances
import Lox.Proofs.Session.LocalReads
import Lox.Proofs.Session.Outcomes
import Lox.Proofs.Session.Owners
import Lox.Proofs.Session.Pieces
import Lox.Proofs.Session.Receivers
import Lox.Proofs.Session.Rejected
import Lox.Proofs.Session.Release
import Lox.Proofs.Session.Renaming
import Lox.Proofs.Session.Returning
import Lox.Proofs.Session.Scopes
import Lox.Proofs.Text.Quoted
import Lox.Proofs.Token.Join
import Lox.Proofs.Token.Longest
import Lox.Proofs.Token.Rescan
import Lox.Proofs.Token.Spelling
import Lox.Proofs.Tree
import Lox.Proofs.Tree.Display
import Lox.Proofs.Tree.Map
import Lox.Proofs.Tree.Outline
import Lox.Proofs.Tree.Plain
import Lox.Proofs.Tree.Rename
import Lox.Repl
import Lox.Scope.Context
import Lox.Scope.Misuse
import Lox.Scope.Reference
import Lox.Scope.Resolve
import Lox.Session
import Lox.Text.Blank
import Lox.Text.DecimalDigit
import Lox.Text.Newlines
import Lox.Text.Quoted
import Lox.Text.Ranges
import Lox.Text.Unassigned
import Lox.Text.Utf8
import Lox.Token
import Lox.Token.Piece
import Lox.Token.Scan
import Lox.Tree
import Lox.Tree.Outline
import Lox.Value
import Lox.Value.Operator
