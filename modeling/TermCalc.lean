import TermCalc.Arguments
import TermCalc.Diagnostic
import TermCalc.Failure
import TermCalc.Ink
import TermCalc.Main
import TermCalc.Number.Binary64
import TermCalc.Number.Decimal
import TermCalc.Number.Layout
import TermCalc.Number.Literal
import TermCalc.Program
import TermCalc.Proofs.Assignment.Course
import TermCalc.Proofs.Assignment.Definition
import TermCalc.Proofs.Assignment.Frame
import TermCalc.Proofs.Assignment.Mark
import TermCalc.Proofs.Assignment.Target
import TermCalc.Proofs.Assignment.Value
import TermCalc.Proofs.Assignment.Warning
import TermCalc.Proofs.Diagnostic.Excerpt
import TermCalc.Proofs.Diagnostic.Fault
import TermCalc.Proofs.Diagnostic.Underline
import TermCalc.Proofs.Number.Arithmetic
import TermCalc.Proofs.Number.Candidates
import TermCalc.Proofs.Number.Denotation
import TermCalc.Proofs.Number.Display
import TermCalc.Proofs.Number.Minimal
import TermCalc.Proofs.Number.Numeral
import TermCalc.Proofs.Number.Order
import TermCalc.Proofs.Number.Packing
import TermCalc.Proofs.Number.Recovery
import TermCalc.Proofs.Number.Rounding
import TermCalc.Proofs.Number.Same
import TermCalc.Proofs.Number.Shortest
import TermCalc.Proofs.Number.StandardText
import TermCalc.Proofs.Program.File
import TermCalc.Proofs.Reduction.Arity
import TermCalc.Proofs.Reduction.Bindings
import TermCalc.Proofs.Reduction.Ceiling
import TermCalc.Proofs.Reduction.Firing
import TermCalc.Proofs.Reduction.Lockstep
import TermCalc.Proofs.Reduction.NormalForm
import TermCalc.Proofs.Reduction.Reentry
import TermCalc.Proofs.Reduction.Scan
import TermCalc.Proofs.Reduction.Search
import TermCalc.Proofs.Reduction.Termination
import TermCalc.Proofs.Reduction.Value
import TermCalc.Proofs.Rule.Alike
import TermCalc.Proofs.Rule.Arity
import TermCalc.Proofs.Rule.Congruence
import TermCalc.Proofs.Rule.Contraction
import TermCalc.Proofs.Rule.DoubleNegation
import TermCalc.Proofs.Rule.Growth
import TermCalc.Proofs.Rule.Operation
import TermCalc.Proofs.Rule.Pass
import TermCalc.Proofs.Rule.Replacement
import TermCalc.Proofs.Rule.Standard
import TermCalc.Proofs.Rule.Substitution
import TermCalc.Proofs.Rule.Value
import TermCalc.Proofs.Rule.Weight
import TermCalc.Proofs.Session.Answer
import TermCalc.Proofs.Session.Batch
import TermCalc.Proofs.Session.Calls
import TermCalc.Proofs.Session.Evaluation
import TermCalc.Proofs.Session.Ledger
import TermCalc.Proofs.Session.Lookup
import TermCalc.Proofs.Session.Moves
import TermCalc.Proofs.Session.Reachable
import TermCalc.Proofs.Session.Recovery
import TermCalc.Proofs.Session.Tables
import TermCalc.Proofs.Shell.Answers
import TermCalc.Proofs.Shell.Rest
import TermCalc.Proofs.Table.Binding
import TermCalc.Proofs.Term.Address
import TermCalc.Proofs.Term.Alike
import TermCalc.Proofs.Term.Cursor
import TermCalc.Proofs.Term.Display
import TermCalc.Proofs.Term.Equivalence
import TermCalc.Proofs.Term.Faults
import TermCalc.Proofs.Term.Grammar
import TermCalc.Proofs.Term.Heads
import TermCalc.Proofs.Term.Impossible
import TermCalc.Proofs.Term.Key
import TermCalc.Proofs.Term.Lookahead
import TermCalc.Proofs.Term.Parser
import TermCalc.Proofs.Term.Part
import TermCalc.Proofs.Term.Printed
import TermCalc.Proofs.Term.Readable
import TermCalc.Proofs.Term.Reading
import TermCalc.Proofs.Term.Refusal
import TermCalc.Proofs.Term.Rejection
import TermCalc.Proofs.Term.RoundTrip
import TermCalc.Proofs.Term.Value
import TermCalc.Proofs.Term.Viable
import TermCalc.Proofs.Text.Braces
import TermCalc.Proofs.Text.Field
import TermCalc.Proofs.Text.Lines
import TermCalc.Proofs.Text.Span
import TermCalc.Proofs.Text.Subject
import TermCalc.Proofs.Text.Template
import TermCalc.Proofs.Token.Ahead
import TermCalc.Proofs.Token.Extent
import TermCalc.Proofs.Token.Lexemes
import TermCalc.Proofs.Token.Scan
import TermCalc.Proofs.Token.Sign
import TermCalc.Proofs.Token.Spacing
import TermCalc.Proofs.Token.Stopping
import TermCalc.Proofs.Token.Tiling
import TermCalc.Proofs.Token.Trailing
import TermCalc.Reduction
import TermCalc.Reporter
import TermCalc.Rule.Basic
import TermCalc.Rule.Operation
import TermCalc.Session
import TermCalc.Shell
import TermCalc.Table
import TermCalc.Term.Basic
import TermCalc.Term.Equivalent
import TermCalc.Term.Parser
import TermCalc.Term.Printer
import TermCalc.Term.Reader
import TermCalc.Text.Blank
import TermCalc.Text.Digit
import TermCalc.Text.Printable
import TermCalc.Text.Quoted
import TermCalc.Text.Span
import TermCalc.Text.Template
import TermCalc.Text.Template.Error
import TermCalc.Text.Template.Kind
import TermCalc.Text.Template.Spec
import TermCalc.Text.Template.Subject
import TermCalc.Token
import TermCalc.Token.Lexer
