import TermCalc.Diagnostic

/-!
# Failures

What can end an operation before its time. A diagnostic tells the user what is wrong with a
statement; a fault is a misuse of the program itself, which is reported with its name and text.

## Main definitions

* `Fault`, `Fault.name`, `Fault.text`: misuses and what is reported of them
* `Failure`: everything that can end an operation
-/

namespace TermCalc

/-- A misuse of the program. -/
inductive Fault where
  | template (e : TemplateError)
  | noSnippets
  | build (e : Term.BuildError)
  | operands (e : OperandMismatch)
  | noResults
  | nulInPath
  | emptyCeiling
  | underline (e : Diagnostic.UnderlineError)
  /-- A fault of another origin, with its name and text. -/
  | other (name text : String)
deriving DecidableEq, Repr

namespace Fault

/-- The name under which a fault is reported. -/
def name : Fault → String
  | .template e => e.name
  | .noSnippets => "IndexError"
  | .build _ => "ValueError"
  | .operands _ => "ValueError"
  | .noResults => "IndexError"
  | .nulInPath => "ValueError"
  | .emptyCeiling => "TypeError"
  | .underline .noOffset => "OverflowError"
  | .underline .tooWide => "MemoryError"
  | .other name _ => name

/-- The text that a fault is reported with. -/
def text : Fault → String
  | .template e => e.text
  | .noSnippets => "list index out of range"
  | .build .namelessSymbol => "symbol name must be a non-empty str, got ''"
  | .build .noArguments => "an application needs at least one argument"
  | .operands e =>
    if e.found < e.expected then
      "not enough values to unpack (expected " ++ Text.decimalText e.expected ++ ", got " ++
        Text.decimalText e.found ++ ")"
    else "too many values to unpack (expected " ++ Text.decimalText e.expected ++ ")"
  | .noResults => "pop from empty list"
  | .nulInPath => "embedded null byte"
  | .emptyCeiling => "'>' not supported between instances of 'int' and 'list'"
  | .underline .noOffset => "cannot fit 'int' into an index-sized integer"
  | .underline .tooWide => ""
  | .other _ text => text

end Fault

/-- What ends an operation before its time. -/
inductive Failure where
  | diagnostic (d : Diagnostic)
  | fault (f : Fault)
  /-- The user interrupted the program. -/
  | interrupted
  /-- The nesting of a statement was too deep to be evaluated. -/
  | tooDeep
  /-- The program ends with that code. -/
  | exit (code : Option Int)
  /-- A reduction without a ceiling took more rewrites than were allowed for. -/
  | patience

namespace Failure

/-- The failure that a diagnostic could not be made. -/
def ofMakeError : Diagnostic.MakeError → Failure
  | .template e => .fault (.template e)
  | .noSnippets => .fault .noSnippets

/-- The failure to read a statement. -/
def ofReadError (ink : Ink) : ReadError → Failure
  | .noToken source position => .diagnostic (.noToken ink source position)
  | .noStatement tokens (.refused problem index) =>
    .diagnostic (.noStatement ink tokens problem index)
  | .noStatement _ (.notANumber image) => .diagnostic (.notANumber ink image)
  | .noStatement _ .namelessSymbol => .fault (.build .namelessSymbol)

/-- The failure to reduce a term. -/
def ofReductionError : ReductionError → Failure
  | .ceiling limit trace => .diagnostic (.ceiling (.limited limit) trace)
  | .operands e => .fault (.operands e)
  | .noNumber => .fault .emptyCeiling
  | .patience => .patience

end Failure

end TermCalc
