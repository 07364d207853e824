import TermCalc.Session

/-!
# The interactive shell

The shell reads lines, prompts for each and evaluates statements in one session. Errors are reported
and the shell goes on. The end of the input acts as the line `EOF`.

## Main definitions

* `Shell.Command`, `Shell.command`: what a line asks for
* `Shell.step`: what one command does
* `Shell.loop`: the shell on the lines of its input
-/

namespace TermCalc

/-- A shell: its session and the number of statements so far. -/
structure Shell where
  session : Session
  count : Nat

namespace Shell

/-! ## The texts of the shell -/

/-- What the shell writes when it starts. -/
def intro : String :=
  "Welcome to the Symbolica repl!\nType 'help' for more information.\n"

/-- What the shell writes before it reads a line. -/
def prompt : String :=
  "> "

/-- What the shell writes when it is asked for help. -/
def help : String :=
  "Welcome to the Symbolica interpreter!\n\n" ++
  "Type an arithmetic expression such as '(2 + 3) * x' and every step of its\n" ++
  "simplification is printed, down to a normal form. Constants are folded and\n" ++
  "identities like 'x + 0' or 'a - a' are eliminated.\n\n" ++
  "Bind a variable with 'x = 5'; later statements in the session use the binding.\n" ++
  "'pi' and 'e' are predefined. Comments start with '--'. Type 'exit' to quit.\n"

/-! ## Commands -/

/-- What a line asks for. -/
inductive Command where
  | nothing
  | help
  | exit
  | endOfInput
  | statement (line : String)
deriving DecidableEq, Repr

/-- The characters of a command's name. -/
def isNamePart (c : Char) : Bool :=
  c.isAlphanum || c == '_'

/-- The command that a line starts with; a line that starts with none is a statement. -/
def namedCommand (line : List Char) : Command :=
  let name := String.ofList (line.takeWhile isNamePart)
  if name = "help" then .help
  else if name = "exit" then .exit
  else if name = "EOF" then .endOfInput
  else .statement (String.ofList line)

/-- What a line asks for. A question mark in front is short for help, and a line with an exclamation
mark in front is a statement. -/
def command (line : String) : Command :=
  match (Text.trim line).toList with
  | [] => .nothing
  | '?' :: _ => .help
  | '!' :: rest => .statement (String.ofList ('!' :: rest))
  | cs => namedCommand cs

/-! ## The loop -/

/-- Evaluates a statement under the shell's reporter. The last part is the failure that the
reporter lets through, if one is. -/
def evaluate (sh : Shell) (patience : Nat) (line : String) : String × Shell × Option Failure :=
  let count := sh.count + 1
  let outcome := sh.session.evaluate patience (Session.preprocess line) count
  match outcome.result with
  | .ok trace =>
    (outcome.out ++ Session.traceText (trace.getD []), ⟨outcome.session, count⟩, none)
  | .error e =>
    let settled := outcome.session.reporter.settle e
    (outcome.out ++ settled.out, ⟨{ outcome.session with reporter := settled.reporter }, count⟩,
      settled.failure)

/-- How the shell goes on after a command. -/
inductive Next where
  | goOn
  | stop
  | fail (e : Failure)

/-- Carries out a command: what is written, the shell after it and how it goes on. -/
def step (sh : Shell) (patience : Nat) : Command → String × Shell × Next
  | .nothing => ("", sh, .goOn)
  | .help => (help, sh, .goOn)
  | .exit => ("", sh, .stop)
  | .endOfInput => ("\n", sh, .stop)
  | .statement line =>
    match sh.evaluate patience line with
    | (out, sh, none) => (out, sh, .goOn)
    | (out, sh, some e) => (out, sh, .fail e)

/-- The shell on lines: what is written, the shell at the end and the failure that ended it, if one
did. -/
def loop (sh : Shell) (patience : Nat) : List String → String × Shell × Option Failure
  | [] =>
    let (out, sh, _) := sh.step patience .endOfInput
    (prompt ++ out, sh, none)
  | line :: lines =>
    match sh.step patience (command line) with
    | (out, sh, .goOn) =>
      let (rest, sh, failure) := sh.loop patience lines
      (prompt ++ out ++ rest, sh, failure)
    | (out, sh, .stop) => (prompt ++ out, sh, none)
    | (out, sh, .fail e) => (prompt ++ out, sh, some e)

/-- The shell of a session on the text of its input. -/
def run (session : Session) (patience : Nat) (input : String) : String × Shell × Option Failure :=
  let (out, sh, failure) := loop ⟨session, 0⟩ patience (Text.inputLines input)
  (intro ++ out, sh, failure)

end Shell

end TermCalc
