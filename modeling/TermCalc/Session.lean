import TermCalc.Reporter

/-!
# Sessions

A session owns a table of rules, a queue of statements and the traces of the statements that were
reduced. Statements are queued by line number and reduced in order; one that fails leaves the table
as it was before it.

## Main definitions

* `Session`: the state of a session
* `Session.start`: a session on a file or on typed input
* `Session.add`, `Session.run`, `Session.evaluate`, `Session.pop`: its operations
-/

namespace TermCalc

/-- A statement that waits to be reduced: its number, its text and the term it was read as. -/
structure Queued where
  number : Int
  line : String
  term : Term

/-- The state of a session. The results are in the order in which they were found. -/
structure Session where
  reporter : Reporter
  path : String
  interactive : Bool
  ceiling : Ceiling
  table : Table
  queue : List Queued
  results : List (List Term)

/-- What an operation of a session gives: the text that it wrote, the session after it, and a result
or the failure that ended it. -/
structure Outcome (α : Type) where
  out : String
  session : Session
  result : Except Failure α

namespace Session

/-! ## Statements -/

/-- The name that stands for typed input in the place of a file. -/
def inputPath : String :=
  "<in>"

/-- The line without its trailing blanks. -/
def preprocess (line : String) : String :=
  Text.trimEnd line

/-- The name that a statement assigns to: the first argument of an application of `$let`, if it is a
symbol. -/
def target? : Term → Option String
  | .app (.sym tag) (.sym name :: _) => if tag = "$let" then some name else none
  | _ => none

/-- Puts a statement in the place of the one with its number, or at the end if there is none. -/
def enqueue (q : Queued) : List Queued → List Queued
  | [] => [q]
  | p :: rest => if p.number = q.number then q :: rest else p :: enqueue q rest

/-! ## Queueing -/

/-- The session with a line as the active one. -/
def activate (s : Session) (line : String) (number : Int) : Session :=
  { s with reporter := s.reporter.registerLine s.path line number }

/-- The session without an active line. -/
def deactivate (s : Session) : Session :=
  { s with reporter := s.reporter.removeLine s.path }

/-- The statement of a line; `none` if the line holds blanks and comments only. -/
def statement? (line : String) : Except ReadError (Option Term) := do
  let tokens ← Token.read? line
  if (Token.significant tokens).isEmpty then .ok none
  else some <$> Term.parse? tokens

/-- Reads a line and queues its statement. The line stays active if it cannot be read. -/
def add (s : Session) (line : String) (number : Int) : Session × Except Failure (Option Term) :=
  let s := s.activate line number
  match statement? line with
  | .error e => (s, .error (.ofReadError s.reporter.ink e))
  | .ok none => (s.deactivate, .ok none)
  | .ok (some t) =>
    ({ s with queue := enqueue ⟨number, line, t⟩ s.queue }.deactivate, .ok (some t))

/-! ## Reducing -/

/-- The warning that an assignment to `name` binds nothing. It underlines the first place where the
name occurs in the line. -/
def bindsNothing (ink : Ink) (line name : String) : Diagnostic :=
  let start : Int := ((Text.firstIndex? name.toList line.toList).map Int.ofNat).getD (-1)
  .ofParts ink
    [.words "'", .snippet line, .words "' binds nothing: '", .snippet name,
      .words "' is a builtin constant"]
    line start (start + name.length) .general

/-- What is written before a statement is reduced: a warning if it assigns to a name that cannot be
bound. -/
def warning (s : Session) (q : Queued) : String :=
  match target? q.term with
  | some name =>
    if s.table.protects name then
      s.reporter.warningReport (bindsNothing s.reporter.ink q.line name)
    else ""
  | none => ""

/-- The terms of a trace, a line each. -/
def traceText (trace : List Term) : String :=
  String.join (trace.map fun t => t.display ++ "\n")

/-- Reduces one statement. A failure leaves its line active and the table as it was. Outside
interactive sessions the trace is written. -/
def reduceOne (s : Session) (patience : Nat) (q : Queued) : Outcome Unit :=
  let s := s.activate q.line q.number
  let warned := s.warning q
  match s.table.reduce patience s.ceiling q.term with
  | (.error e, _) => ⟨warned, s, .error (.ofReductionError e)⟩
  | (.ok trace, table) =>
    let s := { s with table, results := s.results ++ [trace] }.deactivate
    ⟨warned ++ if s.interactive then "" else traceText trace, s, .ok ()⟩

/-- Reduces statements in order until one fails; the session's queue holds those after it. -/
def runQueue (s : Session) (patience : Nat) : List Queued → Outcome Unit
  | [] => ⟨"", { s with queue := [] }, .ok ()⟩
  | q :: rest =>
    match { s with queue := rest }.reduceOne patience q with
    | ⟨out, s, .error e⟩ => ⟨out, s, .error e⟩
    | ⟨out, s, .ok ()⟩ =>
      let after := s.runQueue patience rest
      { after with out := out ++ after.out }

/-- Reduces the queued statements in order. -/
def run (s : Session) (patience : Nat) : Outcome Unit :=
  s.runQueue patience s.queue

/-- Takes the latest trace off the results. -/
def pop (s : Session) : Session × Except Failure (List Term) :=
  match s.results.getLast? with
  | none => (s, .error (.fault .noResults))
  | some trace => ({ s with results := s.results.dropLast }, .ok trace)

/-- Queues a line, reduces the queue and takes off the latest trace; `none` if the line holds
blanks and comments only. -/
def evaluate (s : Session) (patience : Nat) (line : String) (number : Int) :
    Outcome (Option (List Term)) :=
  match s.add line number with
  | (s, .error e) => ⟨"", s, .error e⟩
  | (s, .ok none) => ⟨"", s, .ok none⟩
  | (s, .ok (some _)) =>
    match s.run patience with
    | ⟨out, s, .error e⟩ => ⟨out, s, .error e⟩
    | ⟨out, s, .ok ()⟩ =>
      let (s, result) := s.pop
      ⟨out, s, result.map some⟩

/-- The term that a name is bound to. -/
def lookup? (s : Session) (name : String) : Option Term :=
  s.table.lookup? name

/-! ## Starting -/

/-- A session without statements. An interactive one makes its reporter go on after errors. -/
def fresh (reporter : Reporter) (path : String) (interactive : Bool) (ceiling : Ceiling) :
    Session where
  reporter := { reporter with fatal := reporter.fatal && !interactive }
  path := path
  interactive := interactive
  ceiling := ceiling
  table := .default
  queue := []
  results := []

/-- Queues lines that are numbered from `number` on, until one cannot be read. -/
def addLines (s : Session) (number : Nat) : List String → Session × Except Failure Unit
  | [] => (s, .ok ())
  | line :: lines =>
    match s.add (preprocess line) number with
    | (s, .error e) => (s, .error e)
    | (s, .ok _) => s.addLines (number + 1) lines

/-- The diagnostic that a session on typed input must be interactive. -/
def reservedPath : Diagnostic :=
  .ofWords ("'" ++ inputPath ++ "' is a reserved filename") .general

/-- Starts a session on the file at `path`, whose text `contents` is if it can be opened, or on
typed input. The lines of the file are queued. The session comes back also if it could not be
started. -/
def start (reporter : Reporter) (path : String) (interactive : Bool) (ceiling : Ceiling)
    (contents : Option String) : Session × Except Failure Unit :=
  let s := fresh (reporter.registerFile path) path interactive ceiling
  if path = inputPath then
    if interactive then (s, .ok ()) else (s, .error (.diagnostic reservedPath))
  else if path.toList.contains '\x00' then (s, .error (.fault .nulInPath))
  else match contents with
    | none => (s, .error (.diagnostic (.unopened reporter.ink path)))
    | some text => s.addLines 1 (Text.fileLines text)

end Session

end TermCalc
