import TermCalc.Failure

/-!
# Reporting

A reporter keeps, for each source file, the line that is being worked on, and writes errors and
warnings against those lines. A fatal reporter ends the program after an error.

## Main definitions

* `Reporter`: the active lines in the order in which their files were registered
* `Reporter.errorReport`, `Reporter.warningReport`: what is written of a diagnostic
* `Reporter.throw`: reports an error
* `Reporter.settle`: deals with the failure of a guarded operation
-/

namespace TermCalc

/-- The line of a source file that is being worked on, if there is one. -/
structure ActiveLine where
  path : String
  line : Option String
  number : Option Int
deriving DecidableEq, Repr

namespace ActiveLine

/-- A file without an active line. -/
def idle (path : String) : ActiveLine :=
  ⟨path, none, none⟩

/-- The characters of the active line, if it has any. -/
def shown? (a : ActiveLine) : Option String :=
  a.line.filter (· != "")

/-- The number of the line as it is written. -/
def numberText (a : ActiveLine) : String :=
  (a.number.map Text.signedText).getD "None"

end ActiveLine

/-- The active lines of source files, and whether an error ends the program. -/
structure Reporter where
  ink : Ink
  fatal : Bool
  active : List ActiveLine

namespace Reporter

/-! ## Active lines -/

/-- Puts an entry in the place of the one for its path, or at the end if there is none. -/
def putIn (a : ActiveLine) : List ActiveLine → List ActiveLine
  | [] => [a]
  | b :: rest => if b.path = a.path then a :: rest else b :: putIn a rest

/-- Makes an entry the one for its path. -/
def put (r : Reporter) (a : ActiveLine) : Reporter :=
  { r with active := putIn a r.active }

/-- Registers a file; it has no active line. -/
def registerFile (r : Reporter) (path : String) : Reporter :=
  r.put (.idle path)

/-- Makes a line the active one of its file. -/
def registerLine (r : Reporter) (path line : String) (number : Int) : Reporter :=
  r.put ⟨path, some line, some number⟩

/-- Leaves a file without an active line. -/
def removeLine (r : Reporter) (path : String) : Reporter :=
  r.put (.idle path)

/-- Leaves every file without an active line. -/
def clear (r : Reporter) : Reporter :=
  { r with active := r.active.map fun a => .idle a.path }

/-! ## Reports -/

/-- The active line of a file, with the column at which a diagnostic starts if it has one. -/
def lineReport (d : Diagnostic) (a : ActiveLine) : Option String :=
  a.shown?.map fun line =>
    let column := if d.isPositioned then ", column " ++ Text.signedText (d.start + 1) else ""
    "  File '" ++ a.path ++ "', line " ++ a.numberText ++ column ++ ":\n    " ++ line ++ "\n"

/-- What prevents the excerpt from being shown, if it is to be shown and cannot be. -/
def excerptError? (d : Diagnostic) : Option Diagnostic.UnderlineError :=
  if d.isPositioned then d.underlineError? else none

/-- The excerpt with its underline, unless something prevents it. -/
def excerptLines (r : Reporter) (hue : Hue) (d : Diagnostic) : String :=
  if d.underlineError?.isSome then "" else d.underlined r.ink hue ++ "\n"

/-- What is written below the message of an error. -/
def errorDetails (r : Reporter) (d : Diagnostic) : String :=
  if d.isPositioned then r.excerptLines .red d
  else match d.cause with
    | .ceiling _ trace =>
      "  gave up after " ++ Text.signedText ((trace.length : Int) - 1) ++
        " rewrites; raise --max-steps to go further\n"
    | _ => ""

/-- The report of an error: the active lines, the message, and the excerpt or how far a reduction
got. -/
def errorReport (r : Reporter) (d : Diagnostic) : String :=
  let lines := r.active.filterMap (lineReport d)
  (if 1 < lines.length then "Traceback:\n" else "") ++ String.join lines ++
    (if d.internal then r.ink.bright .red "[internal] " else "") ++
    r.ink.bright .red "error: " ++ d.marked ++ "\n" ++ r.errorDetails d

/-- The report of a warning: the place of the first active line, the message and the excerpt. -/
def warningReport (r : Reporter) (d : Diagnostic) : String :=
  let place := match r.active.find? (·.shown?.isSome) with
    | some a => r.ink.bold (a.path ++ ":" ++ a.numberText ++ ": ")
    | none => ""
  place ++ r.ink.bright .magenta "warning: " ++ d.marked ++ "\n" ++
    (if d.isPositioned then r.excerptLines .magenta d else "")

/-! ## Failures under a reporter -/

/-- What comes of a failure: what is written, the reporter after it, and the failure that goes on,
if one does. -/
structure Settled where
  out : String
  reporter : Reporter
  failure : Option Failure

/-- Reports an error. A fatal reporter then ends the program, and another one forgets the active
lines. An excerpt that cannot be shown is a fault. -/
def throw (r : Reporter) (d : Diagnostic) : Settled :=
  match excerptError? d with
  | some e => ⟨r.errorReport d, r, some (.fault (.underline e))⟩
  | none =>
    if r.fatal then ⟨r.errorReport d, r, some (.exit (some 1))⟩
    else ⟨r.errorReport d, r.clear, none⟩

/-- The diagnostic of an interruption. -/
def interruption : Diagnostic :=
  { Diagnostic.ofWords "keyboard interrupt" .general with showsExcerpt := true }

/-- The diagnostic of a nesting that is too deep. -/
def depthExceeded : Diagnostic :=
  Diagnostic.ofWords "maximum recursion depth exceeded while evaluating" .general

/-- The diagnostic of a fault. Its name and text go into a template with one empty snippet, so
braces in them have their meaning there. -/
def faultDiagnostic (ink : Ink) (f : Fault) : Except Diagnostic.MakeError Diagnostic := do
  let template := "unknown error: '" ++ f.name ++ ": " ++ f.text ++ "'"
  let d ← Diagnostic.ofTemplate ink template [""] 0 (-1) .general
  .ok { d with internal := true }

/-- Deals with the failure of a guarded operation. Diagnostics, interruptions and too deep a nesting
are reported and end there. A fault is reported and goes on. An exit goes on without a report. -/
def settle (r : Reporter) : Failure → Settled
  | .diagnostic d => r.throw d
  | .interrupted => r.throw interruption
  | .tooDeep => r.throw depthExceeded
  | .exit code => ⟨"", r, some (.exit code)⟩
  | .patience => ⟨"", r, some .patience⟩
  | .fault f =>
    match faultDiagnostic r.ink f with
    | .error e => ⟨"", r, some (.ofMakeError e)⟩
    | .ok d =>
      let settled := r.throw d
      { settled with failure := settled.failure.or (some (.fault f)) }

end Reporter

end TermCalc
