import TermCalc.Program

/-!
# The command line

The outer layer: it reads arguments, files and typed input and writes what the program answers.
-/

namespace TermCalc.CommandLine

/-- The number of rewrites after which a statement without a ceiling is given up. -/
def patience : Nat :=
  Nat.pow 10 15

/-- The text of a file, if it can be opened. -/
def contentsOf (path : String) : IO (Option String) := do
  try
    let text ← IO.FS.readFile path
    return some text
  catch _ => return none

/-- The code that the program ends with after a failure. -/
def exitCode : Option Failure → UInt32
  | none => 0
  | some (.exit none) => 0
  | some (.exit (some code)) => UInt32.ofNat (code % 256).toNat
  | some _ => 1

/-- Reads lines and carries out their commands until the shell stops. -/
partial def interact (sh : Shell) : IO UInt32 := do
  let out ← IO.getStdout
  out.putStr Shell.prompt
  out.flush
  let line ← (← IO.getStdin).getLine
  let command :=
    if line.isEmpty then .endOfInput
    else Shell.command ((Text.inputLines line).headD "")
  let (text, sh, next) := sh.step patience command
  out.putStr text
  out.flush
  match next with
  | .goOn => interact sh
  | .stop => return 0
  | .fail e =>
    let finished := Program.settle sh.session "" e
    out.putStr finished.out
    return exitCode finished.failure

end TermCalc.CommandLine

open TermCalc TermCalc.CommandLine in
/-- The program. -/
def main (args : List String) : IO UInt32 := do
  let out ← IO.getStdout
  let ink : Ink := if ← out.isTty then .terminal else .plain
  match Arguments.parse args with
  | .ok (.run none ceiling) =>
    out.putStr Shell.intro
    interact ⟨Program.shellSession ink ceiling, 0⟩
  | .ok (.run (some path) _) =>
    let text ← contentsOf path
    let finished := Program.run ink patience (fun _ => text) args ""
    out.putStr finished.out
    return exitCode finished.failure
  | _ =>
    let finished := Program.run ink patience (fun _ => none) args ""
    out.putStr finished.out
    if finished.out.isEmpty then (← IO.getStderr).putStr Program.usage
    return exitCode finished.failure
