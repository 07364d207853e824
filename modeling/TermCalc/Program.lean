import TermCalc.Arguments
import TermCalc.Shell

/-!
# The program

What the program does with its arguments: it evaluates a file, or it runs the shell on its input.

## Main definitions

* `Program.runFile`: evaluates the statements of a file
* `Program.run`: the program on its arguments, files and input
-/

namespace TermCalc.Program

/-- What a run of the program gives: the text that it wrote and the failure that ended it, if one
did. -/
structure Finished where
  out : String
  failure : Option Failure

/-- How the program is called. -/
def usage : String :=
  "usage: symbolica [-h] [--max-steps MAX_STEPS] [file]\n"

/-- What the program writes when it is asked for help. -/
def help : String :=
  usage ++ "\n" ++
  "symbolic arithmetic by term rewriting\n\n" ++
  "positional arguments:\n" ++
  "  file                  file to evaluate, one statement per line (if empty,\n" ++
  "                        goes to command-line mode)\n\n" ++
  "options:\n" ++
  "  -h, --help            show this help message and exit\n" ++
  "  --max-steps MAX_STEPS\n" ++
  "                        give up on a statement after this many rewrites\n" ++
  "                        (default: no limit)\n"

/-- A reporter that ends the program after an error. -/
def reporter (ink : Ink) : Reporter :=
  ⟨ink, true, []⟩

/-- What comes of a failure in a session, after what was written before it. -/
def settle (s : Session) (out : String) (e : Failure) : Finished :=
  let settled := s.reporter.settle e
  ⟨out ++ settled.out, settled.failure⟩

/-- Evaluates the statements of the file at `path`, whose text `contents` is if it can be opened. -/
def runFile (ink : Ink) (patience : Nat) (ceiling : Ceiling) (path : String)
    (contents : Option String) : Finished :=
  match Session.start (reporter ink) path false ceiling contents with
  | (s, .error e) => settle s "" e
  | (s, .ok ()) =>
    match s.run patience with
    | ⟨out, s, .error e⟩ => settle s out e
    | ⟨out, _, .ok ()⟩ => ⟨out, none⟩

/-- The session of the shell. -/
def shellSession (ink : Ink) (ceiling : Ceiling) : Session :=
  Session.fresh ((reporter ink).registerFile Session.inputPath) Session.inputPath true ceiling

/-- Runs the shell on the text of its input. A failure that ends the shell is reported once more. -/
def runShell (ink : Ink) (patience : Nat) (ceiling : Ceiling) (input : String) : Finished :=
  match Shell.run (shellSession ink ceiling) patience input with
  | (out, sh, some e) => settle sh.session out e
  | (out, _, none) => ⟨out, none⟩

/-- The program on its arguments. `contents` gives the text of the files that can be opened, and
`input` is typed input. Wrong arguments end the program with code 2. -/
def run (ink : Ink) (patience : Nat) (contents : String → Option String) (args : List String)
    (input : String) : Finished :=
  match Arguments.parse args with
  | .error _ => ⟨"", some (.exit (some 2))⟩
  | .ok .help => ⟨help, some (.exit (some 0))⟩
  | .ok (.run (some path) ceiling) => runFile ink patience ceiling path (contents path)
  | .ok (.run none ceiling) => runShell ink patience ceiling input

end TermCalc.Program
