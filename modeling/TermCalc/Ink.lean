/-!
# Ink

How emphasis is written: not at all, or by the escape sequences of terminals.
-/

namespace TermCalc

/-- The ways of writing emphasis. -/
inductive Ink where
  | plain
  | terminal
deriving DecidableEq, Repr

/-- The colours of reports: errors are red and warnings magenta. -/
inductive Hue where
  | red
  | magenta
deriving DecidableEq, Repr

namespace Ink

/-- Bold text. -/
def bold (ink : Ink) (s : String) : String :=
  match ink with
  | .plain => s
  | .terminal => "\x1b[1m" ++ s ++ "\x1b[0m"

/-- Bold text in a colour. -/
def bright (ink : Ink) (hue : Hue) (s : String) : String :=
  match ink with
  | .plain => s
  | .terminal =>
    "\x1b[1m" ++ (match hue with | .red => "\x1b[31m" | .magenta => "\x1b[35m") ++ s ++ "\x1b[0m"

@[simp] theorem bold_plain (s : String) : plain.bold s = s := rfl

@[simp] theorem bright_plain (hue : Hue) (s : String) : plain.bright hue s = s := rfl

end Ink

end TermCalc
