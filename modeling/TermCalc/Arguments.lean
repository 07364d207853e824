import TermCalc.Number.Literal
import TermCalc.Reduction
import TermCalc.Text.Digit

/-!
# Command line arguments

The program takes one file at most and two options: `--max-steps` with a positive number, and
`--help` or `-h`. A long option may be cut short as long as it stays clear which one is meant, and
its value may be attached with an equals sign. After two minus signs every argument is a value, and
so is always one that looks like a negative number or holds a space.

## Main definitions

* `Request`: what the arguments ask for
* `Arguments.parse`: the request of a list of arguments
-/

namespace TermCalc

/-- What the arguments ask for: help, or to run a file or the shell under a ceiling. -/
inductive Request where
  | help
  | run (file : Option String) (ceiling : Ceiling)
deriving DecidableEq, Repr

/-- What is wrong with the arguments. -/
inductive ArgumentError where
  | ambiguous (argument : String)
  | missingValue
  | notPositive (value : String)
  | needlessValue (value : String)
  | unrecognized
deriving DecidableEq, Repr

namespace Arguments

/-! ## Single arguments -/

/-- An argument by itself. -/
inductive Word where
  | value (s : String)
  | separator
  /-- A request for help, with the value that is attached to it. -/
  | help (attached : Option String)
  | maxSteps (attached : Option String)
  | unknown

/-- Splits a text at the first equals sign, if it has one. -/
def splitEquals (cs : List Char) : List Char × Option String :=
  match cs.dropWhile (· != '=') with
  | [] => (cs, none)
  | _ :: rest => (cs.takeWhile (· != '='), some (String.ofList rest))

/-- Whether a text looks like a negative number. One line end may follow it. -/
def looksNegative : List Char → Bool
  | '-' :: cs =>
    let cs := if cs.getLast? == some '\n' then cs.dropLast else cs
    match cs.dropWhile Text.isDigit with
    | [] => !cs.isEmpty
    | '.' :: fraction => !fraction.isEmpty && fraction.all Text.isDigit
    | _ => false
  | _ => false

/-- An argument that starts with a minus sign and is no option. -/
def classifyOther (cs : List Char) : Word :=
  if looksNegative cs || cs.contains ' ' then .value (String.ofList cs) else .unknown

/-- An argument that starts with two minus signs: an option, or the beginning of one. -/
def classifyLong (cs : List Char) : Except ArgumentError Word :=
  let (name, attached) := splitEquals cs
  match name.isPrefixOf "--help".toList, name.isPrefixOf "--max-steps".toList with
  | true, true => .error (.ambiguous (String.ofList cs))
  | true, false => .ok (.help attached)
  | false, true => .ok (.maxSteps attached)
  | false, false => .ok (classifyOther cs)

/-- The one-letter request for help with `cs` after it, which an equals sign may set off. Only
further letters `h` can follow. -/
def classifyHelp (cs : List Char) : Word :=
  let letters := match cs with
    | '=' :: rest => rest
    | _ => cs
  if cs.isEmpty || (!letters.isEmpty && letters.all (· == 'h')) then .help none
  else .help (some (String.ofList letters))

/-- An argument ahead of any separator. -/
def classify (s : String) : Except ArgumentError Word :=
  match s.toList with
  | '-' :: '-' :: rest => classifyLong ('-' :: '-' :: rest)
  | '-' :: 'h' :: rest => .ok (classifyHelp rest)
  | ['-'] => .ok (.value s)
  | '-' :: rest => .ok (classifyOther ('-' :: rest))
  | _ => .ok (.value s)

/-- The arguments one by one; after the first separator all are values. -/
def words : List String → Except ArgumentError (List Word)
  | [] => .ok []
  | s :: rest =>
    if s = "--" then .ok (.separator :: rest.map .value)
    else do
      let word ← classify s
      let others ← words rest
      .ok (word :: others)

/-! ## The request -/

/-- The ceiling of a value: a positive number of rewrites. Two minus signs are no value, not even a
wrong one. -/
def ceiling (value : String) : Except ArgumentError Ceiling :=
  if value = "--" then .ok .empty
  else match integer? value with
    | some n => if 0 < n then .ok (.limited n) else .error (.notPositive value)
    | none => .error (.notPositive value)

/-- What has been read of the arguments: the place of the file, if it has been filled, the ceiling,
and whether something was left over. -/
structure Reading where
  file : Option (Option String)
  ceiling : Ceiling
  leftOver : Bool

/-- Reads on in the arguments. The value of an option comes directly after it. A separator belongs
to the file before or after it, or else stands in the place of one. -/
def read (r : Reading) : List Word → Except ArgumentError Request
  | [] =>
    if r.leftOver then .error .unrecognized else .ok (.run (r.file.getD none) r.ceiling)
  | .help none :: _ => .ok .help
  | .help (some value) :: _ => .error (.needlessValue value)
  | .maxSteps (some value) :: ws => do
    let limit ← ceiling value
    read { r with ceiling := limit } ws
  | .maxSteps none :: .value value :: ws => do
    let limit ← ceiling value
    read { r with ceiling := limit } ws
  | .maxSteps none :: _ => .error .missingValue
  | .unknown :: ws => read { r with leftOver := true } ws
  | .value value :: .separator :: ws =>
    match r.file with
    | none => read { r with file := some (some value) } ws
    | some _ => read { r with leftOver := true } ws
  | .separator :: .value value :: ws =>
    match r.file with
    | none => read { r with file := some (some value) } ws
    | some _ => read { r with leftOver := true } ws
  | .value value :: ws =>
    match r.file with
    | none => read { r with file := some (some value) } ws
    | some _ => read { r with leftOver := true } ws
  | .separator :: ws =>
    match r.file with
    | none => read { r with file := some none } ws
    | some _ => read { r with leftOver := true } ws

/-- The request of a list of arguments. -/
def parse (args : List String) : Except ArgumentError Request := do
  let ws ← words args
  read ⟨none, .unlimited, false⟩ ws

example : (parse ["--max=3", "f"]).toOption = some (.run (some "f") (.limited 3)) ∧
    (parse ["--max", "--", "3"]).toOption = none := by
  decide +kernel

end Arguments

end TermCalc
