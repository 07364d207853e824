import TermCalc.Text.Digit
import TermCalc.Text.Quoted

/-!
# Template errors

What can be wrong with a message template or with the snippets that it is filled with, and how it
is reported.
-/

namespace TermCalc

/-- What can be wrong with a template or its snippets. -/
inductive TemplateError where
  | loneClosing
  | loneOpening
  | nestedOpening
  | unclosedField
  | unclosedSpec
  | missingConversion
  | colonExpected
  | unknownConversion (conversion : Char)
  | autoAfterManual
  | manualAfterAuto
  | tooDeep
  | numberTooLarge
  | emptyAttribute
  | missingBracket
  | badAccessor
  | badSpec (spec : String)
  | missingPrecision
  | bothSeparators
  | misplacedSeparator (separator kind : Char)
  | unknownKind (kind : Char)
  | signNotAllowed
  | spaceNotAllowed
  | zeroNotAllowed
  | alternateNotAllowed
  | alignmentNotAllowed
  | noSnippet (index : Nat)
  | unknownName (name : String)
  /-- A thing of that kind has nothing under the name. -/
  | noAttribute (kind name : String)
  /-- The kind itself has nothing under the name. -/
  | kindLacks (kind name : String)
  | withheld (name : String)
  | noCharacter
  | noRowItem
  | badIndex
  | badRowIndex
  | withoutItems (kind : String)
  | kindWithoutItems (kind : String)
  | notGeneric (shown : String)
  | specNotAllowed (kind : String)
  /-- The text would be too wide to be kept. -/
  | tooWide
deriving DecidableEq, Repr

/-- The name under which a template error is reported. -/
def TemplateError.name : TemplateError → String
  | .noSnippet _ => "IndexError"
  | .noCharacter => "IndexError"
  | .noRowItem => "IndexError"
  | .unknownName _ => "KeyError"
  | .noAttribute _ _ => "AttributeError"
  | .kindLacks _ _ => "AttributeError"
  | .withheld _ => "AttributeError"
  | .badIndex => "TypeError"
  | .badRowIndex => "TypeError"
  | .withoutItems _ => "TypeError"
  | .kindWithoutItems _ => "TypeError"
  | .notGeneric _ => "TypeError"
  | .specNotAllowed _ => "TypeError"
  | .tooWide => "MemoryError"
  | _ => "ValueError"

/-- A letter as it is reported, by its code point if it is not between the space and `limit`. -/
def TemplateError.shownLetter (limit : Nat) (c : Char) : String :=
  if 0x20 < c.toNat && c.toNat < limit then String.ofList [c]
  else "\\x" ++ String.ofList (Nat.toDigits 16 c.toNat)

/-- The text of a template error. -/
def TemplateError.text : TemplateError → String
  | .loneClosing => "Single '\x7d' encountered in format string"
  | .loneOpening => "Single '\x7b' encountered in format string"
  | .nestedOpening => "unexpected '\x7b' in field name"
  | .unclosedField => "expected '\x7d' before end of string"
  | .unclosedSpec => "unmatched '\x7b' in format spec"
  | .missingConversion => "end of string while looking for conversion specifier"
  | .colonExpected => "expected ':' after conversion specifier"
  | .unknownConversion c => "Unknown conversion specifier " ++ shownLetter 0x7F c
  | .autoAfterManual =>
    "cannot switch from manual field specification to automatic field numbering"
  | .manualAfterAuto =>
    "cannot switch from automatic field numbering to manual field specification"
  | .tooDeep => "Max string recursion exceeded"
  | .numberTooLarge => "Too many decimal digits in format string"
  | .emptyAttribute => "Empty attribute in format string"
  | .missingBracket => "Missing ']' in format string"
  | .badAccessor => "Only '.' or '[' may follow ']' in format field specifier"
  | .badSpec spec =>
    "Invalid format specifier '" ++ spec ++ "' for object of type 'str'"
  | .missingPrecision => "Format specifier missing precision"
  | .bothSeparators => "Cannot specify both ',' and '_'."
  | .misplacedSeparator separator kind =>
    "Cannot specify '" ++ String.ofList [separator] ++ "' with '" ++ shownLetter 0x80 kind ++ "'."
  | .unknownKind kind =>
    "Unknown format code '" ++ shownLetter 0x80 kind ++ "' for object of type 'str'"
  | .signNotAllowed => "Sign not allowed in string format specifier"
  | .spaceNotAllowed => "Space not allowed in string format specifier"
  | .zeroNotAllowed => "Negative zero coercion (z) not allowed in string format specifier"
  | .alternateNotAllowed => "Alternate form (#) not allowed in string format specifier"
  | .alignmentNotAllowed => "'=' alignment not allowed in string format specifier"
  | .noSnippet index =>
    "Replacement index " ++ Text.decimalText index ++ " out of range for positional args tuple"
  | .unknownName name => Text.quoted name
  | .noAttribute kind name => "'" ++ kind ++ "' object has no attribute '" ++ name ++ "'"
  | .kindLacks kind name => "type object '" ++ kind ++ "' has no attribute '" ++ name ++ "'"
  | .withheld name => name
  | .noCharacter => "string index out of range"
  | .noRowItem => "tuple index out of range"
  | .badIndex => "string indices must be integers, not 'str'"
  | .badRowIndex => "tuple indices must be integers or slices, not str"
  | .withoutItems kind => "'" ++ kind ++ "' object is not subscriptable"
  | .kindWithoutItems kind => "type '" ++ kind ++ "' is not subscriptable"
  | .notGeneric shown => shown ++ " is not a generic class"
  | .specNotAllowed kind => "unsupported format string passed to " ++ kind ++ ".__format__"
  | .tooWide => ""

end TermCalc
