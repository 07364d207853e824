import TermCalc.Text.Printable

/-!
# Quoted text

A text between quotes, with the characters that would not show written as escapes. Single quotes
are used unless the text holds single quotes and no double ones.

## Main definitions

* `quoted s`: `s` between quotes
* `asciiOnly s`: `s` with every character beyond ASCII escaped
-/

namespace TermCalc.Text

/-- Exactly `width` lower-case hexadecimal digits of `n`, the lowest ones. -/
def hexDigits : (width n : Nat) → List Char
  | 0, _ => []
  | width + 1, n => hexDigits width (n / 16) ++ [Nat.digitChar (n % 16)]

/-- The escape of a character by its code point: two, four or eight digits, the first that fit. -/
def codeEscape (c : Char) : List Char :=
  let n := c.toNat
  if n < 0x100 then '\\' :: 'x' :: hexDigits 2 n
  else if n < 0x10000 then '\\' :: 'u' :: hexDigits 4 n
  else '\\' :: 'U' :: hexDigits 8 n

/-- How `c` is written between quotes `quote`. -/
def escapeChar (quote c : Char) : List Char :=
  if c == quote || c == '\\' then ['\\', c]
  else if c == '\t' then ['\\', 't']
  else if c == '\n' then ['\\', 'n']
  else if c == '\r' then ['\\', 'r']
  else if isPrintable c then [c]
  else codeEscape c

/-- The quote to write `cs` with. -/
def quoteFor (cs : List Char) : Char :=
  if cs.contains '\x27' && !cs.contains '\x22' then '\x22' else '\x27'

/-- The text between quotes, with printable characters as they are. -/
def quoted (s : String) : String :=
  let quote := quoteFor s.toList
  String.ofList (quote :: s.toList.flatMap (escapeChar quote) ++ [quote])

/-- The text with every character beyond ASCII escaped. -/
def asciiOnly (s : String) : String :=
  String.ofList (s.toList.flatMap fun c => if c.toNat < 0x80 then [c] else codeEscape c)

example : quoted "it's" = "\"it's\"" ∧ quoted "a\"b'c" = "'a\"b\\'c'" ∧
    quoted "\t\x7f" = "'\\t\\x7f'" := by
  decide +kernel

end TermCalc.Text
