/-!
# Blank characters

Unicode white space, trimming, and the two ways in which the program cuts a text into lines.

## Main definitions

* `isBlank c`: Unicode white space
* `trimEnd s`, `trim s`: the text without its trailing blanks, without blanks at both ends
* `fileLines s`: the lines of a file, ended by `\n`, `\r` or `\r\n`
* `inputLines s`: the lines of typed input, ended by `\n`
-/

namespace TermCalc.Text

/-- Unicode white space, the separators of information U+001C to U+001F included. -/
def isBlank (c : Char) : Bool :=
  let n := c.toNat
  (0x09 ≤ n && n ≤ 0x0D) || (0x1C ≤ n && n ≤ 0x20) || n == 0x85 || n == 0xA0 || n == 0x1680 ||
    (0x2000 ≤ n && n ≤ 0x200A) || n == 0x2028 || n == 0x2029 || n == 0x202F || n == 0x205F ||
    n == 0x3000

/-- White space of the ASCII range that numerals may have around them. -/
def isAsciiBlank (c : Char) : Bool :=
  (0x09 ≤ c.toNat && c.toNat ≤ 0x0D) || c == ' '

/-- Drops the characters that satisfy `p` from the end. -/
def dropEndWhile (p : Char → Bool) (cs : List Char) : List Char :=
  (cs.reverse.dropWhile p).reverse

/-- Drops the characters that satisfy `p` from both ends. -/
def dropAround (p : Char → Bool) (cs : List Char) : List Char :=
  dropEndWhile p (cs.dropWhile p)

/-- The text without its trailing blanks. -/
def trimEnd (s : String) : String :=
  String.ofList (dropEndWhile isBlank s.toList)

/-- The text without the blanks at both of its ends. -/
def trim (s : String) : String :=
  String.ofList (dropAround isBlank s.toList)

/-- Cuts after every `\n`, which is dropped. What follows the last one is a line only if it is not
empty; `line` holds the characters of the current line in reverse. -/
def splitLines (line : List Char) : List Char → List (List Char)
  | [] => if line.isEmpty then [] else [line.reverse]
  | '\n' :: rest => line.reverse :: splitLines [] rest
  | c :: rest => splitLines (c :: line) rest

/-- Writes every line end `\r\n` or `\r` as `\n`. -/
def normalizeLineEnds : List Char → List Char
  | [] => []
  | '\r' :: '\n' :: rest => '\n' :: normalizeLineEnds rest
  | '\r' :: rest => '\n' :: normalizeLineEnds rest
  | c :: rest => c :: normalizeLineEnds rest

/-- The lines of a file's text, without their ends. -/
def fileLines (s : String) : List String :=
  (splitLines [] (normalizeLineEnds s.toList)).map String.ofList

/-- The lines of typed input, without the returns at their ends. -/
def inputLines (s : String) : List String :=
  (splitLines [] s.toList).map fun line => String.ofList (dropEndWhile (· == '\r') line)

example : fileLines "a\r\nb\rc\n\n" = ["a", "b", "c", ""] := by decide

example : inputLines "a\r\r\nb\rc" = ["a", "b\rc"] := by decide

end TermCalc.Text
