/-!
# Spans of a text

Parts of a text by offsets that count code points. A negative offset counts back from the end, and
an offset beyond an end of the text stands for that end.

## Main definitions

* `slice s start stop`: the part between two offsets
* `upTo s stop`, `startingAt s start`: the parts before and after an offset
* `firstIndex? needle s`: where `needle` first occurs
-/

namespace TermCalc.Text

/-- The number of characters of a text of length `length` before the offset `offset`. -/
def boundary (length : Nat) (offset : Int) : Nat :=
  if offset < 0 then (length + offset).toNat else min length offset.toNat

/-- The characters of `s` before the offset `stop`. -/
def upTo (s : String) (stop : Int) : String :=
  String.ofList (s.toList.take (boundary s.length stop))

/-- The characters of `s` after the offset `start`. -/
def startingAt (s : String) (start : Int) : String :=
  String.ofList (s.toList.drop (boundary s.length start))

/-- The characters of `s` between two offsets; none if the second lies before the first. -/
def slice (s : String) (start stop : Int) : String :=
  startingAt (upTo s stop) (boundary s.length start)

/-- The offset of the first occurrence of `needle` in `cs`. -/
def firstIndex? (needle : List Char) : List Char → Option Nat
  | [] => if needle.isEmpty then some 0 else none
  | c :: cs =>
    if needle.isPrefixOf (c :: cs) then some 0 else (firstIndex? needle cs).map (· + 1)

/-- A text of `n` copies of `c`; empty if `n` is negative. -/
def repeated (c : Char) (n : Int) : String :=
  String.ofList (List.replicate n.toNat c)

theorem boundary_natCast (length n : Nat) : boundary length n = min length n := by
  simp [boundary, show ¬((n : Int) < 0) by omega]

example : slice "abcdef" 2 4 = "cd" ∧ slice "abc" (-2) 9 = "bc" ∧ slice "abc" 2 1 = "" := by
  decide

end TermCalc.Text
