import TermCalc.Text.Template.Subject

/-!
# Message templates

A template is a text with fields in braces, which are filled with snippets of text. An empty field
takes the next snippet and a numbered one the snippet of that number, and `\x7b\x7b` and `\x7d\x7d`
stand for single braces. After the number a field may look behind its snippet by names after points
and pick a character of it in square brackets, ask for it to be quoted after an exclamation mark,
and cut and pad it after a colon.

The pieces of a template are filled in order, so that the first thing wrong is what is reported.

## Main definitions

* `Template.pieces`: the pieces of a template
* `Template.fill template snippets`: the filled text
-/

namespace TermCalc

namespace Template

/-! ## The pieces of a template -/

/-- A field: what selects its text, the letter after an exclamation mark, and the text after a
colon. -/
structure Field where
  selector : List Char
  conversion : Option Char
  spec : List Char

/-- A piece of a template. What follows a malformed piece is not looked at. -/
inductive Piece where
  | literal (c : Char)
  | field (f : Field)
  | malformed (e : TemplateError)

/-- The characters up to the end of a field's selector, the character that ends it and the rest.
Inside square brackets, as `bracketed` says, only the closing bracket matters. -/
def splitSelector (bracketed : Bool) :
    List Char → Except TemplateError (List Char × Char × List Char)
  | [] => .error .unclosedField
  | c :: cs =>
    if bracketed then do
      let (name, stop, rest) ← splitSelector (c != ']') cs
      .ok (c :: name, stop, rest)
    else if c == '\x7b' then .error .nestedOpening
    else if c == '\x7d' || c == ':' || c == '!' then .ok ([], c, cs)
    else do
      let (name, stop, rest) ← splitSelector (c == '[') cs
      .ok (c :: name, stop, rest)

/-- The characters up to the brace that closes a field, of which `depth` more are open, and the
rest. -/
def splitSpec (depth : Nat) : List Char → Except TemplateError (List Char × List Char)
  | [] => .error .unclosedSpec
  | c :: cs =>
    if c == '\x7d' then
      match depth with
      | 0 => .ok ([], cs)
      | depth + 1 => do
        let (spec, rest) ← splitSpec depth cs
        .ok (c :: spec, rest)
    else do
      let (spec, rest) ← splitSpec (if c == '\x7b' then depth + 1 else depth) cs
      .ok (c :: spec, rest)

/-- The field at the front of a text that follows an opening brace, and the rest. -/
def splitField (cs : List Char) : Except TemplateError (Field × List Char) := do
  let (selector, stop, rest) ← splitSelector false cs
  if stop == '\x7d' then .ok (⟨selector, none, []⟩, rest)
  else if stop == ':' then
    let (spec, rest) ← splitSpec 0 rest
    .ok (⟨selector, none, spec⟩, rest)
  else match rest with
    | [] => .error .missingConversion
    | [_] => .error .unclosedSpec
    | conversion :: next :: rest =>
      if next == '\x7d' then .ok (⟨selector, some conversion, []⟩, rest)
      else if next == ':' then do
        let (spec, rest) ← splitSpec 0 rest
        .ok (⟨selector, some conversion, spec⟩, rest)
      else .error .colonExpected

/-- The pieces of a template; `fuel` bounds their number. -/
def piecesWithin : (fuel : Nat) → List Char → List Piece
  | 0, _ => []
  | _, [] => []
  | fuel + 1, c :: cs =>
    if c == '\x7b' then
      match cs with
      | [] => [.malformed .loneOpening]
      | next :: rest =>
        if next == '\x7b' then .literal c :: piecesWithin fuel rest
        else match splitField cs with
          | .ok (field, rest) => .field field :: piecesWithin fuel rest
          | .error e => [.malformed e]
    else if c == '\x7d' then
      match cs with
      | [] => [.malformed .loneClosing]
      | next :: rest =>
        if next == '\x7d' then .literal c :: piecesWithin fuel rest
        else [.malformed .loneClosing]
    else .literal c :: piecesWithin fuel cs

/-- The pieces of a template. Each takes up a character at least. -/
def pieces (cs : List Char) : List Piece :=
  piecesWithin cs.length cs

/-! ## Filling the fields -/

/-- How the fields so far chose their snippets: not yet, in turn up to a number, or by number. -/
inductive Numbering where
  | undecided
  | automatic (next : Nat)
  | manual

/-- The index of the snippet that a field with the given first part takes. -/
def chooseIndex (numbering : Numbering) (first : List Char) :
    Except TemplateError (Nat × Numbering) := do
  if first.isEmpty then
    match numbering with
    | .undecided => .ok (0, .automatic 1)
    | .automatic next => .ok (next, .automatic (next + 1))
    | .manual => .error .autoAfterManual
  else match ← number? first with
    | none => .error (.unknownName (String.ofList first))
    | some n =>
      match numbering with
      | .automatic _ => .error .manualAfterAuto
      | _ => .ok (n, .manual)

/-- The subject that the rest of a selector leads to from `subject`. -/
def access (subject : Subject) (accessors : List Char) : Except TemplateError Subject :=
  match accessors with
  | [] => .ok subject
  | '.' :: rest => do
    let name := rest.takeWhile fun c => c != '.' && c != '['
    if name.isEmpty then throw .emptyAttribute
    let next ← subject.named (String.ofList name)
    access next (rest.drop name.length)
  | '[' :: rest => do
    let index := rest.takeWhile (· != ']')
    match _h : rest.drop index.length with
    | [] => .error .missingBracket
    | _ :: rest' =>
      let place ← number? index
      if index.isEmpty then throw .emptyAttribute
      let next ← match place with
        | some n => subject.item n
        | none => subject.entry index
      access next rest'
  | _ :: _ => .error .badAccessor
termination_by accessors.length
decreasing_by
  · simp only [List.length_drop, List.length_cons]; omega
  · have := congrArg List.length _h
    simp only [List.length_drop, List.length_cons] at this ⊢
    omega

/-- The subject in the form that a field asks for. The null character asks for none. -/
def convert (subject : Subject) : Option Char → Except TemplateError Subject
  | none => .ok subject
  | some c =>
    if c == '\x00' then .ok subject
    else if c == 's' then .ok (.text subject.plain)
    else if c == 'r' then .ok (.ofString subject.spelled)
    else if c == 'a' then .ok (.ofString (Text.asciiOnly subject.spelled))
    else .error (.unknownConversion c)

/-- The text of a field, whose specification `nested` fills first if it holds fields itself. -/
def fillField (snippets : List (List Char))
    (nested : Numbering → List Char → Except TemplateError (List Char × Numbering))
    (numbering : Numbering) (f : Field) : Except TemplateError (List Char × Numbering) := do
  let first := f.selector.takeWhile fun c => c != '.' && c != '['
  let (index, numbering) ← chooseIndex numbering first
  match snippets[index]? with
  | none => .error (.noSnippet index)
  | some snippet =>
    let found ← access (.text snippet) (f.selector.drop first.length)
    let converted ← convert found f.conversion
    let (spec, numbering) ←
      if f.spec.contains '\x7b' then nested numbering f.spec else .ok (f.spec, numbering)
    let shown ← converted.write spec
    .ok (shown, numbering)

/-- The text of the pieces of a template. -/
def fillPieces (snippets : List (List Char))
    (nested : Numbering → List Char → Except TemplateError (List Char × Numbering)) :
    Numbering → List Piece → Except TemplateError (List Char × Numbering)
  | numbering, [] => .ok ([], numbering)
  | numbering, .literal c :: ps => do
    let (text, numbering) ← fillPieces snippets nested numbering ps
    .ok (c :: text, numbering)
  | _, .malformed e :: _ => .error e
  | numbering, .field f :: ps => do
    let (shown, numbering) ← fillField snippets nested numbering f
    let (text, numbering) ← fillPieces snippets nested numbering ps
    .ok (shown ++ text, numbering)

/-- The text of a template in which fields are nested less than `depth` deep. -/
def fillWithin (snippets : List (List Char)) :
    (depth : Nat) → Numbering → List Char → Except TemplateError (List Char × Numbering)
  | 0, _, _ => .error .tooDeep
  | depth + 1, numbering, cs =>
    fillPieces snippets (fillWithin snippets depth) numbering (pieces cs)

/-- The template filled with snippets. A field may hold fields in its specification, and these may
not. -/
def fill (template : String) (snippets : List String) : Except TemplateError String := do
  let (text, _) ← fillWithin (snippets.map String.toList) 2 .undecided template.toList
  .ok (String.ofList text)

example : (fill "'\x7b\x7d' in \x7b\x7b\x7b\x7d\x7d\x7d" ["a", "b"]).toOption =
    some "'a' in \x7bb\x7d" := by
  decide +kernel

end Template

end TermCalc
