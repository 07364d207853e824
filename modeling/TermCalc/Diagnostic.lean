import TermCalc.Ink
import TermCalc.Reduction
import TermCalc.Term.Reader
import TermCalc.Text.Span
import TermCalc.Text.Template

/-!
# Diagnostics

A diagnostic says what is wrong with a statement: a message, and an excerpt of the text with the
span of it that is at fault. The snippets of text in a message are bold.

## Main definitions

* `Diagnostic`: message, excerpt and span
* `Diagnostic.noToken`, `Diagnostic.noStatement`, `Diagnostic.ceiling`: the diagnostics of reading
  and reduction
* `Diagnostic.ofTemplate`: a diagnostic with a message from a template
* `Diagnostic.underlined`: the excerpt with its span marked
-/

namespace TermCalc

/-- What a diagnostic is about. -/
inductive Cause where
  | general
  /-- No token starts at the offset `position`, where `remaining` is left. -/
  | noToken (position : Int) (remaining : String)
  /-- Of `tokens` tokens the significant one of index `position` cannot stand where it does. -/
  | noStatement (position : Int) (tokens : Nat)
  /-- A reduction went beyond a ceiling. -/
  | ceiling (limit : Ceiling) (trace : List Term)

/-- What is wrong with a statement. The span from `start` to `stop` is in characters of the
excerpt; an internal diagnostic is not the user's fault. -/
structure Diagnostic where
  message : String
  marked : String
  excerpt : String
  start : Int
  stop : Int
  showsExcerpt : Bool
  internal : Bool
  cause : Cause

/-- A part of a message: plain words, or a snippet of the user's text. -/
inductive MessagePart where
  | words (s : String)
  | snippet (s : String)

namespace MessagePart

/-- The part with its snippet written in `ink`. -/
def write (ink : Ink) : MessagePart → String
  | .words s => s
  | .snippet s => ink.bold s

end MessagePart

namespace Diagnostic

/-! ## Making diagnostics -/

/-- The message that parts make up. -/
def messageOf (ink : Ink) (parts : List MessagePart) : String :=
  String.join (parts.map (MessagePart.write ink))

/-- The end of a span in `excerpt`; -1 stands for the end of the excerpt. -/
def resolveStop (excerpt : String) (stop : Int) : Int :=
  if stop = -1 then excerpt.length else stop

/-- A diagnostic on the span from `start` to `stop` of `excerpt`. -/
def ofParts (ink : Ink) (parts : List MessagePart) (excerpt : String) (start stop : Int)
    (cause : Cause) : Diagnostic where
  message := messageOf .plain parts
  marked := messageOf ink parts
  excerpt := excerpt
  start := start
  stop := resolveStop excerpt stop
  showsExcerpt := true
  internal := false
  cause := cause

/-- No token starts at the offset `position` of `source`. -/
def noToken (ink : Ink) (source : String) (position : Int) : Diagnostic :=
  let remaining := Text.startingAt source position
  ofParts ink
    [.words "unexpected input in '", .snippet source, .words "', starting here: '",
      .snippet remaining, .words "'"]
    source position (position + 1) (.noToken position remaining)

/-- The span of the significant token of that index, or the place after the text for the end. -/
def tokenSpan (tokens : List Token) (index : Nat) : Int × Int :=
  match (Token.significant tokens)[index]? with
  | some t => (t.position, t.position + t.image.length)
  | none =>
    let length : Int := (Text.trimEnd (Token.sourceOf tokens)).length
    (length, length + 1)

/-- The words for a problem, which the text at fault follows. -/
def problemWords : Problem → String
  | .expected image => "expected '" ++ image ++ "'"
  | .expectedSymbol => "expected a symbol"
  | .unexpectedEnd => "unexpected end of input"
  | .unexpectedToken => "syntax error"
  | .trailingInput => "unexpected trailing input"

/-- The tokens are no statement because of a problem at the significant token of that index. -/
def noStatement (ink : Ink) (tokens : List Token) (problem : Problem) (index : Nat) :
    Diagnostic :=
  let source := Token.sourceOf tokens
  let (start, stop) := tokenSpan tokens index
  ofParts ink [.words (problemWords problem ++ " in '"), .snippet source, .words "'"]
    source start stop (.noStatement index tokens.length)

/-- A constant's image denotes no number. The lexer lets no such constant pass. -/
def notANumber (ink : Ink) (image : String) : Diagnostic :=
  { ofParts ink [.words "'", .snippet image, .words "' is not a valid constant"]
      image 0 image.length .general with internal := true }

/-- Something that is no term was to be displayed. -/
def notATerm (ink : Ink) (thing : String) : Diagnostic :=
  { ofParts ink [.words "cannot display '", .snippet thing, .words "'"]
      thing 0 thing.length .general with internal := true }

/-- A diagnostic without an excerpt. -/
def ofWords (words : String) (cause : Cause) : Diagnostic :=
  { ofParts .plain [.words words] "" 0 0 cause with showsExcerpt := false }

/-- A reduction went beyond the ceiling. -/
def ceiling (limit : Ceiling) (trace : List Term) : Diagnostic :=
  ofWords ("no normal form reached within " ++ limit.text ++ " steps") (.ceiling limit trace)

/-- A file could not be opened. -/
def unopened (ink : Ink) (path : String) : Diagnostic :=
  { ofParts ink [.words "'", .snippet path, .words "' could not be opened"]
      path 0 path.length .general with showsExcerpt := false }

/-- Why a diagnostic cannot be made from a template. -/
inductive MakeError where
  | template (e : TemplateError)
  | noSnippets

/-- A diagnostic whose message is a template filled with snippets, the first of which is the
excerpt. -/
def ofTemplate (ink : Ink) (template : String) (snippets : List String) (start stop : Int)
    (cause : Cause) : Except MakeError Diagnostic := do
  let marked ← (Template.fill template (snippets.map ink.bold)).mapError .template
  match snippets with
  | [] => .error .noSnippets
  | excerpt :: _ =>
    let message ← (Template.fill template snippets).mapError .template
    .ok
      { message, marked, excerpt, start
        stop := resolveStop excerpt stop
        showsExcerpt := true
        internal := false
        cause }

/-! ## Showing the excerpt -/

/-- The offset after the span, which holds one character at least. -/
def spanStop (d : Diagnostic) : Int :=
  max d.stop (d.start + 1)

/-- The excerpt with its span in colour, and a caret and tildes in colour below the span. -/
def underlined (d : Diagnostic) (ink : Ink) (hue : Hue) : String :=
  "  " ++ Text.upTo d.excerpt d.start ++
    ink.bright hue (Text.slice d.excerpt d.start d.spanStop) ++
    Text.startingAt d.excerpt d.spanStop ++ "\n" ++
    "  " ++ Text.repeated ' ' d.start ++
    ink.bright hue ("^" ++ Text.repeated '~' (d.spanStop - d.start - 1))

/-- Why an excerpt cannot be underlined: the span starts or ends at what is no offset of any text,
or so far behind the excerpt that the line could not be kept. -/
inductive UnderlineError where
  | noOffset
  | tooWide
deriving DecidableEq, Repr

/-- What is wrong with a line of `n` characters below an excerpt. A line that goes behind the
excerpt by less than `2 ^ 32` is always in order. -/
def lineError? (excerpt : String) (n : Int) : Option UnderlineError :=
  if n < -0x8000000000000000 then some .noOffset
  else if n < excerpt.length + 0x100000000 then none
  else if n < 0x8000000000000000 then some .tooWide
  else some .noOffset

/-- Why the excerpt cannot be underlined, if it cannot. -/
def underlineError? (d : Diagnostic) : Option UnderlineError :=
  (lineError? d.excerpt d.start).or (lineError? d.excerpt (d.spanStop - d.start - 1))

/-- Whether the excerpt is shown below the message. -/
def isPositioned (d : Diagnostic) : Bool :=
  d.excerpt != "" && d.showsExcerpt && !d.internal

end Diagnostic

end TermCalc
