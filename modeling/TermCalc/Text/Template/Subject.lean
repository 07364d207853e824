import TermCalc.Text.Template.Kind
import TermCalc.Text.Template.Spec

/-!
# Subjects

What a field of a template shows: its snippet, or something that it finds by looking behind it. A
field goes from one subject to the next by names after points and by items in square brackets.

## Main definitions

* `Subject`: the things that a field can show
* `Subject.named`: what a subject has under a name
* `Subject.item`, `Subject.entry`: the item of a subject at a place, under a text
* `Subject.plain`, `Subject.spelled`: the two ways to show a subject
* `Subject.write`: a subject as a specification asks for
-/

namespace TermCalc.Template

/-- A thing that a field can show. -/
inductive Subject where
  | text (cs : List Char)
  | nothing
  | kind (k : Kind)
  | row (kinds : List Kind)
  /-- A member of things of the kind `owner`. -/
  | member (owner : Kind) (form : Form) (name : String)
  /-- A member of the thing `thing`, which it has from the kind `owner`. -/
  | bound (owner : Kind) (form : Form) (name : String) (thing : Subject)
  /-- A kind with an item in square brackets. -/
  | applied (k : Kind) (item : String)

namespace Subject

/-- The subject of a text. -/
def ofString (s : String) : Subject :=
  .text s.toList

/-- The subject of a text that may be missing. -/
def ofString? (s : Option String) : Subject :=
  (s.map ofString).getD .nothing

/-- The kind of thing that a subject is. -/
def kindOf : Subject → Kind
  | .text _ => .text
  | .nothing => .nothing
  | .kind _ => .kind
  | .row _ => .row
  | .member _ .slot _ => .slot
  | .member _ .property _ => .property
  | .member _ .field _ => .field
  | .member _ _ _ => .method
  | .bound _ .slot _ _ => .slotOperation
  | .bound _ _ _ _ => .operation
  | .applied _ _ => .applied

/-! ## Showing a subject -/

/-- Where a thing is kept. Members of a thing are shown with it, and it tells nothing about them. -/
def address : String :=
  "0x7f0000000000"

/-- A kind as it is shown. -/
def kindText (k : Kind) : String :=
  "<class '" ++ k.name ++ "'>"

/-- A subject spelled out: a text in quotes, everything else by its kind and name. -/
def spelled : Subject → String
  | .text cs => Text.quoted (String.ofList cs)
  | .nothing => "None"
  | .kind k => kindText k
  | .row [k] => "(" ++ kindText k ++ ",)"
  | .row ks => "(" ++ String.intercalate ", " (ks.map kindText) ++ ")"
  | .member owner form name =>
    let sort := match form with
      | .slot => "slot wrapper"
      | .property => "attribute"
      | .field => "member"
      | _ => "method"
    "<" ++ sort ++ " '" ++ name ++ "' of '" ++ owner.name ++ "' objects>"
  | .bound _ .slot name thing =>
    "<method-wrapper '" ++ name ++ "' of " ++ thing.kindOf.name ++ " object at " ++ address ++ ">"
  | .bound _ _ name thing =>
    "<built-in method " ++ name ++ " of " ++ thing.kindOf.name ++ " object at " ++ address ++ ">"
  | .applied k item => k.name ++ "[" ++ item ++ "]"

/-- A subject as it is shown: a text as it is, everything else spelled out. -/
def plain : Subject → List Char
  | .text cs => cs
  | s => s.spelled.toList

/-- A subject cut and padded. Only texts can be. -/
def write (s : Subject) (spec : List Char) : Except TemplateError (List Char) :=
  match s with
  | .text cs => applySpec cs spec
  | s => if spec.isEmpty then .ok s.plain else .error (.specNotAllowed s.kindOf.name)

/-! ## Names after a point -/

/-- The value of a property or field of a kind. -/
def kindProperty (k : Kind) (name : String) : Except TemplateError Subject :=
  match name with
  | "__class__" => .ok (.kind .kind)
  | "__module__" => .ok (ofString (if k = .applied then "types" else "builtins"))
  | "__base__" => .ok ((k.bases.head?.map .kind).getD .nothing)
  | "__bases__" => .ok (.row k.bases)
  | "__mro__" => .ok (.row k.ancestry)
  | "__text_signature__" => .ok (ofString? k.signature?)
  | "__doc__" =>
    match k.ownMember? "__doc__" with
    | some .property =>
      .ok (if k = .kind then ofString? k.documentation? else .member k .property "__doc__")
    | _ => .ok (ofString? k.documentation?)
  | "__abstractmethods__" => .error (.withheld name)
  | "__annotations__" => .error (.kindLacks k.name name)
  | _ => .ok (ofString (if k = .applied then "GenericAlias" else k.name))

/-- The value of a property or field of a subject. What a member is for is not recorded. -/
def property (s : Subject) (name : String) : Except TemplateError Subject :=
  match s, name with
  | .kind k, name => kindProperty k name
  | s, "__class__" => .ok (.kind s.kindOf)
  | .member owner _ _, "__objclass__" => .ok (.kind owner)
  | .member _ _ name, "__name__" => .ok (ofString name)
  | .member owner _ name, "__qualname__" => .ok (ofString (owner.name ++ "." ++ name))
  | .bound owner _ _ _, "__objclass__" => .ok (.kind owner)
  | .bound _ _ name _, "__name__" => .ok (ofString name)
  | .bound _ .free _ _, "__self__" => .ok .nothing
  | .bound _ _ _ thing, "__self__" => .ok thing
  | .bound owner .slot name _, "__qualname__" => .ok (ofString (owner.name ++ "." ++ name))
  | .bound _ _ name (.kind k), "__qualname__" => .ok (ofString (k.name ++ "." ++ name))
  | .bound _ _ name thing, "__qualname__" => .ok (ofString (thing.kindOf.name ++ "." ++ name))
  | _, _ => .ok .nothing

/-- Whether a member of that form has a value on each thing. -/
def hasValue (form : Form) : Bool :=
  form = .property || form = .field

/-- A member of a subject, which it has from `owner`. -/
def take (s : Subject) (owner : Kind) (form : Form) (name : String) :
    Except TemplateError Subject :=
  match form with
  | .property => s.property name
  | .field => s.property name
  | .ofKind => .ok (.bound owner form name (.kind s.kindOf))
  | .ofOwner => .ok (.bound owner form name (.kind owner))
  | .free => .ok (.bound owner form name (.kind owner))
  | _ => .ok (.bound owner form name s)

/-- What a kind has under a name. The values that every kind has come first, then the members of its
things, and last the members of kinds. -/
def kindNamed (k : Kind) (name : String) : Except TemplateError Subject :=
  let general := Kind.kind.member? name
  if general.any fun (_, form) => hasValue form then kindProperty k name
  else match k.member? name, general with
    | some (owner, .ofKind), _ => .ok (.bound owner .ofKind name (.kind k))
    | some (owner, .ofOwner), _ => .ok (.bound owner .ofOwner name (.kind owner))
    | some (owner, .free), _ => .ok (.bound owner .free name (.kind owner))
    | some (owner, form), _ => .ok (.member owner form name)
    | none, some (owner, form) => take (.kind k) owner form name
    | none, none => .error (.kindLacks k.name name)

/-- What a subject has under a name. Where members have no documentation of their own, a thing has
that of its kind. -/
def named (s : Subject) (name : String) : Except TemplateError Subject :=
  match s with
  | .kind k => kindNamed k name
  | .applied k _ =>
    if name = "__class__" then .ok (.kind .applied)
    else if name = "__origin__" then .ok (.kind k)
    else kindNamed k name
  | s => match s.kindOf.member? name with
    | some (owner, form) => s.take owner form name
    | none =>
      if name = "__doc__" then .ok (ofString? s.kindOf.documentation?)
      else .error (.noAttribute s.kindOf.name name)

/-! ## Items in square brackets -/

/-- The error that a subject has no items. -/
def noItems (s : Subject) : TemplateError :=
  match s with
  | .kind k => .kindWithoutItems k.name
  | .applied _ _ => .notGeneric s.spelled
  | s => .withoutItems s.kindOf.name

/-- The item of a subject at a place. -/
def item (s : Subject) (place : Nat) : Except TemplateError Subject :=
  match s with
  | .text cs =>
    match cs[place]? with
    | some c => .ok (.text [c])
    | none => .error .noCharacter
  | .row ks =>
    match ks[place]? with
    | some k => .ok (.kind k)
    | none => .error .noRowItem
  | .kind k =>
    if k.takesItem then .ok (.applied k (Text.decimalText place)) else .error s.noItems
  | s => .error s.noItems

/-- The item of a subject under a text. -/
def entry (s : Subject) (name : List Char) : Except TemplateError Subject :=
  match s with
  | .text _ => .error .badIndex
  | .row _ => .error .badRowIndex
  | .kind k =>
    if k.takesItem then .ok (.applied k (Text.quoted (String.ofList name)))
    else .error s.noItems
  | s => .error s.noItems

example : ((ofString "abc").named "__class__").toOption.map spelled = some "<class 'str'>" := by
  decide +kernel

end Subject

end TermCalc.Template
