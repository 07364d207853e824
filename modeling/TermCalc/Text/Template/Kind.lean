import TermCalc.Text.Template.Error

/-!
# Kinds

A field of a template may look behind its snippet: at the kind of thing that a snippet is, at the
kind of that kind, and at the members that things of a kind have. Nothing of this is carried out;
it can be named and shown.

## Main definitions

* `Kind`: the kinds of thing that a field can find
* `Kind.members`, `Kind.member?`: the members of a kind, its own and those of every object
* `Kind.ancestry`: a kind and the kinds it is a special case of
* `Kind.documentation?`: what a kind says about itself
-/

namespace TermCalc.Template

/-- The kinds of thing that a field can find. Texts, rows and nothing are values; kinds are things
too; the others are members, by themselves or of a certain thing. -/
inductive Kind where
  | object
  | kind
  | text
  | row
  | nothing
  /-- A method of a certain thing. -/
  | operation
  /-- A slot of a certain thing. -/
  | slotOperation
  | method
  | slot
  | property
  | field
  /-- A kind with an item in square brackets. -/
  | applied
deriving DecidableEq, Repr

/-- How a member belongs to its kind. A member of the form `ofKind` belongs to the kind through
which it is found, one of the form `ofOwner` to the kind that has it, and one of the form `free` to
nothing in particular. A property or a field of a thing is a value. -/
inductive Form where
  | slot
  | method
  | ofKind
  | ofOwner
  | free
  | property
  | field
deriving DecidableEq, Repr

namespace Kind

/-- The name of a kind. -/
def name : Kind → String
  | .object => "object"
  | .kind => "type"
  | .text => "str"
  | .row => "tuple"
  | .nothing => "NoneType"
  | .operation => "builtin_function_or_method"
  | .slotOperation => "method-wrapper"
  | .method => "method_descriptor"
  | .slot => "wrapper_descriptor"
  | .property => "getset_descriptor"
  | .field => "member_descriptor"
  | .applied => "types.GenericAlias"

/-- The names of the members of a kind, by their forms. -/
def members : Kind → List (Form × List String)
  | .object =>
    [ (.slot, ["__repr__", "__hash__", "__str__", "__getattribute__", "__setattr__",
         "__delattr__", "__lt__", "__le__", "__eq__", "__ne__", "__gt__", "__ge__", "__init__"]),
      (.method, ["__reduce_ex__", "__reduce__", "__getstate__", "__format__", "__sizeof__",
         "__dir__"]),
      (.ofKind, ["__subclasshook__", "__init_subclass__"]),
      (.ofOwner, ["__new__"]),
      (.property, ["__class__"])]
  | .kind =>
    [ (.slot, ["__repr__", "__call__", "__getattribute__", "__setattr__", "__delattr__",
         "__init__", "__or__", "__ror__"]),
      (.method, ["mro", "__subclasses__", "__instancecheck__", "__subclasscheck__", "__dir__",
         "__sizeof__"]),
      (.ofKind, ["__prepare__"]),
      (.ofOwner, ["__new__"]),
      (.property, ["__name__", "__qualname__", "__bases__", "__module__", "__abstractmethods__",
         "__doc__", "__text_signature__", "__annotations__"]),
      (.field, ["__base__", "__mro__"])]
  | .text =>
    [ (.slot, ["__repr__", "__hash__", "__str__", "__getattribute__", "__lt__", "__le__",
         "__eq__", "__ne__", "__gt__", "__ge__", "__iter__", "__mod__", "__rmod__", "__len__",
         "__getitem__", "__add__", "__mul__", "__rmul__", "__contains__"]),
      (.method, ["encode", "replace", "split", "rsplit", "join", "capitalize", "casefold",
         "title", "center", "count", "expandtabs", "find", "partition", "index", "ljust",
         "lower", "lstrip", "rfind", "rindex", "rjust", "rstrip", "rpartition", "splitlines",
         "strip", "swapcase", "translate", "upper", "startswith", "endswith", "removeprefix",
         "removesuffix", "isascii", "islower", "isupper", "istitle", "isspace", "isdecimal",
         "isdigit", "isnumeric", "isalpha", "isalnum", "isidentifier", "isprintable", "zfill",
         "format", "format_map", "__format__", "__sizeof__", "__getnewargs__"]),
      (.ofOwner, ["__new__"]),
      (.free, ["maketrans"])]
  | .row =>
    [ (.slot, ["__repr__", "__hash__", "__getattribute__", "__lt__", "__le__", "__eq__",
         "__ne__", "__gt__", "__ge__", "__iter__", "__len__", "__getitem__", "__add__",
         "__mul__", "__rmul__", "__contains__"]),
      (.method, ["__getnewargs__", "index", "count"]),
      (.ofKind, ["__class_getitem__"]),
      (.ofOwner, ["__new__"])]
  | .nothing =>
    [ (.slot, ["__repr__", "__bool__"]),
      (.ofOwner, ["__new__"])]
  | .operation =>
    [ (.slot, ["__repr__", "__hash__", "__call__", "__getattribute__", "__lt__", "__le__",
         "__eq__", "__ne__", "__gt__", "__ge__"]),
      (.method, ["__reduce__"]),
      (.property, ["__doc__", "__name__", "__qualname__", "__self__", "__text_signature__"]),
      (.field, ["__module__"])]
  | .slotOperation =>
    [ (.slot, ["__repr__", "__hash__", "__call__", "__getattribute__", "__lt__", "__le__",
         "__eq__", "__ne__", "__gt__", "__ge__"]),
      (.method, ["__reduce__"]),
      (.property, ["__objclass__", "__name__", "__qualname__", "__doc__", "__text_signature__"]),
      (.field, ["__self__"])]
  | .method =>
    [ (.slot, ["__repr__", "__call__", "__getattribute__", "__get__"]),
      (.method, ["__reduce__"]),
      (.property, ["__doc__", "__qualname__", "__text_signature__"]),
      (.field, ["__objclass__", "__name__"])]
  | .slot =>
    [ (.slot, ["__repr__", "__call__", "__getattribute__", "__get__"]),
      (.method, ["__reduce__"]),
      (.property, ["__doc__", "__qualname__", "__text_signature__"]),
      (.field, ["__objclass__", "__name__"])]
  | .property =>
    [ (.slot, ["__repr__", "__getattribute__", "__get__", "__set__", "__delete__"]),
      (.property, ["__doc__", "__qualname__"]),
      (.field, ["__objclass__", "__name__"])]
  | .field =>
    [ (.slot, ["__repr__", "__getattribute__", "__get__", "__set__", "__delete__"]),
      (.method, ["__reduce__"]),
      (.property, ["__doc__", "__qualname__"]),
      (.field, ["__objclass__", "__name__"])]
  | .applied => []

/-- The form of the member of that name among a kind's own. -/
def ownMember? (k : Kind) (name : String) : Option Form :=
  k.members.findSome? fun (form, names) => if names.contains name then some form else none

/-- The kind that has the member of that name, and its form: the members of every object come after
a kind's own. -/
def member? (k : Kind) (name : String) : Option (Kind × Form) :=
  match k.ownMember? name with
  | some form => some (k, form)
  | none => (object.ownMember? name).map (object, ·)

/-- The kinds that a kind is directly a special case of. -/
def bases : Kind → List Kind
  | .object => []
  | _ => [.object]

/-- A kind and the kinds that it is a special case of, in the order in which members are looked
for. -/
def ancestry (k : Kind) : List Kind :=
  k :: k.bases

/-- Whether a kind can be given an item in square brackets. -/
def takesItem : Kind → Bool
  | .kind => true
  | .row => true
  | _ => false

/-- What a kind says about itself. -/
def documentation? : Kind → Option String
  | .object => some (
      "The base class of the class hierarchy.\n\n" ++
      "When called, it accepts no arguments and returns a new featureless\n" ++
      "instance that has no instance attributes and cannot be given any.\n")
  | .kind => some (
      "type(object) -> the object's type\n" ++
      "type(name, bases, dict, **kwds) -> a new type")
  | .text => some (
      "str(object='') -> str\n" ++
      "str(bytes_or_buffer[, encoding[, errors]]) -> str\n\n" ++
      "Create a new string object from the given object. If encoding or\n" ++
      "errors is specified, then the object must expose a data buffer\n" ++
      "that will be decoded using the given encoding and error handler.\n" ++
      "Otherwise, returns the result of object.__str__() (if defined)\n" ++
      "or repr(object).\n" ++
      "encoding defaults to sys.getdefaultencoding().\n" ++
      "errors defaults to 'strict'.")
  | .row => some (
      "Built-in immutable sequence.\n\n" ++
      "If no argument is given, the constructor returns an empty tuple.\n" ++
      "If iterable is specified the tuple is initialized from iterable's items.\n\n" ++
      "If the argument is a tuple, the return value is the same object.")
  | _ => none

/-- What the items are with which a kind makes its things, where it says so. -/
def signature? : Kind → Option String
  | .object => some "()"
  | .row => some "(iterable=(), /)"
  | _ => none

end Kind

end TermCalc.Template
