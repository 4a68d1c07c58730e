import TemplateMigration.Text.Bytes

/-!
# TemplateMigration.Markup.Node

Templates as forests of elements and text.  Everything carries byte offsets of the source, and
texts and attribute values are kept as written, so that an offset inside one of them can be
carried back to the source by addition.
-/

namespace TemplateMigration

/-- An attribute of a start tag. -/
structure Attribute where
  /-- The name in ASCII lower case. -/
  name : String
  /-- The value without its quotes. -/
  value : String
  /-- The byte offset of the name. -/
  start : Nat
  /-- The byte offset after the value with its closing quote, or after a name without value. -/
  stop : Nat
  /-- Whether the value stands between two quotes. -/
  quoted : Bool
  deriving DecidableEq, Repr

namespace Attribute

/-- The byte offset of the value, counted back from the end of the attribute.  The value and its
closing quote have to fit in front of that end, as they do in every attribute that is read:
`Attribute.valueStart_add_eq_stop_iff`. -/
def valueStart (a : Attribute) : Nat :=
  if a.quoted then a.stop - 1 - byteLength a.value else a.stop - byteLength a.value

/-- Whether the attribute has a value, possibly an empty one between quotes. -/
def hasValue (a : Attribute) : Bool := a.quoted || !a.value.isEmpty

end Attribute

/-- A start tag: its name in ASCII lower case, the byte offset of its `<`, its attributes. -/
structure StartTag where
  name : String
  start : Nat
  attributes : List Attribute
  deriving DecidableEq, Repr

namespace StartTag

/-- The byte offset after the tag's name. -/
def nameStop (t : StartTag) : Nat := t.start + 1 + byteLength t.name

/-- The attribute of a given name. -/
def attribute? (t : StartTag) (name : String) : Option Attribute :=
  t.attributes.find? (·.name == name)

end StartTag

/-- A run of text and the byte offset of its first character. -/
structure TextRun where
  content : String
  start : Nat
  deriving DecidableEq, Repr

/-- A node of a template: text, or an element with its children. -/
inductive Node where
  | text (run : TextRun)
  | element (tag : StartTag) (children : List Node)
  deriving Repr

/-- The elements that have neither children nor an end tag. -/
def voidElements : List String :=
  ["area", "base", "br", "col", "embed", "hr", "img", "input", "link", "meta", "param", "source",
   "track", "wbr"]

/-- Whether elements of a name have neither children nor an end tag. -/
def isVoidElement (name : String) : Bool := voidElements.contains name

/-- Whether the body of elements of a name is plain text rather than markup. -/
def isRawTextElement (name : String) : Bool := name == "script" || name == "style"

end TemplateMigration
