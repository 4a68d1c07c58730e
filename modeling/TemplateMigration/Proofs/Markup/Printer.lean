import TemplateMigration.Markup.Node
import TemplateMigration.Text.Blank

/-!
# TemplateMigration.Proofs.Markup.Printer

Forests as text.

A forest is printed in the plainest way: one blank before each attribute, every value between
double quotes, an end tag for every element that can have one (`Node.print`).  Printing looks at no
offset.  `Node.located` puts into a forest the offsets at which its parts stand in the print.

Not every forest can be told from its print.  `Node.Printable` asks for names that stop where they
are printed to stop, for values without double quotes, and for runs of text that neither look like
markup nor stand side by side.
-/

namespace TemplateMigration

/-! ## Attributes -/

namespace Attribute

/-- An attribute as text: a blank, the name, and the value between double quotes. -/
def print (a : Attribute) : List Char :=
  ' ' :: (a.name.toList ++ '=' :: '"' :: (a.value.toList ++ ['"']))

/-- The attribute with the offsets of its print at an offset. -/
def located (offset : Nat) (a : Attribute) : Attribute :=
  ⟨a.name, a.value, offset + 1, offset + byteCount a.print, true⟩

/-- The attributes with the offsets of their prints from an offset on. -/
def locatedFrom : Nat → List Attribute → List Attribute
  | _, [] => []
  | offset, a :: as => a.located offset :: locatedFrom (offset + byteCount a.print) as

/-- Whether a character of a printed name is read back as it is. -/
def IsNameChar (c : Char) : Prop :=
  isTagBlank c = false ∧ c ≠ '/' ∧ c ≠ '>' ∧ c ≠ '=' ∧ c.isUpper = false

instance (c : Char) : Decidable (IsNameChar c) := inferInstanceAs (Decidable (_ ∧ _))

/-- A name that is not empty and a value without double quotes. -/
structure Printable (a : Attribute) : Prop where
  nonempty : a.name.toList ≠ []
  name : ∀ c ∈ a.name.toList, IsNameChar c
  value : '"' ∉ a.value.toList

instance (a : Attribute) : Decidable a.Printable :=
  letI : Decidable (∀ c ∈ a.name.toList, IsNameChar c) := List.decidableBAll _ _
  decidable_of_iff (a.name.toList ≠ [] ∧ (∀ c ∈ a.name.toList, IsNameChar c) ∧
      '"' ∉ a.value.toList)
    ⟨fun ⟨hnonempty, hname, hvalue⟩ => ⟨hnonempty, hname, hvalue⟩,
      fun h => ⟨h.nonempty, h.name, h.value⟩⟩

end Attribute

/-! ## Tags -/

namespace StartTag

/-- A start tag as text. -/
def print (t : StartTag) : List Char :=
  '<' :: (t.name.toList ++ (t.attributes.flatMap Attribute.print ++ ['>']))

/-- The end tag of an element as text. -/
def printEnd (t : StartTag) : List Char := '<' :: '/' :: (t.name.toList ++ ['>'])

/-- The start tag with the offsets of its print at an offset. -/
def located (offset : Nat) (t : StartTag) : StartTag :=
  ⟨t.name, offset, Attribute.locatedFrom (offset + 1 + byteLength t.name) t.attributes⟩

/-- Whether a character of a printed name is read back as it is. -/
def IsNameChar (c : Char) : Prop :=
  isTagBlank c = false ∧ c ≠ '>' ∧ c ≠ '/' ∧ c.isUpper = false

instance (c : Char) : Decidable (IsNameChar c) := inferInstanceAs (Decidable (_ ∧ _))

/-- A name that starts with a lower case letter and whose body is markup, and attributes with
different names. -/
structure Printable (t : StartTag) : Prop where
  head : t.name.toList.head?.any Char.isLower
  name : ∀ c ∈ t.name.toList, IsNameChar c
  notRawText : isRawTextElement t.name = false
  attributes : ∀ a ∈ t.attributes, a.Printable
  distinct : (t.attributes.map Attribute.name).Nodup

instance (t : StartTag) : Decidable t.Printable :=
  letI : Decidable (∀ c ∈ t.name.toList, IsNameChar c) := List.decidableBAll _ _
  decidable_of_iff (t.name.toList.head?.any Char.isLower ∧ (∀ c ∈ t.name.toList, IsNameChar c) ∧
      isRawTextElement t.name = false ∧ (∀ a ∈ t.attributes, a.Printable) ∧
      (t.attributes.map Attribute.name).Nodup)
    ⟨fun ⟨hhead, hname, hraw, hattributes, hdistinct⟩ =>
        ⟨hhead, hname, hraw, hattributes, hdistinct⟩,
      fun h => ⟨h.head, h.name, h.notRawText, h.attributes, h.distinct⟩⟩

end StartTag

/-! ## Nodes -/

namespace Node

/-- Whether a node is a run of text. -/
def isText : Node → Bool
  | text _ => true
  | element _ _ => false

mutual

/-- A node as text.  A void element is its start tag. -/
def printNode : Node → List Char
  | text run => run.content.toList
  | element tag children =>
      tag.print ++ if isVoidElement tag.name then [] else print children ++ tag.printEnd

/-- A forest as text. -/
def print : List Node → List Char
  | [] => []
  | n :: ns => n.printNode ++ print ns

end

mutual

/-- The node with the offsets of its print at an offset. -/
def locatedNode (offset : Nat) : Node → Node
  | text run => text ⟨run.content, offset⟩
  | element tag children =>
      element (tag.located offset) (located (offset + byteCount tag.print) children)

/-- The forest with the offsets of its print at an offset. -/
def located (offset : Nat) : List Node → List Node
  | [] => []
  | n :: ns => n.locatedNode offset :: located (offset + byteCount n.printNode) ns

end

mutual

/-- A node that can be told from its print. -/
def PrintableNode : Node → Prop
  | text run => run.content.toList ≠ [] ∧ '<' ∉ run.content.toList
  | element tag children =>
      tag.Printable ∧ (isVoidElement tag.name → children.isEmpty) ∧ Printable children

/-- A forest that can be told from its print: its nodes can, and no two runs of text stand side by
side. -/
def Printable : List Node → Prop
  | [] => True
  | n :: ns => n.PrintableNode ∧ (n.isText → ∀ m ∈ ns.head?, m.isText = false) ∧ Printable ns

end

end Node

end TemplateMigration
