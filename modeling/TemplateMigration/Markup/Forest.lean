import TemplateMigration.Markup.Event

/-!
# TemplateMigration.Markup.Forest

From the flat reading of a template to its forest.  An end tag closes the innermost open element
of its name together with every element inside it; without such an element it is ignored.
Elements left open are closed at the end.
-/

namespace TemplateMigration

/-- An element that has been opened, with the children met so far. -/
structure OpenElement where
  tag : StartTag
  children : List Node
  deriving Repr

/-- A forest under construction: finished roots, and the open elements, innermost first. -/
structure ForestBuilder where
  roots : List Node
  opened : List OpenElement
  deriving Repr

namespace ForestBuilder

/-- Nothing read yet. -/
def empty : ForestBuilder := ⟨[], []⟩

/-- Add a finished node where the scan stands. -/
def add (b : ForestBuilder) (n : Node) : ForestBuilder :=
  match b.opened with
  | [] => ⟨b.roots ++ [n], []⟩
  | e :: rest => ⟨b.roots, ⟨e.tag, e.children ++ [n]⟩ :: rest⟩

/-- Close the innermost open element. -/
def close (b : ForestBuilder) : ForestBuilder :=
  match b.opened with
  | [] => b
  | e :: rest => add ⟨b.roots, rest⟩ (.element e.tag e.children)

/-- Close a number of open elements from the inside. -/
def closeMany : Nat → ForestBuilder → ForestBuilder
  | 0, b => b
  | n + 1, b => closeMany n b.close

/-- Take in one event. -/
def step (b : ForestBuilder) : MarkupEvent → ForestBuilder
  | .text run => b.add (.text run)
  | .start tag true => b.add (.element tag [])
  | .start tag false => ⟨b.roots, ⟨tag, []⟩ :: b.opened⟩
  | .stop name =>
      match b.opened.findIdx? (·.tag.name == name) with
      | none => b
      | some depth => b.closeMany (depth + 1)

/-- Close every open element and give the forest. -/
def finish (b : ForestBuilder) : List Node := (b.closeMany b.opened.length).roots

end ForestBuilder

/-- The forest that a sequence of events describes. -/
def Node.ofEvents (events : List MarkupEvent) : List Node :=
  (events.foldl ForestBuilder.step .empty).finish

/-- The forest of a template. -/
def Node.parse (template : String) : List Node := ofEvents (MarkupEvent.scan template)

end TemplateMigration
