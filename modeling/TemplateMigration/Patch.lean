import TemplateMigration.Failure
import TemplateMigration.Text.Bytes

/-!
# TemplateMigration.Patch

Edits of one text that are all addressed by byte offsets of the text as it was, so that they can
be made in any order.

The text is held as a chain of pieces.  An edge stands between two neighbouring pieces, at every
offset that an edit has named, and collects what is inserted there: text inserted on its left
stands before text inserted on its right.  A removal marks pieces and kills the edges strictly
inside its range; a dead edge drops what is inserted at it, before or after the removal.
-/

namespace TemplateMigration

/-- A stretch of the text, kept or removed. -/
structure Piece where
  content : List Char
  removed : Bool
  deriving DecidableEq, Repr

namespace Piece

/-- The number of bytes of a piece. -/
def size (p : Piece) : Nat := byteCount p.content

/-- What is left of a piece. -/
def render (p : Piece) : List Char := if p.removed then [] else p.content

/-- The piece, removed. -/
def remove (p : Piece) : Piece := { p with removed := true }

/-- The two parts of a piece on the sides of a byte offset. -/
def cut (p : Piece) (offset : Nat) : Piece × Piece :=
  match cut? offset p.content with
  | some (before, after) => (⟨before, p.removed⟩, ⟨after, p.removed⟩)
  | none => (p, ⟨[], p.removed⟩)

end Piece

/-- What has been inserted between two pieces. -/
inductive Edge where
  | live (left right : List Char)
  | dead
  deriving DecidableEq, Repr

namespace Edge

/-- The text inserted at an edge. -/
def render : Edge → List Char
  | live left right => left ++ right
  | dead => []

/-- Insert after everything inserted on the left so far. -/
def insertLeft (text : List Char) : Edge → Edge
  | live left right => live (left ++ text) right
  | dead => dead

/-- Insert before everything inserted on the right so far. -/
def insertRight (text : List Char) : Edge → Edge
  | live left right => live left (text ++ right)
  | dead => dead

/-- The edge that a cut through a piece makes: dead inside a removal. -/
def fresh (p : Piece) : Edge := if p.removed then dead else live [] []

end Edge

/-- Pieces with edges between them. -/
inductive Chain where
  | single (p : Piece)
  | join (p : Piece) (e : Edge) (rest : Chain)
  deriving DecidableEq, Repr

namespace Chain

/-- The text that the chain covers, as it was. -/
def source : Chain → List Char
  | single p => p.content
  | join p _ rest => p.content ++ rest.source

/-- The text with its edits. -/
def render : Chain → List Char
  | single p => p.render
  | join p e rest => p.render ++ e.render ++ rest.render

/-- The number of pieces. -/
def count : Chain → Nat
  | single _ => 1
  | join _ _ rest => rest.count + 1

/-- Make sure that an edge stands at a byte offset, cutting a piece if none does. -/
def addEdge (offset : Nat) : Chain → Chain
  | single p => join (p.cut offset).1 (.fresh p) (single (p.cut offset).2)
  | join p e rest =>
      if offset < p.size then join (p.cut offset).1 (.fresh p) (join (p.cut offset).2 e rest)
      else if offset = p.size then join p e rest
      else join p e (rest.addEdge (offset - p.size))

/-- Change the edge at a byte offset. -/
def updateEdge (f : Edge → Edge) (offset : Nat) : Chain → Chain
  | single p => single p
  | join p e rest =>
      if offset < p.size then join p e rest
      else if offset = p.size then join p (f e) rest
      else join p e (rest.updateEdge f (offset - p.size))

/-- The edge at a byte offset, if one stands there. -/
def edge? (offset : Nat) : Chain → Option Edge
  | single _ => none
  | join p e rest =>
      if offset < p.size then none
      else if offset = p.size then some e
      else rest.edge? (offset - p.size)

/-- Remove the pieces that start a chain, up to an edge. -/
def removeUpTo (length : Nat) : Chain → Chain
  | single p => single p.remove
  | join p e rest =>
      if length ≤ p.size then join p.remove e rest
      else join p.remove .dead (rest.removeUpTo (length - p.size))

/-- Remove the pieces from an edge up to another. -/
def removeFrom (offset length : Nat) : Chain → Chain
  | single p => single p
  | join p e rest =>
      if offset < p.size then join p e rest
      else if offset = p.size then join p e (rest.removeUpTo length)
      else join p e (rest.removeFrom (offset - p.size) length)

end Chain

/-- A text with edits. -/
structure Patch where
  chain : Chain
  deriving DecidableEq, Repr

namespace Patch

/-- A text without edits. -/
def ofText (text : String) : Patch := ⟨.single ⟨text.toList, false⟩⟩

/-- The text as it was. -/
def source (p : Patch) : String := String.ofList p.chain.source

/-- The text with its edits. -/
def render (p : Patch) : String := String.ofList p.chain.render

/-- The number of pieces into which the edits have cut the text. -/
def pieceCount (p : Patch) : Nat := p.chain.count

/-- The number of bytes of the text as it was. -/
def size (p : Patch) : Nat := byteCount p.chain.source

/-- Refuse an offset past the end or inside a character. -/
def check (p : Patch) (offset : Nat) : Except Failure Unit :=
  if p.size < offset then .error (.offsetOutOfBounds offset p.size)
  else if (cut? offset p.chain.source).isNone then .error (.offsetInsideCharacter offset)
  else .ok ()

/-- Change the edge at an offset, making it first if need be. -/
def edit (p : Patch) (f : Edge → Edge) (offset : Nat) : Except Failure Patch :=
  (p.check offset).map fun _ => ⟨(p.chain.addEdge offset).updateEdge f offset⟩

/-- Insert text at an offset, before all that is inserted on the right there and after all that
was inserted on the left. -/
def insertLeft (p : Patch) (offset : Nat) (text : String) : Except Failure Patch :=
  p.edit (.insertLeft text.toList) offset

/-- Insert text at an offset, after all that is inserted on the left there and before all that
was inserted on the right. -/
def insertRight (p : Patch) (offset : Nat) (text : String) : Except Failure Patch :=
  p.edit (.insertRight text.toList) offset

/-- The largest offset: offsets are 64-bit words. -/
def maxOffset : Nat := Nat.pow 2 64 - 1

/-- Remove a range of the text with everything inserted strictly inside it.  A range that ends
past the largest offset is out of bounds there. -/
def remove (p : Patch) (offset length : Nat) : Except Failure Patch :=
  if maxOffset < offset + length then .error (.offsetOutOfBounds maxOffset p.size)
  else do
    p.check offset
    p.check (offset + length)
    if length = 0 then .ok p
    else .ok ⟨((p.chain.addEdge offset).addEdge (offset + length)).removeFrom offset length⟩

/-- Whether what is inserted at an offset is dropped, the offset being inside a removal. -/
def drops (p : Patch) (offset : Nat) : Bool :=
  (p.chain.addEdge offset).edge? offset == some .dead

end Patch

end TemplateMigration
