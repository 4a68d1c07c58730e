import TemplateMigration.Text.Bytes

/-!
# TemplateMigration.Text.Line

Lines and characters of a text.  A line ends at a line feed only; a carriage return is an
ordinary character.  `LinePosition.ofOffset` counts the characters that begin before an offset,
so an offset inside a character is placed after it, and one past the end at the end.
-/

namespace TemplateMigration

/-- A place in a text, both parts counted from zero. -/
structure LinePosition where
  line : Nat
  character : Nat
  deriving DecidableEq, Repr

namespace LinePosition

/-- The start of a text. -/
def start : LinePosition := ⟨0, 0⟩

/-- The place after one more character. -/
def next (p : LinePosition) (c : Char) : LinePosition :=
  if c = '\n' then ⟨p.line + 1, 0⟩ else ⟨p.line, p.character + 1⟩

/-- The place after every character that begins before a byte offset. -/
def advance (p : LinePosition) : Nat → List Char → LinePosition
  | 0, _ => p
  | _ + 1, [] => p
  | n + 1, c :: cs => (p.next c).advance (n + 1 - c.utf8Size) cs

/-- The place of a byte offset in a text. -/
def ofOffset (text : String) (offset : Nat) : LinePosition :=
  start.advance offset text.toList

/-- The place as people count it, from one: `line:character`. -/
def render (p : LinePosition) : String :=
  toString (p.line + 1) ++ ":" ++ toString (p.character + 1)

end LinePosition

/-- The number of lines of a text: one more than its line feeds. -/
def lineCount (text : String) : Nat := text.toList.count '\n' + 1

end TemplateMigration
