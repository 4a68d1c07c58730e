import TemplateMigration.Text.Bytes

/-!
# TemplateMigration.Text.Cursor

A place in a text: its byte offset and the characters that follow.  Every step of a scan moves a
cursor forward by whole characters with `skip`, so the offset stays a character boundary and the
rest never grows.
-/

namespace TemplateMigration

/-- A place in a text: its byte offset and what follows it. -/
structure Cursor where
  offset : Nat
  rest : List Char
  deriving DecidableEq, Repr

/-- The number of characters before the first occurrence of a word in a text. -/
def indexOf? (word : List Char) : List Char → Option Nat
  | [] => if word.isEmpty then some 0 else none
  | c :: cs => if word.isPrefixOf (c :: cs) then some 0 else (indexOf? word cs).map (· + 1)

namespace Cursor

/-- The start of a text. -/
def ofText (text : List Char) : Cursor := ⟨0, text⟩

/-- Move over a number of characters, or to the end. -/
def skip (n : Nat) (c : Cursor) : Cursor :=
  ⟨c.offset + byteCount (c.rest.take n), c.rest.drop n⟩

/-- Move to the end of the text. -/
def skipAll (c : Cursor) : Cursor := c.skip c.rest.length

/-- Move over the characters that satisfy a test. -/
def skipWhile (p : Char → Bool) (c : Cursor) : Cursor := c.skip (c.rest.takeWhile p).length

/-- Move past the next occurrence of a word, or to the end. -/
def skipPast (word : List Char) (c : Cursor) : Cursor :=
  match indexOf? word c.rest with
  | some n => c.skip (n + word.length)
  | none => c.skipAll

@[simp] theorem length_rest_skip (n : Nat) (c : Cursor) :
    (c.skip n).rest.length = c.rest.length - n := by
  simp [skip]

@[simp] theorem length_rest_skipAll (c : Cursor) : c.skipAll.rest.length = 0 := by
  simp [skipAll]

theorem length_rest_skipWhile_le (p : Char → Bool) (c : Cursor) :
    (c.skipWhile p).rest.length ≤ c.rest.length := by
  simp [skipWhile]

theorem length_rest_skipPast_le (word : List Char) (c : Cursor) :
    (c.skipPast word).rest.length ≤ c.rest.length := by
  unfold skipPast
  split
  · simp
  · rw [length_rest_skipAll]; exact Nat.zero_le _

end Cursor

end TemplateMigration
