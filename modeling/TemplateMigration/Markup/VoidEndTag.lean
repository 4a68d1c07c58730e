/-!
# TemplateMigration.Markup.VoidEndTag

Removal of the end tags of elements that have none.  Names are compared by simple case folding,
under which the Kelvin sign is a `k` and the long s an `s`.  The text is swept once: what a
removal brings together is not looked at again.
-/

namespace TemplateMigration.VoidEndTag

/-- The names whose end tags are removed. -/
def names : List (List Char) :=
  ["base", "meta", "area", "embed", "link", "img", "input", "param", "hr", "br", "source", "track",
   "wbr"].map String.toList

/-- Whether a character folds to a given lower-case letter. -/
def foldsTo (letter c : Char) : Bool :=
  c.toLower == letter || (letter == 'k' && c == '\u212a') || (letter == 's' && c == '\u017f')

/-- What follows a word, compared by case folding, at the start of a text. -/
def afterWord? : List Char → List Char → Option (List Char)
  | [], cs => some cs
  | _ :: _, [] => none
  | x :: xs, c :: cs => if foldsTo x c then afterWord? xs cs else none

/-- The length of the removable end tag at the start of a text. -/
def length? : List Char → Option Nat
  | '<' :: '/' :: rest =>
      (names.find? fun name => (afterWord? name rest).any (·.head? == some '>')).map (·.length + 3)
  | _ => none

/-- Remove the end tags from a text; the number counts characters still to be left out. -/
def sweep : Nat → List Char → List Char
  | _, [] => []
  | n + 1, _ :: cs => sweep n cs
  | 0, c :: cs =>
      match length? (c :: cs) with
      | some n => sweep (n - 1) cs
      | none => c :: sweep 0 cs

/-- A text without the end tags of void elements. -/
def strip (text : String) : String := String.ofList (sweep 0 text.toList)

end TemplateMigration.VoidEndTag
