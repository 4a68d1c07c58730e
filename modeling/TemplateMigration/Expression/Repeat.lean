import TemplateMigration.Text.Blank
import TemplateMigration.Text.Word

/-!
# TemplateMigration.Expression.Repeat

The repeat expression `item in collection as alias track by key`, the last two parts optional.

Several readings of a text can be possible; the one taken is the first in a fixed order of
preference.  Each step therefore gets the step that follows it as an argument (`next`) and tries
its own possibilities in order: white space takes as much as it can first, a part as little as it
can, and an optional part is tried before it is left out.
-/

namespace TemplateMigration

/-! ## Steps of a reading -/

namespace Reading

/-- White space, as much of it as possible first. -/
def blanks {α : Type} (next : List Char → Option α) : List Char → Option α
  | [] => next []
  | c :: cs =>
      if isWhiteSpace c then blanks next cs <|> next (c :: cs) else next (c :: cs)

/-- At least one white space character. -/
def someBlanks {α : Type} (next : List Char → Option α) : List Char → Option α
  | [] => none
  | c :: cs => if isWhiteSpace c then blanks next cs else none

/-- A given word. -/
def word {α : Type} (w : List Char) (next : List Char → Option α) (cs : List Char) : Option α :=
  if w.isPrefixOf cs then next (cs.drop w.length) else none

/-- At least one character, as few as possible first; `taken` are those taken already. -/
def part {α : Type} (next : List Char → List Char → Option α) (taken : List Char) :
    List Char → Option α
  | [] => none
  | c :: cs => next (taken ++ [c]) cs <|> part next (taken ++ [c]) cs

/-- White space up to the end of the text. -/
def finish {α : Type} (result : α) (cs : List Char) : Option α :=
  if cs.all isWhiteSpace then some result else none

end Reading

/-! ## The expression -/

/-- The parts of a repeat expression. -/
structure RepeatExpression where
  item : List Char
  collection : List Char
  name : Option (List Char)
  trackBy : Option (List Char)
  deriving DecidableEq, Repr

namespace RepeatExpression

open Reading

/-- Read `track by key`, if it is there, and the end. -/
def readTrackBy (e : RepeatExpression) (cs : List Char) : Option RepeatExpression :=
  someBlanks (word ['t', 'r', 'a', 'c', 'k'] (someBlanks (word ['b', 'y'] (someBlanks
    (part (fun key => finish { e with trackBy := some key }) []))))) cs <|> finish e cs

/-- Read `as name`, if it is there, and what follows. -/
def readName (e : RepeatExpression) (cs : List Char) : Option RepeatExpression :=
  someBlanks (word ['a', 's'] (someBlanks
    (part (fun name => readTrackBy { e with name := some name }) []))) cs <|> readTrackBy e cs

/-- Read a repeat expression. -/
def parse? (text : String) : Option RepeatExpression :=
  blanks
    (part (fun item =>
      someBlanks (word ['i', 'n'] (someBlanks
        (part (fun collection => readName ⟨item, collection, none, none⟩) [])))) [])
    text.toList

end RepeatExpression

/-! ## Items -/

/-- What stands for each member of the collection. -/
inductive RepeatItem where
  | single (name : List Char)
  | keyValue (key value : List Char)
  deriving DecidableEq, Repr

namespace RepeatItem

/-- Whether a character can be in the name of an item. -/
def isNameChar (c : Char) : Bool := c == '$' || isWordChar c

/-- A name and what follows it and the white space after it. -/
def readName? (cs : List Char) : Option (List Char × List Char) :=
  let name := cs.takeWhile isNameChar
  if name.isEmpty then none else some (name, trimStart (cs.dropWhile isNameChar))

/-- Read `key, value)`. -/
def readPair? (cs : List Char) : Option RepeatItem :=
  (readName? (trimStart cs)).bind fun (key, rest) =>
    if rest.head? = some ',' then
      (readName? (trimStart rest.tail)).bind fun (value, rest) =>
        if rest = [')'] then some (keyValue key value) else none
    else none

/-- Read an item: a name, or a key and a value in parentheses. -/
def parse? (cs : List Char) : Option RepeatItem :=
  let name := trimStart cs
  if !name.isEmpty && name.all isNameChar then some (single name)
  else if cs.head? = some '(' then readPair? cs.tail
  else none

end RepeatItem

/-! ## Aliases -/

/-- Whether a character can start the name of an alias. -/
def isAliasStart (c : Char) : Bool := c == '$' || c.isAlpha || c == '_'

/-- The names that an alias cannot have. -/
def reservedAliases : List String :=
  ["null", "undefined", "this", "$index", "$first", "$middle", "$last", "$even", "$odd", "$parent",
   "$root", "$id"]

/-- Whether a text can be the name of an alias. -/
def isAliasName (name : List Char) : Bool :=
  name.head?.any isAliasStart && name.all (fun c => isAliasStart c || c.isDigit) &&
    !reservedAliases.contains (String.ofList name)

end TemplateMigration
