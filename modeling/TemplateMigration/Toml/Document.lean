import TemplateMigration.Toml.Scalar

/-!
# TemplateMigration.Toml.Document

Whole TOML documents.  A document is a sequence of statements, each on a line of its own: a key
with its value, the header of a table, or the header of one more table of an array.
-/

namespace TemplateMigration.Toml

/-! ## Keys -/

/-- Whether a character can be in a key without quotes. -/
def isBareKeyPart (c : Char) : Bool := c.isAlphanum || c == '_' || c == '-'

/-- Read one part of a key. -/
def readKey? (cs : List Char) : Option (String × List Char) :=
  let bare := cs.takeWhile isBareKeyPart
  if bare.isEmpty then readString? false cs else some (String.ofList bare, cs.drop bare.length)

/-- Read a key of one or more parts with points between them. -/
def readKeyPath? (cs : List Char) : Option (KeyPath × List Char) :=
  match readKey? (skipBlanks cs) with
  | none => none
  | some (key, rest) =>
      match skipBlanks rest with
      | '.' :: after =>
          if _h : after.length < cs.length then
            (readKeyPath? after).map fun (path, rest) => (⟨key :: path.parents, path.key⟩, rest)
          else none
      | rest => some (⟨[], key⟩, rest)
termination_by cs.length

/-! ## Values -/

mutual

/-- Read a value that holds others at most to a given depth. -/
def readValue? (depth : Nat) (cs : List Char) : Option (Value × List Char) :=
  match cs with
  | [] => none
  | c :: rest =>
      if c = '"' ∨ c = '\'' then (readString? true cs).map fun (s, rest) => (.string s, rest)
      else if c = '[' ∨ c = '\x7b' then
        match depth with
        | 0 => none
        | depth + 1 =>
            if c = '[' then
              (readItems? depth rest).map fun (items, rest) => (.array items, rest)
            else
              (readEntries? depth [] rest).map fun (entries, rest) =>
                (.table .inline entries, rest)
      else readWord? cs
termination_by (depth, 0, cs.length)

/-- Read the items of an array up to its closing bracket. -/
def readItems? (depth : Nat) (cs : List Char) : Option (List Value × List Char) :=
  match skipTrivia false cs with
  | none => none
  | some (']' :: rest) => some ([], rest)
  | some start =>
      match readValue? depth start with
      | none => none
      | some (item, after) =>
          match skipTrivia false after with
          | some (']' :: rest) => some ([item], rest)
          | some (',' :: rest) =>
              if _h : rest.length < cs.length then
                (readItems? depth rest).map fun (items, rest) => (item :: items, rest)
              else none
          | _ => none
termination_by (depth, 1, cs.length)

/-- Read the entries of an inline table up to its closing brace, and add them to those found. -/
def readEntries? (depth : Nat) (found : Entries) (cs : List Char) :
    Option (Entries × List Char) :=
  match skipTrivia false cs with
  | none => none
  | some ('\x7d' :: rest) => some (found, rest)
  | some start =>
      match readKeyPath? start with
      | some (path, '=' :: after) =>
          match readValue? depth (skipBlanks after) with
          | none => none
          | some (value, after) =>
              match Entries.assign path value .inline found with
              | none => none
              | some found =>
                  match skipTrivia false after with
                  | some ('\x7d' :: rest) => some (found, rest)
                  | some (',' :: rest) =>
                      if _h : rest.length < cs.length then readEntries? depth found rest else none
                  | _ => none
      | _ => none
termination_by (depth, 1, cs.length)

end

/-! ## Statements -/

/-- A line of a document. -/
inductive Statement where
  | assign (path : KeyPath) (value : Value)
  | openTable (path : KeyPath)
  | openElement (path : KeyPath)
  deriving Repr

/-- The greatest depth to which values may hold others. -/
def maxDepth : Nat := 80

/-- Read a statement with the end of its line. -/
def readStatement? (cs : List Char) : Option (Statement × List Char) :=
  match cs with
  | '[' :: '[' :: rest =>
      match readKeyPath? rest with
      | some (path, ']' :: ']' :: rest) =>
          (afterLine? rest).map fun rest => (.openElement path, rest)
      | _ => none
  | '[' :: rest =>
      match readKeyPath? rest with
      | some (path, ']' :: rest) => (afterLine? rest).map fun rest => (.openTable path, rest)
      | _ => none
  | cs =>
      match readKeyPath? cs with
      | some (path, '=' :: rest) =>
          match readValue? maxDepth (skipBlanks rest) with
          | some (value, rest) => (afterLine? rest).map fun rest => (.assign path value, rest)
          | none => none
      | _ => none

/-- Read the statements of a document. -/
def readStatements? (cs : List Char) : Option (List Statement) :=
  match skipTrivia false cs with
  | none => none
  | some [] => some []
  | some start =>
      match readStatement? start with
      | none => none
      | some (statement, rest) =>
          if _h : rest.length < cs.length then (readStatements? rest).map (statement :: ·) else none
termination_by cs.length

/-! ## Documents -/

/-- The root of a document under construction and the path of the table whose header came
last. -/
structure Builder where
  root : Entries
  current : List String

/-- Take in one statement. -/
def Builder.step (b : Builder) : Statement → Option Builder
  | .assign path value =>
      (Entries.modify false (fun form => Entries.assign path value form) .opened b.current
        b.root).map fun root => { b with root }
  | .openTable path =>
      (Entries.openTable path b.root).map fun root => ⟨root, path.parents ++ [path.key]⟩
  | .openElement path =>
      (Entries.openElement path b.root).map fun root => ⟨root, path.parents ++ [path.key]⟩

/-- The root table of a document.  A byte order mark at its start is left out. -/
def parse? (text : String) : Option Entries :=
  let cs := text.toList
  let cs := if cs.head? = some '\ufeff' then cs.tail else cs
  (readStatements? cs).bind fun statements =>
    (statements.foldlM Builder.step ⟨[], []⟩).map Builder.root

end TemplateMigration.Toml
