import TemplateMigration.Text.Blank
import TemplateMigration.Project.Glob

/-!
# TemplateMigration.Project.Ignore

Ignore patterns, one a line.  A line that starts with `#` and a blank line say nothing; `!` takes
back what earlier lines ignore; a final `/` limits a line to directories; a line with a `/`
elsewhere is anchored at the root, any other matches at every depth.  The last line that matches a
path decides.
-/

namespace TemplateMigration

/-- In ignore patterns `*` and `?` stay within a component. -/
def GlobDialect.ignoring : GlobDialect := ⟨true, true⟩

/-- A line that ignores paths, or takes them back. -/
structure IgnorePattern where
  glob : Glob
  takesBack : Bool
  directoriesOnly : Bool

namespace IgnorePattern

/-- Whether a pattern is about a path. -/
def applies (p : IgnorePattern) (path : List UInt8) (isDirectory : Bool) : Bool :=
  (isDirectory || !p.directoriesOnly) && p.glob.isMatch path

/-! ## reading -/

/-- Cut blanks at the end, unless the last of them is escaped. -/
def cutBlanks (line : List Char) : List Char :=
  if [' ', '\\'].isPrefixOf line.reverse then line else trimEnd line

/-- A line without the marks around its glob. -/
structure Marks where
  body : List Char
  takesBack : Bool
  anchored : Bool
  directoriesOnly : Bool
  deriving DecidableEq, Repr

namespace Marks

/-- Take off the marks at the start: `!`, then `/`.  A backslash makes a `!` or `#` literal. -/
def leading (line : List Char) : Marks :=
  let anchored (line : List Char) (takesBack : Bool) : Marks := match line with
    | '/' :: rest => ⟨rest, takesBack, true, false⟩
    | _ => ⟨line, takesBack, false, false⟩
  match line with
  | '\\' :: '!' :: rest => ⟨'!' :: rest, false, false, false⟩
  | '\\' :: '#' :: rest => ⟨'#' :: rest, false, false, false⟩
  | '!' :: rest => anchored rest true
  | line => anchored line false

/-- Take off the mark at the end: `/`, with the backslash that escapes it. -/
def trailing (m : Marks) : Marks :=
  match m.body.reverse with
  | '/' :: '\\' :: rest | '/' :: rest => { m with body := rest.reverse, directoriesOnly := true }
  | _ => m

/-- The glob of a line: with a leading `**/` if it may match at every depth, and with something
below a final `/**`. -/
def globText (m : Marks) : List Char :=
  let anyDepth := ['*', '*', '/']
  let floats := !m.anchored && !m.body.contains '/'
  let text :=
    if floats && !anyDepth.isPrefixOf m.body && m.body != ['*', '*'] then anyDepth ++ m.body
    else m.body
  if ['*', '*', '/'].isPrefixOf text.reverse then text ++ ['/', '*'] else text

end Marks

/-- Read the glob of a line. -/
def ofMarks? (m : Marks) : Option IgnorePattern :=
  (Glob.parse? .ignoring (String.ofList m.globText)).map (⟨·, m.takesBack, m.directoriesOnly⟩)

/-- Read a line: no pattern for a comment or blank line, nothing at all for a malformed one. -/
def parse? (line : String) : Option (Option IgnorePattern) :=
  match line.toList with
  | '#' :: _ => some none
  | cs =>
      match cutBlanks cs with
      | [] => some none
      | body => (ofMarks? (Marks.leading body).trailing).map some

end IgnorePattern

/-- Ignore patterns in order. -/
structure IgnoreList where
  patterns : List IgnorePattern

namespace IgnoreList

/-- The list that ignores nothing. -/
def empty : IgnoreList := ⟨[]⟩

/-- Whether a path is ignored: the last pattern that applies decides. -/
def ignores (l : IgnoreList) (path : List UInt8) (isDirectory : Bool) : Bool :=
  match l.patterns.reverse.find? (·.applies path isDirectory) with
  | some p => !p.takesBack
  | none => false

/-- The well-formed lines of a list. -/
def ofLines (lines : List String) : IgnoreList :=
  ⟨lines.filterMap fun line => (IgnorePattern.parse? line).join⟩

/-! ## ignore files -/

/-- The lines of a file, without their ends. -/
def splitLines : List UInt8 → List (List UInt8)
  | [] => []
  | b :: bs =>
      if b == 10 then [] :: splitLines bs
      else
        match splitLines bs with
        | [] => [[b]]
        | line :: more =>
            if b == 13 && line.isEmpty && bs.head? == some 10 then line :: more
            else (b :: line) :: more

/-- The lines of a file up to the first one that is no text. -/
def decodeLines : List (List UInt8) → List String
  | [] => []
  | line :: more =>
      match String.fromUTF8? ⟨line.toArray⟩ with
      | some s => s :: decodeLines more
      | none => []

/-- Leave out byte order marks. -/
def dropMarks (line : String) : String :=
  String.ofList (line.toList.dropWhile (· == '\ufeff'))

/-- Read an ignore file: malformed lines are skipped, and reading stops at bytes that are no
text. -/
def ofFile (content : ByteArray) : IgnoreList :=
  match decodeLines (splitLines content.toList) with
  | [] => empty
  | first :: more => ofLines (dropMarks first :: more)

end IgnoreList

end TemplateMigration
