import TemplateMigration.Failure
import TemplateMigration.Project.FileName

/-!
# TemplateMigration.Project.FileTree

A file system as a value: directories, files and symbolic links, some of which cannot be opened.  A
path is a list of names, which need not be text.  `FileNode.get?` looks at a path as it stands,
`FileNode.resolve` follows the links on the way and gives the place that is meant; reading and
writing go through `resolve`.
-/

namespace TemplateMigration

/-- The names on the way to a place. -/
abbrev Path := List FileName

namespace Path

/-- A path as the file system writes it. -/
def bytes (path : Path) : List UInt8 := [FileName.separator].intercalate (path.map FileName.bytes)

/-- A path as it is shown. -/
def render (path : Path) : String := String.ofList (decodeLossy path.bytes)

theorem bytes_cons_cons (a b : FileName) (path : Path) :
    bytes (a :: b :: path) = a.bytes ++ FileName.separator :: bytes (b :: path) := by
  simp [bytes, List.intercalate_cons_cons]

theorem bytes_map_ofString (texts : List String) :
    bytes (texts.map FileName.ofString) =
      (['/'].intercalate (texts.map String.toList)).flatMap String.utf8EncodeChar := by
  induction texts with
  | nil => rfl
  | cons text texts ih =>
      cases texts with
      | nil => simp [bytes, FileName.bytes_ofString]
      | cons next texts =>
          have hslash : String.utf8EncodeChar '/' = [FileName.separator] := by decide
          simp only [List.map_cons] at ih
          simp [bytes_cons_cons, FileName.bytes_ofString, ih, List.intercalate_cons_cons, hslash]

/-- A path whose names are text is shown as it is. -/
theorem toList_render (texts : List String) :
    (render (texts.map FileName.ofString)).toList =
      ['/'].intercalate (texts.map String.toList) := by
  rw [render, String.toList_ofList, bytes_map_ofString, decodeLossy_flatMap_utf8EncodeChar]

/-- The order of paths: name by name, and byte by byte in a name. -/
def le : Path → Path → Bool
  | [], _ => true
  | _ :: _, [] => false
  | a :: as, b :: bs => if a = b then le as bs else decide (a < b)

end Path

/-- What a name stands for. -/
inductive FileNode where
  | file (content : ByteArray)
  /-- A symbolic link with the path that it names. -/
  | symlink (target : FileName)
  | directory (entries : List (FileName × FileNode))
  /-- A file or directory that cannot be opened, and why. -/
  | locked (isDirectory : Bool) (fault : FileFault)

/-- The entries of a directory. -/
abbrev FileEntries := List (FileName × FileNode)

namespace FileEntries

/-- Put an entry in place of the one with its name, or after the others. -/
def put (name : FileName) (node : FileNode) : FileEntries → FileEntries
  | [] => [(name, node)]
  | entry :: more => if entry.1 = name then (name, node) :: more else entry :: put name node more

end FileEntries

namespace FileNode

/-- A link to a path that is text. -/
def link (target : String) : FileNode := .symlink target

/-! ## places -/

/-- What is at a path, no link being followed. -/
def get? : FileNode → Path → Option FileNode
  | node, [] => some node
  | .directory entries, name :: more => (entries.lookup name).bind (get? · more)
  | _, _ :: _ => none

/-- Put a node at a path, no link being followed.  Directories on the way are made; a path below a
file or link changes nothing. -/
def insert (new : FileNode) : Path → FileNode → FileNode
  | [], _ => new
  | name :: more, .directory entries =>
      .directory (FileEntries.put name
        (insert new more ((entries.lookup name).getD (.directory []))) entries)
  | _ :: _, node => node

/-- Make a directory, with those on the way, where there is nothing yet. -/
def makeDirectory (tree : FileNode) (path : Path) : FileNode :=
  if (tree.get? path).isSome then tree else insert (.directory []) path tree

/-! ## following links -/

/-- The steps that a written path asks for, and whether they start at the root.  A `.` and an empty
step stay where they are. -/
def steps (written : FileName) : Bool × Path :=
  match (written.bytes.splitOn FileName.separator).map FileName.mk with
  | ⟨[]⟩ :: more => (true, more)
  | names => (false, names)

/-- Take steps from a place, following at most `links` links; gives the place reached, which is no
link. -/
def follow (tree : FileNode) (links : Nat) (place : Path) : Path → Except FileFault Path
  | [] => .ok place
  | name :: more =>
      match tree.get? place with
      | some (.directory entries) =>
          if name = "" ∨ name = "." then follow tree links place more
          else if name = ".." then follow tree links place.dropLast more
          else
            match entries.lookup name with
            | none => .error .notFound
            | some (.symlink target) =>
                match links with
                | 0 => .error .tooManyLinks
                | links + 1 =>
                    let (fromRoot, names) := steps target
                    follow tree links (if fromRoot then [] else place) (names ++ more)
            | some _ => follow tree links (place ++ [name]) more
      | some (.locked true fault) => .error fault
      | some _ => .error .notADirectory
      | none => .error .notFound
termination_by names => (links, names.length)

/-- The number of links that one look-up follows. -/
def linkLimit : Nat := 40

/-- The place that a path means. -/
def resolve (tree : FileNode) (path : Path) : Except FileFault Path :=
  tree.follow linkLimit [] path

/-! ## reading and writing -/

/-- What a path means. -/
def find (tree : FileNode) (path : Path) : Except FileFault FileNode := do
  match tree.get? (← tree.resolve path) with
  | some node => .ok node
  | none => .error .notFound

/-- The bytes of a file. -/
def readBytes (tree : FileNode) (path : Path) : Except FileFault ByteArray := do
  match ← tree.find path with
  | .file content => .ok content
  | .locked false fault => .error fault
  | _ => .error .isADirectory

/-- The text of a file. -/
def readText (tree : FileNode) (path : Path) : Except FileFault String := do
  match String.fromUTF8? (← tree.readBytes path) with
  | some text => .ok text
  | none => .error .notUtf8

/-- The entries of a directory. -/
def readDirectory (tree : FileNode) (path : Path) : Except FileFault FileEntries := do
  match ← tree.find path with
  | .directory entries => .ok entries
  | .locked true fault => .error fault
  | _ => .error .notADirectory

/-- Whether a path means a file, which need not be one that can be opened. -/
def isFile (tree : FileNode) (path : Path) : Bool :=
  match tree.find path with
  | .ok (.file _) | .ok (.locked false _) => true
  | _ => false

/-- Write the text of a file; a path that means nothing is left alone. -/
def writeText (tree : FileNode) (path : Path) (text : String) : FileNode :=
  match tree.resolve path with
  | .ok place => insert (.file text.toUTF8) place tree
  | .error _ => tree

end FileNode

end TemplateMigration
