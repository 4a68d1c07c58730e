import TemplateMigration.Settings
import TemplateMigration.Project.FileTree
import TemplateMigration.Project.Ignore

/-!
# TemplateMigration.Project.Discovery

What belongs to a project: its settings file and its templates.  A `Selection` says of a path
whether it is a template and whether it is ignored; `Selection.templates` walks a directory, leaves
out what is ignored with all that is below, and sorts what it finds.  A directory that cannot be
opened ends the walk, unless it is left out.
-/

namespace TemplateMigration

/-! ## templates of a directory -/

/-- Which paths are templates, and which paths are ignored (told whether they are directories). -/
structure Selection where
  isTemplate : Path → Bool
  isIgnored : Path → Bool → Bool

/-- Directories that never hold templates: hidden ones, installed packages and build results.  Only
a name that is text is looked at. -/
def skipsDirectory (name : FileName) : Bool :=
  name.text?.any fun text =>
    text.toList.head? == some '.' || text == "node_modules" || text == "target"

namespace Selection

mutual
/-- The templates at or below a path with the given last name. -/
def collect (s : Selection) (path : Path) (name : FileName) :
    FileNode → Except FileFault (List Path)
  | .directory entries =>
      if skipsDirectory name || s.isIgnored path true then .ok [] else collectAll s path entries
  | .locked true fault =>
      if skipsDirectory name || s.isIgnored path true then .ok [] else .error fault
  | .file _ | .symlink _ | .locked false _ =>
      .ok (if !s.isIgnored path false && s.isTemplate path then [path] else [])

/-- The templates among and below the entries of a directory. -/
def collectAll (s : Selection) (path : Path) :
    List (FileName × FileNode) → Except FileFault (List Path)
  | [] => .ok []
  | (name, node) :: more => do
      let here ← collect s (path ++ [name]) name node
      let others ← collectAll s path more
      return here ++ others
end

/-- The templates of a directory, sorted; paths start at the directory. -/
def templates (s : Selection) (entries : FileEntries) : Except FileFault (List Path) :=
  (s.collectAll [] entries).map (·.mergeSort Path.le)

end Selection

/-! ## templates of a project -/

/-- In globs that select templates `*` and `?` match separators too. -/
def GlobDialect.selecting : GlobDialect := ⟨false, false⟩

/-- The selecting globs; the first malformed one is the failure. -/
def readGlobs (patterns : List String) : Except Failure (List Glob) :=
  patterns.mapM fun pattern =>
    match Glob.parse? .selecting pattern with
    | some glob => .ok glob
    | none => .error (.invalidPattern pattern)

/-- The excluding patterns; the first malformed one is the failure. -/
def readExcludes (patterns : List String) : Except Failure IgnoreList := do
  let read ← patterns.mapM fun pattern =>
    match IgnorePattern.parse? pattern with
    | some p => Except.ok p
    | none => .error (Failure.invalidPattern pattern)
  return ⟨read.reduceOption⟩

/-- The ignore file of a project, empty if there is none. -/
def projectIgnores (tree : FileNode) (root : Path) : IgnoreList :=
  match tree.readBytes (root ++ ([".gitignore"] : Path)) with
  | .ok content => .ofFile content
  | .error _ => .empty

/-- The selection that settings ask for. -/
def Settings.selection (settings : Settings) (tree : FileNode) (root : Path) :
    Except Failure Selection := do
  let globs ← readGlobs settings.includes
  let excludes ← readExcludes settings.excludes
  let ignores := if settings.disableGitignore then .empty else projectIgnores tree root
  return {
    isTemplate := fun path => globs.any (·.isMatch path.bytes)
    isIgnored := fun path isDirectory =>
      ignores.ignores path.bytes isDirectory || excludes.ignores path.bytes isDirectory }

/-- The templates of a project; paths start at its root. -/
def Settings.findTemplates (settings : Settings) (tree : FileNode) (root : Path) :
    Except Failure (List Path) := do
  let selection ← settings.selection tree root
  (tree.readDirectory root >>= selection.templates).mapError .file

/-! ## settings of a project -/

namespace Settings

/-- Where settings are looked for, in this order. -/
def candidates : List Path := [["ngup.toml"], [".ngup.toml"], [".config", "ngup.toml"]]

/-- The settings file of a project; the path starts at the root. -/
def locate? (tree : FileNode) (root : Path) : Option Path :=
  candidates.find? fun path => tree.isFile (root ++ path)

/-- The settings of a project, those of `default` if it has none. -/
def load (tree : FileNode) (root : Path) : Except Failure Settings :=
  match locate? tree root with
  | none => .ok .default
  | some path =>
      match tree.readText (root ++ path) with
      | .ok text => parse text
      | .error fault => .error (.file fault)

end Settings

end TemplateMigration
