import TemplateMigration.Command.Outcome

/-!
# TemplateMigration.Main

The program.  It loads the project into a `FileNode`, answers the request there, and then writes
and prints what the outcome says.
-/

namespace TemplateMigration

/-- A link to nowhere: no file system has this name. -/
def danglingLink : FileNode := .link "\x00"

/-- The names of an absolute path. -/
def namesOf (path : String) : Path := (FileNode.steps path).2.filter (· != "")

/-- The fault that an error stands for, as closely as the faults tell errors apart. -/
def FileFault.ofError : IO.Error → FileFault
  | .inappropriateType .. => .notADirectory
  | _ => .notFound

/-- What is at a path that is neither a directory nor a link. -/
def loadFile (path : String) : IO (Path × FileNode) := do
  match ← (IO.FS.readBinFile path).toBaseIO with
  | .ok content => return (namesOf path, .file content)
  | .error e => return (namesOf path, .locked false (.ofError e))

/-- A link, with the file that it leads to, or with the files of the directory that it leads to. -/
def loadLink (path : String) : IO (List (Path × FileNode)) := do
  try
    let target ← IO.FS.realPath path
    let files ← if ← target.isDir then
        let entries ← target.readDir
        let plain ← entries.toList.filterM fun e =>
          return (← e.path.symlinkMetadata).type == .file
        let files ← plain.mapM (loadFile ·.path.toString)
        pure ((namesOf target.toString, .directory []) :: files)
      else pure [← loadFile target.toString]
    return files ++ [(namesOf path, .link target.toString)]
  catch _ => return [(namesOf path, danglingLink)]

/-- Everything below a directory, except inside of directories that hold neither templates nor
settings. -/
partial def loadDirectory (path : String) : IO (List (Path × FileNode)) := do
  match ← (IO.FS.realPath path >>= (·.readDir)).toBaseIO with
  | .error e => return [(namesOf path, .locked true (.ofError e))]
  | .ok entries =>
      let below ← entries.toList.mapM fun e => do
        let path := e.path.toString
        match (← e.path.symlinkMetadata).type with
        | .dir =>
            if skipsDirectory e.fileName && e.fileName != ".config" then
              return [(namesOf path, .directory [])]
            else loadDirectory path
        | .symlink => loadLink path
        | _ => return [← loadFile path]
      return (namesOf path, .directory []) :: below.flatten

/-- A project and its root, without links on the way to it.  A root that does not exist is left
out. -/
def loadProject (path : String) : IO (FileNode × Path) := do
  let empty : FileNode := .directory []
  try
    let root ← IO.FS.realPath path
    let places ← if ← root.isDir then loadDirectory root.toString
      else pure [(namesOf root.toString, .file .empty)]
    let tree := places.foldl (fun tree (path, node) =>
      match node with
      | .directory _ => tree.makeDirectory path
      | node => node.insert path tree) empty
    return (tree, namesOf root.toString)
  catch _ => return (empty, [path])

/-- Write the files of an outcome. -/
def Outcome.write (o : Outcome) : IO Unit :=
  o.writes.forM fun (path, text) => IO.FS.writeFile ("/" ++ path.render) text

/-- Answer a request. -/
def Request.answer (r : Request) : IO Outcome := do
  let allowsColor := (← IO.getEnv "NO_COLOR").isNone
  match r with
  | .run i =>
      let (tree, root) ← if i.command.isSome then loadProject (i.path.getD ".")
        else pure (.directory [], [])
      return i.outcome tree root allowsColor
  | r => return r.outcome (.directory []) [] allowsColor

end TemplateMigration

open TemplateMigration in
/-- Run the program; the result is its exit code. -/
def main (args : List String) : IO UInt32 := do
  let outcome ← (Request.ofArgs args).answer
  try
    outcome.write
  catch e =>
    IO.eprintln ("error: " ++ toString e)
    return 2
  IO.print outcome.stdout
  IO.eprint outcome.stderr
  return outcome.code.toUInt32
