import TemplateMigration.Command.Arguments
import TemplateMigration.Command.JsonText
import TemplateMigration.Command.Style
import TemplateMigration.Project.Report
import TemplateMigration.Text.LineDiff

/-!
# TemplateMigration.Command.Outcome

What the program does on a file system, as a value: its exit code, its output and the files that
it writes.  The exit code is 0 when all is well, 1 when a check finds something, and 2 when the
command line or the project is faulty; nothing is written in the last two cases.
-/

namespace TemplateMigration

/-- What a run does. -/
structure Outcome where
  code : Nat
  stdout : String
  stderr : String
  /-- Files to write, in order, with their new texts. -/
  writes : List (Path × String)
  deriving DecidableEq, Repr

namespace Outcome

/-- The file system after a run. -/
def apply (o : Outcome) (tree : FileNode) : FileNode :=
  o.writes.foldl (fun tree write => tree.writeText write.1 write.2) tree

/-- A run that only prints. -/
def success (stdout : String) : Outcome := ⟨0, stdout, "", []⟩

end Outcome

/-- The lines of an output. -/
def unlines (lines : List String) : String := String.join (lines.map (· ++ "\n"))

/-! ## diagnostics -/

/-- A diagnostic as a line, and a second one for its address. -/
def Diagnostic.lines (d : Diagnostic) (color : Bool) (path : Path) : List String :=
  let style : Style := match d.level with
    | .error => .red
    | .info => .yellow
  (path.render ++ ":" ++ d.position.render ++ " " ++ style.paint color d.level.render ++ " "
    ++ d.message) :: (d.url.map ("  see " ++ ·)).toList

/-- A diagnostic as JSON. -/
def Diagnostic.toJson (d : Diagnostic) : JsonText :=
  .object ([("length", .number d.length), ("level", .string d.level.title),
    ("message", .string d.message),
    ("position", .object [("character", .number d.position.character),
      ("line", .number d.position.line)])]
    ++ (d.url.map fun url => ("url", JsonText.string url)).toList)

/-! ## differences -/

/-- Text with an end of line. -/
def endLine (line : String) : String :=
  if line.toList.getLast?.any fun c => c == '\n' || c == '\r' then line else line ++ "\n"

/-- A changed line with a mark in front. -/
def LineChange.render (color : Bool) (c : LineChange) : String :=
  match c.kind with
  | .keep => "   " ++ endLine c.line
  | .delete => "  " ++ Style.red.paint color ("-" ++ endLine c.line)
  | .insert => "  " ++ Style.green.paint color ("+" ++ endLine c.line)

/-- The difference that a migration makes. -/
def Migration.renderDiff (m : Migration) (color : Bool) : String :=
  String.join ((LineChange.between m.source m.text).map (·.render color))

/-! ## check -/

namespace TemplateReport

/-- A template that fails a check: a blank line, its diagnostics, and its difference if wanted. -/
def renderFailing (r : TemplateReport) (color diff : Bool) : String :=
  "\n" ++ unlines (r.migration.diagnostics.flatMap (·.lines color r.path))
    ++ (if diff && r.migration.hasChanges then r.migration.renderDiff color else "")

/-- A template as JSON. -/
def toJson (r : TemplateReport) : JsonText :=
  .object [("changed", .boolean r.migration.hasChanges),
    ("diagnostics", .array (r.migration.diagnostics.map (·.toJson))),
    ("file", .string r.path.render)]

end TemplateReport

/-- What failing templates need, in one line. -/
def checkSummary (failing : List TemplateReport) : String :=
  let changed := failing.countP (·.migration.hasChanges)
  let errors := (failing.flatMap (·.migration.diagnostics)).countP (·.level == .error)
  ", ".intercalate
    ((if changed > 0 then [toString changed ++ " template(s) would change"] else [])
      ++ (if errors > 0 then [toString errors ++ " construct(s) need manual migration"] else []))

/-- A check as JSON: all templates about which there is something to say. -/
def checkJson (reports : List TemplateReport) : JsonText :=
  .object [("ok", .boolean (!reports.any (·.failsCheck))),
    ("templates", .array ((reports.filter (!·.migration.isUnchanged)).map (·.toJson)))]

/-- Report what would change. -/
def checkOutcome (reports : List TemplateReport) (color diff : Bool) (format : Format) : Outcome :=
  let failing := reports.filter (·.failsCheck)
  let code := if failing.isEmpty then 0 else 1
  match format with
  | .json => ⟨code, unlines [(checkJson reports).render], "", []⟩
  | .text =>
      if failing.isEmpty then
        .success (unlines
          ["Check passed: " ++ toString reports.length ++ " template(s) need no changes."])
      else
        ⟨code, "", unlines [Style.bold.paint color "Check failed."]
          ++ String.join (failing.map (·.renderFailing color diff))
          ++ unlines ["", checkSummary failing], []⟩

/-! ## update -/

/-- Change templates in place, or only list those that would change. -/
def updateOutcome (root : Path) (reports : List TemplateReport) (color verbose dryRun : Bool) :
    Outcome :=
  let errors := reports.flatMap fun r =>
    (r.migration.diagnostics.filter (·.level == .error)).flatMap (·.lines color r.path)
  let changed := reports.filter (·.migration.hasChanges)
  let count := toString changed.length
  let listing := changed.map ("  " ++ ·.path.render)
  let stdout :=
    if changed.isEmpty then ["All templates are already migrated."]
    else if dryRun then ("Dry run: would update " ++ count ++ " template(s):") :: listing
    else ("Updated " ++ count ++ " template(s).") :: (if verbose then listing else [])
  let writes := if dryRun then [] else changed.map fun r => (root ++ r.path, r.migration.text)
  ⟨0, unlines stdout, unlines errors, writes⟩

/-! ## failures -/

/-- Report on a fault: a failure by its code, its wording and its advice; a template that cannot be
read by the wording alone. -/
def ProjectFault.outcome (color : Bool) : ProjectFault → Outcome
  | .failure cause =>
      let help := cause.help.map ("  help: " ++ ·)
      ⟨2, "", unlines ([Style.alarm.paint color cause.code, "", "  x " ++ cause.message]
        ++ help.toList), []⟩
  | .unreadable fault =>
      ⟨2, "", unlines [Style.red.paint color "error:" ++ " " ++ fault.message], []⟩

/-- Report on a faulty command line. -/
def UsageError.outcome (e : UsageError) : Outcome :=
  ⟨2, "", unlines ["error: " ++ e.message, "", "For more information, try '--help'."], []⟩

/-! ## runs -/

namespace Command

/-- Run a command on the project at a root. -/
def outcome (command : Command) (tree : FileNode) (root : Path) (color verbose : Bool) : Outcome :=
  match reportProject tree root with
  | .error fault => fault.outcome color
  | .ok reports =>
      match command with
      | .check diff format => checkOutcome reports color diff format
      | .update dryRun => updateOutcome root reports color verbose dryRun

end Command

namespace Invocation

/-- Run an invocation on the project at a root; `allowsColor` is what the environment says. -/
def outcome (i : Invocation) (tree : FileNode) (root : Path) (allowsColor : Bool) : Outcome :=
  match i.command with
  | none => ⟨1, "", unlines ["No subcommand specified. Run `ngup --help` for usage."], []⟩
  | some command => command.outcome tree root (allowsColor && !i.noColor) i.verbose

/-- The root of the project, from the working directory. -/
def root (i : Invocation) (workingDirectory : Path) : Path :=
  match i.path.map fun path => FileNode.steps path with
  | none => workingDirectory
  | some (fromRoot, names) => if fromRoot then names else workingDirectory ++ names

end Invocation

/-- The name and version of the program. -/
def versionText : String := "ngup_cli 0.3.0"

/-- How the program is used. -/
def helpText : List String :=
  ["Migrate AngularJS templates to Angular template syntax.",
   "",
   "Usage: ngup [OPTIONS] [COMMAND]",
   "",
   "Commands:",
   "  check   Report the rewrites and errors for every template without writing",
   "  update  Rewrite templates in place",
   "  help    Print this message or the help of the given subcommand(s)",
   "",
   "Options:",
   "  -p, --path <PATH>      Path to the project root directory",
   "  -v, --verbose          Enable verbose output",
   "      --no-color         Disable colored output",
   "      --diff             check: show a diff for each template that would change",
   "      --format <FORMAT>  check: output format, text or json",
   "      --dry-run          update: preview changes without writing files",
   "  -h, --help             Print help",
   "  -V, --version          Print version"]

namespace Request

/-- Answer a request in a working directory. -/
def outcome (r : Request) (tree : FileNode) (workingDirectory : Path) (allowsColor : Bool) :
    Outcome :=
  match r with
  | .run i => i.outcome tree (i.root workingDirectory) allowsColor
  | .showHelp => .success (unlines helpText)
  | .showVersion => .success (unlines [versionText])
  | .refuse fault => fault.outcome

end Request

end TemplateMigration
