import TemplateMigration.Project.Discovery
import TemplateMigration.Session

/-!
# TemplateMigration.Project.Report

The migrations of all templates of a project.  `reportProject` only reads: it loads the settings,
finds the templates and migrates them in memory, and the first failure ends it.
-/

namespace TemplateMigration

/-- Why there is no report on a project. -/
inductive ProjectFault where
  | failure (cause : Failure)
  /-- A template could not be read. -/
  | unreadable (fault : FileFault)
  deriving DecidableEq, Repr

/-- A template, by its path from the root, and its migration. -/
structure TemplateReport where
  path : Path
  migration : Migration
  deriving DecidableEq, Repr

namespace TemplateReport

/-- Whether a template has to change, or has something in it that has to be changed by hand. -/
def failsCheck (r : TemplateReport) : Bool := r.migration.hasChanges || r.migration.hasErrors

end TemplateReport

/-- Migrate templates in order, in one session. -/
def reportAll (tree : FileNode) (root : Path) (session : Session) :
    List Path → Except ProjectFault (List TemplateReport)
  | [] => .ok []
  | path :: more =>
      match tree.readText (root ++ path) with
      | .error fault => .error (.unreadable fault)
      | .ok text =>
          let step := session.migrate text
          match step.1 with
          | .error cause => .error (.failure cause)
          | .ok migration => (reportAll tree root step.2 more).map (⟨path, migration⟩ :: ·)

/-- What a project asks for: its rules and its templates. -/
def openProject (tree : FileNode) (root : Path) : Except Failure (RuleSet × List Path) := do
  let settings ← Settings.load tree root
  let rules ← RuleSet.ofSettings settings.rules
  return (rules, ← settings.findTemplates tree root)

/-- Migrate all templates of a project. -/
def reportProject (tree : FileNode) (root : Path) : Except ProjectFault (List TemplateReport) :=
  match openProject tree root with
  | .error cause => .error (.failure cause)
  | .ok (rules, paths) => reportAll tree root (.start rules) paths

end TemplateMigration
