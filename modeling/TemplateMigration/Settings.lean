import TemplateMigration.Rule.RuleSet
import TemplateMigration.Toml.Document

/-!
# TemplateMigration.Settings

Settings of a project: which files are templates, which are left alone, and the rules.  They are
read from TOML.  Unknown keys are ignored; a key that is known must have a value of its type.  A
group of settings is a table of its fields, or an array of their values in order.
-/

namespace TemplateMigration

/-- The settings of a project. -/
structure Settings where
  rules : RuleSettings
  /-- Globs that select templates. -/
  includes : List String
  /-- Ignore patterns of files that are never templates. -/
  excludes : List String
  /-- Whether the project's own ignore file is left unread. -/
  disableGitignore : Bool
  deriving DecidableEq, Repr

namespace Settings

/-- The globs used when none are given. -/
def defaultIncludes : List String := ["**/*.html"]

/-- The settings of a project that has none. -/
def default : Settings := ⟨.default, defaultIncludes, [], false⟩

/-! ## Reading values -/

open Toml (Value)

/-- A text. -/
def string? : Value → Option String
  | .string s => some s
  | _ => none

/-- A truth value. -/
def boolean? : Value → Option Bool
  | .boolean b => some b
  | _ => none

/-- The items of an array. -/
def items? : Value → Option (List Value)
  | .array items => some items
  | .tables elements => some (elements.map (.table .opened))
  | _ => none

/-- A list of texts. -/
def strings? (v : Value) : Option (List String) := (items? v).bind (·.mapM string?)

/-- A table of texts. -/
def stringTable? : Value → Option (Table String)
  | .table _ entries =>
      (entries.mapM fun e => (string? e.2).map fun s => (e.1, s)).map .ofList
  | _ => none

/-- The values of the named fields of a group, where they are given. -/
def fields? (names : List String) : Value → Option (List (Option Value))
  | .table _ entries => some (names.map (entries.lookup ·))
  | v => (items? v).map fun items => names.mapIdx fun i _ => items[i]?

/-- A field that may be left out. -/
def optional {α : Type} (read : Value → Option α) (otherwise : α) : Option Value → Option α
  | none => some otherwise
  | some v => read v

/-! ## Reading settings -/

/-- A rename; only its address may be left out. -/
def rename? (v : Value) : Option Rename :=
  match fields? ["from", "to", "url"] v with
  | some [some oldName, some newName, url] => do
      return ⟨← string? oldName, ← string? newName,
        ← optional (fun v => (string? v).map some) none url⟩
  | _ => none

/-- The rules. -/
def rules? (v : Value) : Option RuleSettings :=
  let names := ["use_defaults", "rename", "unsupported_attributes", "unsupported_pipes",
    "value_transforms", "pipe_transforms", "expression_transforms"]
  match fields? names v with
  | some [useDefaults, renames, attributes, pipes, values, filters, expressions] => do
      return {
        useDefaults := ← optional boolean? true useDefaults
        renames := ← optional (fun v => (items? v).bind (·.mapM rename?)) [] renames
        unsupportedAttributes := ← optional strings? [] attributes
        unsupportedPipes := ← optional strings? [] pipes
        valueTransforms := ← optional stringTable? .empty values
        pipeTransforms := ← optional stringTable? .empty filters
        expressionTransforms := ← optional strings? [] expressions }
  | _ => none

/-- A group with a list of patterns. -/
def patterns? (otherwise : List String) (v : Value) : Option (List String) :=
  match fields? ["patterns"] v with
  | some [patterns] => optional strings? otherwise patterns
  | _ => none

/-- The settings in the root table of a document. -/
def ofEntries? (entries : Toml.Entries) : Option Settings := do
  return {
    rules := ← optional rules? .default (entries.lookup "rules")
    includes := ← optional (patterns? defaultIncludes) defaultIncludes (entries.lookup "include")
    excludes := ← optional (patterns? []) [] (entries.lookup "exclude")
    disableGitignore := ← optional boolean? false (entries.lookup "disable_gitignore") }

/-- Read settings. -/
def parse (text : String) : Except Failure Settings :=
  match (Toml.parse? text).bind ofEntries? with
  | some settings => .ok settings
  | none => .error .settings

end Settings

end TemplateMigration
