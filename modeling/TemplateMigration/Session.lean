import TemplateMigration.Migration

/-!
# TemplateMigration.Session

Migrating several templates with one rule set.  The session remembers its last result, and gives
it again when the same template comes twice in a row.
-/

namespace TemplateMigration

/-- Rules and the last result. -/
structure Session where
  rules : RuleSet
  last : Option Migration
  deriving DecidableEq, Repr

namespace Session

/-- A session that has migrated nothing. -/
def start (rules : RuleSet) : Session := ⟨rules, none⟩

/-- The remembered result for a template. -/
def remembered? (s : Session) (source : String) : Option Migration :=
  s.last.filter (·.source == source)

/-- Remember a result; a failure is not remembered and forgets what was. -/
def remember (s : Session) (result : Except Failure Migration) : Session :=
  { s with last := result.toOption }

/-- Migrate a template. -/
def migrate (s : Session) (source : String) : Except Failure Migration × Session :=
  let result := match s.remembered? source with
    | some known => .ok known
    | none => Migration.ofTemplate s.rules source
  (result, s.remember result)

/-- Migrate a source text whose forest is given. -/
def migrateForest (s : Session) (source : String) (forest : List Node) :
    Except Failure Migration × Session :=
  let result := Migration.ofForest s.rules source forest
  (result, s.remember result)

end Session

end TemplateMigration
