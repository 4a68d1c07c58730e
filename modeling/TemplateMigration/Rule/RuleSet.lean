import TemplateMigration.Rule.Table
import TemplateMigration.Rule.Transform

/-!
# TemplateMigration.Rule.RuleSet

Rule sets: which attributes are renamed, which names have no counterpart, and which transforms
apply.  `RuleSet.default` is the built-in catalogue; `RuleSet.ofSettings` lays configured rules
over it, or over nothing.
-/

namespace TemplateMigration

/-- Rename an attribute and leave its value alone. -/
structure Rename where
  oldName : String
  newName : String
  url : Option String
  deriving DecidableEq, Repr

/-- The rules of a migration. -/
structure RuleSet where
  valueTransforms : Table ValueTransform
  pipeTransforms : Table PipeTransform
  unsupportedAttributes : NameSet
  unsupportedPipes : NameSet
  /-- Of renames for one name the first counts. -/
  renames : List Rename
  /-- The first transform that changes an expression counts. -/
  expressionTransforms : List ExpressionTransform
  deriving DecidableEq, Repr

/-- Rules as settings describe them, with transforms given by name. -/
structure RuleSettings where
  useDefaults : Bool
  renames : List Rename
  unsupportedAttributes : List String
  unsupportedPipes : List String
  valueTransforms : Table String
  pipeTransforms : Table String
  expressionTransforms : List String
  deriving DecidableEq, Repr

/-- Settings that add nothing to the built-in rules. -/
def RuleSettings.default : RuleSettings := ⟨true, [], [], [], .empty, .empty, []⟩

namespace RuleSet

/-! ## The built-in catalogue -/

/-- The documentation of form models. -/
def modelUrl : String := "https://angular.io/api/forms/NgModel#properties"

/-- The documentation of template syntax. -/
def syntaxUrl : String := "https://angular.io/guide/template-syntax"

/-- The documentation of user input. -/
def inputUrl : String := "https://angular.io/guide/user-input"

/-- The documentation of repeated elements. -/
def repeatUrl : String := "https://angular.io/api/common/NgForOf"

/-- The built-in renames. -/
def defaultRenames : List Rename :=
  [⟨"ng-model", "[(ngModel)]", some modelUrl⟩,
   ⟨"ng-change", "(ngModelChange)", some modelUrl⟩,
   ⟨"ng-submit", "(ngSubmit)",
     some "https://angular.io/api/forms/NgModel#using-ngmodel-within-a-form"⟩,
   ⟨"ng-disabled", "[disabled]", some modelUrl⟩,
   ⟨"ng-class", "[ngClass]", some "https://angular.io/api/common/NgClass"⟩,
   ⟨"ng-style", "[ngStyle]", some "https://angular.io/api/common/NgStyle"⟩,
   ⟨"ng-bind-html", "[innerHTML]", some syntaxUrl⟩,
   ⟨"ng-href", "href", some syntaxUrl⟩,
   ⟨"ng-src", "src", some syntaxUrl⟩,
   ⟨"ng-srcset", "srcset", some syntaxUrl⟩,
   ⟨"ng-show", "[hidden]", some syntaxUrl⟩,
   ⟨"ng-if", "*ngIf", some "https://angular.io/api/common/NgIf"⟩,
   ⟨"ng-repeat", "*ngFor", some repeatUrl⟩,
   ⟨"ng-keydown", "(keydown)", some inputUrl⟩,
   ⟨"ng-keypress", "(keypress)", some inputUrl⟩,
   ⟨"ng-keyup", "(keyup)", some inputUrl⟩,
   ⟨"ng-click", "(click)", some inputUrl⟩,
   ⟨"ng-dblclick", "(dblclick)", some inputUrl⟩,
   ⟨"ng-mousedown", "(mousedown)", some inputUrl⟩,
   ⟨"ng-mouseup", "(mouseup)", some inputUrl⟩,
   ⟨"ng-mouseenter", "(mouseenter)", some inputUrl⟩,
   ⟨"ng-mouseleave", "(mouseleave)", some inputUrl⟩,
   ⟨"ng-mousemove", "(mousemove)", some inputUrl⟩,
   ⟨"ng-mouseover", "(mouseover)", some inputUrl⟩,
   ⟨"ng-focus", "(focus)", some inputUrl⟩,
   ⟨"ng-blur", "(blur)", some inputUrl⟩,
   ⟨"ng-cut", "(cut)", some inputUrl⟩,
   ⟨"ng-copy", "(copy)", some inputUrl⟩,
   ⟨"ng-paste", "(paste)", some inputUrl⟩,
   ⟨"ng-switch", "[ngSwitch]", some "https://angular.io/api/common/NgSwitch"⟩,
   ⟨"ng-switch-when", "*ngSwitchCase", some "https://angular.io/api/common/NgSwitchCase"⟩,
   ⟨"ng-switch-default", "*ngSwitchDefault", some "https://angular.io/api/common/NgSwitchDefault"⟩]

/-- The built-in rules. -/
def default : RuleSet where
  valueTransforms := .ofList [("ng-show", .hiddenNegation), ("ng-repeat", .repeatToFor)]
  pipeTransforms := .ofList [("limitTo", .limitToSlice), ("currency", .currency)]
  unsupportedAttributes :=
    .ofList ["ng-app", "ng-controller", "ng-init", "ng-include", "ng-transclude"]
  unsupportedPipes := .ofList ["filter", "orderBy"]
  renames := defaultRenames
  expressionTransforms := [.stripAlias]

/-- No rules at all. -/
def empty : RuleSet := ⟨.empty, .empty, .empty, .empty, [], []⟩

/-! ## Look-up -/

/-- The rename of an attribute. -/
def rename? (r : RuleSet) (name : String) : Option Rename :=
  r.renames.find? (·.oldName == name)

/-- The transform of an attribute's value. -/
def valueTransform? (r : RuleSet) (name : String) : Option ValueTransform :=
  r.valueTransforms.find? name

/-- The transform of a filter. -/
def pipeTransform? (r : RuleSet) (filter : String) : Option PipeTransform :=
  r.pipeTransforms.find? filter

/-- Whether an attribute has no counterpart. -/
def isUnsupportedAttribute (r : RuleSet) (name : String) : Bool :=
  r.unsupportedAttributes.contains name

/-- Whether a filter has no counterpart. -/
def isUnsupportedPipe (r : RuleSet) (filter : String) : Bool := r.unsupportedPipes.contains filter

/-! ## Configured rules -/

/-- Add transforms given by name to a table, in order; the first unknown name is the failure. -/
def addTransforms {α : Type} (ofName : String → Except Failure α) (base : Table α) :
    List (String × String) → Except Failure (Table α)
  | [] => .ok base
  | (key, name) :: rest => do
      let transform ← ofName name
      addTransforms ofName (base.insert key transform) rest

/-- Lay configured rules over the built-in ones, or over none.  Unknown transforms are looked for
among the value transforms, then the pipe transforms, then the expression transforms. -/
def ofSettings (s : RuleSettings) : Except Failure RuleSet := do
  let base := if s.useDefaults then default else empty
  let valueTransforms ←
    addTransforms ValueTransform.ofName base.valueTransforms s.valueTransforms.entries
  let pipeTransforms ←
    addTransforms PipeTransform.ofName base.pipeTransforms s.pipeTransforms.entries
  let expressionTransforms ←
    if s.expressionTransforms.isEmpty then .ok base.expressionTransforms
    else s.expressionTransforms.mapM ExpressionTransform.ofName
  return {
    valueTransforms, pipeTransforms, expressionTransforms
    unsupportedAttributes := base.unsupportedAttributes.insertAll s.unsupportedAttributes
    unsupportedPipes := base.unsupportedPipes.insertAll s.unsupportedPipes
    renames := s.renames ++ base.renames }

end RuleSet

end TemplateMigration
