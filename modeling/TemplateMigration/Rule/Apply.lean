import TemplateMigration.Expression.Alias
import TemplateMigration.Expression.Repeat
import TemplateMigration.Rule.Pipe
import TemplateMigration.Rule.RuleSet

/-!
# TemplateMigration.Rule.Apply

Rules applied to filters, expressions and attribute values.  Nothing is edited here: each
application gives the replacement and the messages about it, and the caller decides.
-/

namespace TemplateMigration

/-! ## Filters -/

/-- What the rules make of one filter: a replacement, if it changes, and messages. -/
structure FilterMigration where
  replacement : Option String
  messages : List Message
  deriving DecidableEq, Repr

/-- A text migrated as a whole, with messages. -/
structure TextMigration where
  value : String
  messages : List Message
  deriving DecidableEq, Repr

namespace RuleSet

/-- Apply the pipe rules to one filter, with messages about the given range.  A filter without
counterpart is an error even if a transform is registered for it. -/
def migrateFilter (r : RuleSet) (f : Filter) (position length : Nat) : FilterMigration :=
  let name := f.name.text
  if r.isUnsupportedPipe name then
    ⟨none, [.error position length ("Unsupported filter(pipe) " ++ name)]⟩
  else
    match r.pipeTransform? name with
    | none => ⟨none, []⟩
    | some transform =>
        let pipe := transform.apply f
        if pipe.value = f.chain then ⟨none, []⟩
        else
          ⟨some pipe.value, [.info position length
            ("Update filter " ++ f.chain ++ " to pipe " ++ pipe.value) (some pipe.url)]⟩

/-- Migrate the filters of an expression, all messages being about the given range. -/
def migrateFilterChain (r : RuleSet) (expression : String) (position length : Nat) :
    TextMigration :=
  let migrations := (Filter.findAll (Tokens.read expression).list).map fun f =>
    (f, r.migrateFilter f position length)
  let edits := migrations.filterMap fun (f, migrated) =>
    migrated.replacement.map fun text => Edit.mk f.start (f.stop - f.start) text
  ⟨(Edit.applyBackward? edits expression).getD expression,
    migrations.flatMap fun (_, migrated) => migrated.messages⟩

end RuleSet

/-! ## Expressions -/

/-- Edits inside an expression, with messages. -/
structure ExpressionMigration where
  edits : List Edit
  messages : List Message
  deriving DecidableEq, Repr

/-- Apply an expression transform to an expression that starts at an offset of the source. -/
def ExpressionTransform.apply (t : ExpressionTransform) (expression : String) (start : Nat) :
    ExpressionMigration :=
  match t with
  | stripAlias =>
      let offsets := Alias.offsets expression
      ⟨offsets.map Alias.edit, offsets.map fun offset => Alias.message (start + offset)⟩

/-- Apply the first expression transform that changes an expression. -/
def RuleSet.migrateExpression (r : RuleSet) (expression : String) (start : Nat) :
    ExpressionMigration :=
  ((r.expressionTransforms.map (·.apply expression start)).find?
    fun migrated => Edit.change migrated.edits expression).getD ⟨[], []⟩

/-! ## Attribute values -/

/-- The documentation of tracking in repeated elements. -/
def trackByUrl : String := "https://angular.io/api/common/NgForOf#ngForTrackBy"

/-- What is wrong with the form of a repeat expression. -/
def repeatFaults (e : RepeatExpression) (item : RepeatItem) (start length : Nat) : List Message :=
  let fault (text : String) (url : Option String) : Message := ⟨start, length, .error, text, url⟩
  (if e.name.any (!isAliasName ·) then [fault "Unexpected expression" none] else []) ++
  (if e.trackBy.isSome then
    [fault "Unsupported expression `track by` use `trackBy` instead" (some trackByUrl)] else []) ++
  (match item with
    | .keyValue _ _ =>
        [fault "Unsupported expression `(key, value) in items`" (some RuleSet.repeatUrl)]
    | .single _ => []) ++
  (if e.name.isSome then
    [fault "Unsupported expression `item in items as named`" (some RuleSet.repeatUrl)] else [])

/-- The name under which a member of the collection is known. -/
def RepeatItem.valueName : RepeatItem → List Char
  | single name => name
  | keyValue _ value => value

/-- Migrate a repeat expression.  With an error of any kind the value stays. -/
def RuleSet.repeatToFor (r : RuleSet) (value : String) (start : Nat) : TextMigration :=
  let length := byteLength value
  let unexpected : TextMigration := ⟨value, [.error start length "Unexpected expression"]⟩
  match RepeatExpression.parse? value with
  | none => unexpected
  | some e =>
      match RepeatItem.parse? e.item with
      | none => unexpected
      | some item =>
          let collection := r.migrateFilterChain (String.ofList e.collection) start length
          let messages := repeatFaults e item start length ++ collection.messages
          if Message.anyError messages then ⟨value, messages⟩
          else
            ⟨"let " ++ String.ofList item.valueName ++ " of " ++ collection.value,
              .info start length "Update expression `item in items` to `let item of items`"
                (some repeatUrl) :: messages⟩

/-- Apply a value transform to a value that starts at an offset of the source. -/
def ValueTransform.apply (t : ValueTransform) (value : String) (start : Nat) (r : RuleSet) :
    TextMigration :=
  match t with
  | hiddenNegation =>
      ⟨"!(" ++ value ++ ")", [.info start (byteLength value)
        "Update expression `ng-show=\"expression\"` to `[hidden]=\"!(expression)\"`"
        (some "https://angular.io/guide/ajs-quick-reference")]⟩
  | repeatToFor => r.repeatToFor value start

end TemplateMigration
