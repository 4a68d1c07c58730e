import TemplateMigration.Markup.Forest
import TemplateMigration.Markup.VoidEndTag
import TemplateMigration.Patch
import TemplateMigration.Rule.Apply

/-!
# TemplateMigration.Migration

Migrating a template.  A walk over its forest collects edits of the source and messages
(`Changes`); children come before the attributes of their element.  The edits are then made in
one patch, the end tags of void elements are dropped, and the messages are sorted and placed.
-/

namespace TemplateMigration

/-! ## Changes -/

/-- An edit of the source. -/
inductive SourceEdit where
  /-- Put a text in the place of a range. -/
  | replace (offset length : Nat) (text : String)
  /-- Put a text after whatever else is put at an offset. -/
  | insert (offset : Nat) (text : String)
  deriving DecidableEq, Repr

/-- Make an edit in a patch. -/
def SourceEdit.apply (p : Patch) : SourceEdit → Except Failure Patch
  | replace offset length text => do
      let q ← p.remove offset length
      if text.isEmpty then .ok q else q.insertLeft offset text
  | insert offset text => p.insertRight offset text

/-- Edits of the source and messages about them, each in order. -/
structure Changes where
  edits : List SourceEdit
  messages : List Message
  deriving DecidableEq, Repr

namespace Changes

/-- No changes. -/
def none : Changes := ⟨[], []⟩

/-- Changes one after the other. -/
def append (a b : Changes) : Changes := ⟨a.edits ++ b.edits, a.messages ++ b.messages⟩

instance : Append Changes := ⟨append⟩

/-- The changes of several parts, one after the other. -/
def join (parts : List Changes) : Changes :=
  ⟨parts.flatMap Changes.edits, parts.flatMap Changes.messages⟩

end Changes

/-- An edit inside an expression that starts at an offset of the source. -/
def SourceEdit.ofEdit (start : Nat) (e : Edit) : SourceEdit :=
  .replace (start + e.offset) e.length e.replacement

namespace RuleSet

/-! ## Attributes -/

/-- What becomes of an attribute's value.  A value transform that changes it excludes the
expression transforms, and so does an error. -/
def valueChanges (r : RuleSet) (a : Attribute) : Changes :=
  if !a.hasValue then .none
  else
    let transformed : TextMigration :=
      match r.valueTransform? a.name with
      | some t => t.apply a.value a.valueStart r
      | none => ⟨a.value, []⟩
    if Message.anyError transformed.messages then ⟨[], transformed.messages⟩
    else if transformed.value != a.value then
      ⟨[.replace a.valueStart (byteLength a.value) transformed.value], transformed.messages⟩
    else
      let migrated := r.migrateExpression a.value a.valueStart
      ⟨migrated.edits.map (.ofEdit a.valueStart), transformed.messages ++ migrated.messages⟩

/-- What becomes of an attribute's name. -/
def nameChanges (r : RuleSet) (a : Attribute) : Changes :=
  match r.rename? a.name with
  | none => .none
  | some rule =>
      let length := byteLength a.name
      ⟨[.replace a.start length rule.newName],
        [.info a.start length ("Update property " ++ a.name ++ " to " ++ rule.newName) rule.url]⟩

/-- What becomes of an attribute.  An error about its value keeps its name. -/
def attributeChanges (r : RuleSet) (a : Attribute) : Changes :=
  if r.isUnsupportedAttribute a.name then
    ⟨[], [.error a.start (byteLength a.name) ("Unsupported property " ++ a.name)]⟩
  else
    let value := r.valueChanges a
    if Message.anyError value.messages then value else value ++ r.nameChanges a

/-! ## Elements -/

/-- A form model needs a name: the element's `id`, or one made of its offset. -/
def modelNameChanges (tag : StartTag) : Changes :=
  match tag.attribute? "ng-model", tag.attribute? "name" with
  | some model, none =>
      let name := match tag.attribute? "id" with
        | some id => id.value
        | none => "modelName" ++ toString tag.start
      let property := "name=\"" ++ name ++ "\""
      ⟨[.insert tag.nameStop (" " ++ property)],
        [.info model.start (byteLength model.name)
          ("Add property " ++ property ++ " to use `[(ngModel)]` inside a form")
          (some "https://angular.io/api/forms/NgModel")]⟩
  | _, _ => .none

/-- What becomes of a start tag: its attributes in order, then the name of a form model. -/
def tagChanges (r : RuleSet) (tag : StartTag) : Changes :=
  .join (tag.attributes.map r.attributeChanges) ++ modelNameChanges tag

/-! ## Text -/

/-- Whether two byte ranges, each given by start and end, have a byte in common. -/
def rangesMeet (start stop from' to' : Nat) : Bool := start < to' && from' < stop

/-- What becomes of a run of text: its filters, then the expression transforms wherever no filter
has been replaced. -/
def textChanges (r : RuleSet) (run : TextRun) : Changes :=
  if run.content.toList.all isWhiteSpace then .none
  else
    let migrations := (Filter.findAll (Tokens.read run.content).list).map fun f =>
      (f, r.migrateFilter f (run.start + f.start) (f.stop - f.start))
    let replaced := migrations.filter fun (_, migrated) => migrated.replacement.isSome
    let filters : Changes :=
      ⟨migrations.filterMap fun (f, migrated) =>
          migrated.replacement.map (.replace (run.start + f.start) (f.stop - f.start)),
        migrations.flatMap fun (_, migrated) => migrated.messages⟩
    let migrated := r.migrateExpression run.content run.start
    let kept := migrated.edits.filter fun e =>
      !replaced.any fun (f, _) => rangesMeet e.offset (e.offset + e.length) f.start f.stop
    filters ++ ⟨kept.map (.ofEdit run.start), migrated.messages⟩

/-! ## Forests -/

mutual

/-- What becomes of a node: for an element, its children first. -/
def nodeChanges (r : RuleSet) : Node → Changes
  | .text run => r.textChanges run
  | .element tag children => r.forestChanges children ++ r.tagChanges tag

/-- What becomes of the nodes of a forest, in order. -/
def forestChanges (r : RuleSet) : List Node → Changes
  | [] => .none
  | n :: ns => r.nodeChanges n ++ r.forestChanges ns

end

end RuleSet

/-! ## Migrations -/

/-- A migrated template. -/
structure Migration where
  source : String
  text : String
  /-- Errors first, then the rest, each in the order of the walk. -/
  diagnostics : List Diagnostic
  deriving DecidableEq, Repr

namespace Migration

/-- Whether something could not be migrated. -/
def hasErrors (m : Migration) : Bool := m.diagnostics.any (·.level == .error)

/-- Whether the text differs from the source. -/
def hasChanges (m : Migration) : Bool := m.text != m.source

/-- Whether nothing was migrated and nothing reported. -/
def isUnchanged (m : Migration) : Bool := !m.hasChanges && m.diagnostics.isEmpty

/-- Make changes of a source text. -/
def ofChanges (source : String) (changes : Changes) : Except Failure Migration := do
  let patch ← changes.edits.foldlM SourceEdit.apply (Patch.ofText source)
  return ⟨source, VoidEndTag.strip patch.render,
    (Message.errorsFirst changes.messages).map (·.place source)⟩

/-- Migrate a source text whose forest is given. -/
def ofForest (rules : RuleSet) (source : String) (forest : List Node) : Except Failure Migration :=
  ofChanges source (rules.forestChanges forest)

/-- Migrate a template. -/
def ofTemplate (rules : RuleSet) (source : String) : Except Failure Migration :=
  ofForest rules source (Node.parse source)

end Migration

end TemplateMigration
