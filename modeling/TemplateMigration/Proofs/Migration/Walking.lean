import TemplateMigration.Proofs.Migration.Reported
import TemplateMigration.Proofs.Text.LineIndex

/-!
# TemplateMigration.Proofs.Migration.Walking

The walk over a forest, step by step.

A walk carries a patch and a list of messages, and every step changes both (`Walker`).  An attribute
is looked at in several steps: its value may be replaced, then its expressions edited, and its
messages are kept aside until it is known whether one of them is an error.  A step that fails ends
the walk.

What a step does is independent of what was done before it: it makes certain edits and adds certain
messages (`Walker.Performs`).  Such steps compose (`Performs.bind`), so the walk over a forest makes
the changes of the forest (`performs_visitForest`), and its messages are those of the single
occurrences in postorder (`messages_forestChanges`).  Sorting them by level keeps the order inside
each level (`Message.mergeSort_eq_errorsFirst`).
-/

namespace TemplateMigration

/-! ## Occurrences in postorder -/

/-- A place of a template that is looked at on its own. -/
inductive Occurrence where
  | text (run : TextRun)
  | attr (a : Attribute)
  /-- The name that an element with a form model may need. -/
  | modelName (tag : StartTag)
  deriving DecidableEq, Repr

mutual

/-- The occurrences of a node: for an element those of its children, its attributes in order, and
its name as a form model. -/
def Node.occurrencesOf : Node → List Occurrence
  | .text run => [.text run]
  | .element tag children =>
      Node.occurrences children ++ tag.attributes.map .attr ++ [.modelName tag]

/-- The occurrences of a forest. -/
def Node.occurrences : List Node → List Occurrence
  | [] => []
  | n :: ns => n.occurrencesOf ++ Node.occurrences ns

end

theorem Changes.join_append (xs ys : List Changes) : join (xs ++ ys) = join xs ++ join ys := by
  simp only [join, List.flatMap_append]
  rfl

namespace RuleSet

/-- What becomes of an occurrence. -/
def changesAt (r : RuleSet) : Occurrence → Changes
  | .text run => r.textChanges run
  | .attr a => r.attributeChanges a
  | .modelName tag => modelNameChanges tag

/-- What is said about an occurrence. -/
def messagesAt (r : RuleSet) (o : Occurrence) : List Message := (r.changesAt o).messages

/-- A start tag is visited attribute by attribute, and then for the name of a form model. -/
theorem tagChanges_eq_join (r : RuleSet) (tag : StartTag) : r.tagChanges tag =
    .join ((tag.attributes.map Occurrence.attr ++ [Occurrence.modelName tag]).map
      r.changesAt) := by
  rw [List.map_append, List.map_map, Changes.join_append, tagChanges]
  congr 1
  simp [Changes.join, changesAt]

mutual

/-- A node is visited occurrence by occurrence. -/
theorem nodeChanges_eq_join (r : RuleSet) (n : Node) :
    r.nodeChanges n = .join (n.occurrencesOf.map r.changesAt) := by
  cases n with
  | text run => simp [nodeChanges, Node.occurrencesOf, changesAt, Changes.join]
  | element tag children =>
      rw [nodeChanges, Node.occurrencesOf, List.append_assoc, List.map_append, Changes.join_append,
        forestChanges_eq_join r children, tagChanges_eq_join]

/-- What becomes of a forest is what becomes of its occurrences, in order. -/
theorem forestChanges_eq_join (r : RuleSet) (ns : List Node) :
    r.forestChanges ns = .join ((Node.occurrences ns).map r.changesAt) := by
  cases ns with
  | nil =>
      rw [forestChanges, Node.occurrences]
      rfl
  | cons n ns =>
      rw [forestChanges, Node.occurrences, List.map_append, Changes.join_append,
        nodeChanges_eq_join r n, forestChanges_eq_join r ns]

end

/-- The messages of a forest come in the order of its occurrences. -/
theorem messages_forestChanges (r : RuleSet) (ns : List Node) :
    (r.forestChanges ns).messages = (Node.occurrences ns).flatMap r.messagesAt := by
  rw [forestChanges_eq_join]
  exact List.flatMap_map ..

/-! ### Values -/

/-- What the value transform of an attribute makes of its value. -/
def transformedValue (r : RuleSet) (a : Attribute) : TextMigration :=
  ((r.valueTransform? a.name).map (·.apply a.value a.valueStart r)).getD ⟨a.value, []⟩

/-- Whether the value transform of an attribute replaces its value. -/
def replacesValue (r : RuleSet) (a : Attribute) : Bool :=
  !Message.anyError (r.transformedValue a).messages && (r.transformedValue a).value != a.value

/-- The value transform comes first; the expression transforms follow unless it replaces the value
or meets an error. -/
theorem valueChanges_eq (r : RuleSet) (a : Attribute) : r.valueChanges a =
    if !a.hasValue then .none
    else if r.replacesValue a || Message.anyError (r.transformedValue a).messages then
      ⟨if r.replacesValue a then
          [.replace a.valueStart (byteLength a.value) (r.transformedValue a).value] else [],
        (r.transformedValue a).messages⟩
    else
      ⟨(r.migrateExpression a.value a.valueStart).edits.map (.ofEdit a.valueStart),
        (r.transformedValue a).messages ++
          (r.migrateExpression a.value a.valueStart).messages⟩ := by
  cases htransform : r.valueTransform? a.name with
  | none => simp [valueChanges, replacesValue, transformedValue, htransform, Message.anyError]
  | some t =>
      simp only [valueChanges, replacesValue, transformedValue, htransform, Option.map_some,
        Option.getD_some]
      cases Message.anyError (t.apply a.value a.valueStart r).messages <;>
        cases (t.apply a.value a.valueStart r).value != a.value <;> simp

end RuleSet

/-! ## The walk -/

/-- What a walk has done so far. -/
structure Walk where
  patch : Patch
  messages : List Message

/-- A walk that has not begun. -/
def Walk.start (source : String) : Walk := ⟨.ofText source, []⟩

/-- Steps of a walk. -/
abbrev Walker := StateT Walk (Except Failure)

namespace Walker

/-- Make an edit. -/
def edit (e : SourceEdit) : Walker Unit := do
  let walk ← get
  let patch ← e.apply walk.patch
  set { walk with patch }

/-- Add messages. -/
def say (messages : List Message) : Walker Unit :=
  modify fun walk => { walk with messages := walk.messages ++ messages }

/-- The range of an edit in an expression that starts at an offset. -/
def rangeOf (start : Nat) (e : Edit) : Nat × Nat := (start + e.offset, start + e.offset + e.length)

/-- Whether a range meets one of several others. -/
def meetsAny (range : Nat × Nat) (others : List (Nat × Nat)) : Bool :=
  others.any fun other => RuleSet.rangesMeet range.1 range.2 other.1 other.2

/-- Make the edits of an expression that starts at an offset, but for those that meet a range that
has been replaced as a whole. -/
def applyEdits (start : Nat) (replaced : List (Nat × Nat)) : List Edit → Walker Unit
  | [] => pure ()
  | e :: es => do
      unless meetsAny (rangeOf start e) replaced do
        edit (.ofEdit start e)
      applyEdits start replaced es

/-- Replace the filters of a run of text.  The result is the ranges replaced. -/
def visitFilters (r : RuleSet) (run : TextRun) : List Filter → Walker (List (Nat × Nat))
  | [] => pure []
  | f :: fs => do
      let start := run.start + f.start
      let length := f.stop - f.start
      let migrated := r.migrateFilter f start length
      let here ← match migrated.replacement with
        | none => pure []
        | some new => do
            edit (.replace start length new)
            pure [(start, start + length)]
      say migrated.messages
      let rest ← visitFilters r run fs
      return here ++ rest

/-- Visit a run of text. -/
def visitText (r : RuleSet) (run : TextRun) : Walker Unit := do
  if run.content.toList.all isWhiteSpace then return
  let replaced ← visitFilters r run run.filters
  let migrated := r.migrateExpression run.content run.start
  applyEdits run.start replaced migrated.edits
  say migrated.messages

/-- Apply the value transform of an attribute.  The result is whether the value has changed, and
the messages. -/
def transformValue (r : RuleSet) (a : Attribute) : Walker (Bool × List Message) :=
  match r.valueTransform? a.name with
  | none => pure (false, [])
  | some t => do
      let migrated := t.apply a.value a.valueStart r
      let changed := !Message.anyError migrated.messages && migrated.value != a.value
      if changed then
        edit (.replace a.valueStart (byteLength a.value) migrated.value)
      return (changed, migrated.messages)

/-- Apply the expression transforms to the value of an attribute, after some messages. -/
def visitExpression (r : RuleSet) (a : Attribute) (messages : List Message) :
    Walker (List Message) := do
  let migrated := r.migrateExpression a.value a.valueStart
  applyEdits a.valueStart [] migrated.edits
  return messages ++ migrated.messages

/-- Visit the value of an attribute.  The result is the messages, which are not added yet. -/
def visitValue (r : RuleSet) (a : Attribute) : Walker (List Message) := do
  if !a.hasValue then return []
  let (changed, messages) ← transformValue r a
  if changed || Message.anyError messages then return messages
  visitExpression r a messages

/-- Rename an attribute, with messages that stand before the one about its name. -/
def visitName (r : RuleSet) (a : Attribute) (messages : List Message) : Walker Unit :=
  match r.rename? a.name with
  | none => say messages
  | some rule => do
      let length := byteLength a.name
      edit (.replace a.start length rule.newName)
      say (messages ++
        [.info a.start length ("Update property " ++ a.name ++ " to " ++ rule.newName) rule.url])

/-- Visit an attribute: its value, and its name unless an error was met. -/
def visitAttribute (r : RuleSet) (a : Attribute) : Walker Unit := do
  if r.isUnsupportedAttribute a.name then
    say [.error a.start (byteLength a.name) ("Unsupported property " ++ a.name)]
  else
    let messages ← visitValue r a
    if Message.anyError messages then say messages
    else visitName r a messages

/-- Add the name of a form model. -/
def addModelName (tag : StartTag) : Walker Unit := do
  let some model := tag.attribute? "ng-model" | return
  if (tag.attribute? "name").isSome then return
  let name := match tag.attribute? "id" with
    | some id => id.value
    | none => "modelName" ++ toString tag.start
  let property := "name=\"" ++ name ++ "\""
  edit (.insert tag.nameStop (" " ++ property))
  say [.info model.start (byteLength model.name)
    ("Add property " ++ property ++ " to use `[(ngModel)]` inside a form")
    (some "https://angular.io/api/forms/NgModel")]

/-- Visit an occurrence. -/
def visit (r : RuleSet) : Occurrence → Walker Unit
  | .text run => visitText r run
  | .attr a => visitAttribute r a
  | .modelName tag => addModelName tag

/-- Visit attributes in order. -/
def visitAttributes (r : RuleSet) : List Attribute → Walker Unit
  | [] => pure ()
  | a :: as => do
      visitAttribute r a
      visitAttributes r as

mutual

/-- Visit a node: for an element, its children first. -/
def visitNode (r : RuleSet) : Node → Walker Unit
  | .text run => visitText r run
  | .element tag children => do
      visitForest r children
      visitAttributes r tag.attributes
      addModelName tag

/-- Visit the nodes of a forest in order. -/
def visitForest (r : RuleSet) : List Node → Walker Unit
  | [] => pure ()
  | n :: ns => do
      visitNode r n
      visitForest r ns

end

/-- Visit occurrences in order. -/
def visitAll (r : RuleSet) : List Occurrence → Walker Unit
  | [] => pure ()
  | o :: os => do
      visit r o
      visitAll r os

/-- Occurrences are visited in two parts. -/
theorem visitAll_append (r : RuleSet) (xs ys : List Occurrence) :
    visitAll r (xs ++ ys) = (do visitAll r xs; visitAll r ys) := by
  induction xs with
  | nil => simp [visitAll]
  | cons o xs ih => simp [visitAll, ih]

/-- The attributes of a tag are visited one by one. -/
theorem visitAttributes_eq_visitAll (r : RuleSet) (as : List Attribute) :
    visitAttributes r as = visitAll r (as.map .attr) := by
  induction as with
  | nil => rfl
  | cons a as ih => rw [visitAttributes, ih, List.map_cons, visitAll, visit]

mutual

/-- A node is visited occurrence by occurrence. -/
theorem visitNode_eq_visitAll (r : RuleSet) (n : Node) :
    visitNode r n = visitAll r n.occurrencesOf := by
  cases n with
  | text run => simp [visitNode, Node.occurrencesOf, visitAll, visit]
  | element tag children =>
      rw [visitNode, Node.occurrencesOf, visitForest_eq_visitAll r children,
        visitAttributes_eq_visitAll]
      simp [visitAll_append, visitAll, visit]

/-- The walk over a forest visits its occurrences in postorder. -/
theorem visitForest_eq_visitAll (r : RuleSet) (ns : List Node) :
    visitForest r ns = visitAll r (Node.occurrences ns) := by
  cases ns with
  | nil => rw [visitForest, Node.occurrences, visitAll]
  | cons n ns =>
      rw [visitForest, Node.occurrences, visitAll_append, visitNode_eq_visitAll r n,
        visitForest_eq_visitAll r ns]

end

/-! ## What a step does -/

/-- A step makes certain changes and gives a certain result, whatever was done before it.  It fails
exactly if its edits cannot be made. -/
def Performs {α : Type} (step : Walker α) (c : Changes) (result : α) : Prop :=
  ∀ walk : Walk, step.run walk = (c.edits.foldlM SourceEdit.apply walk.patch).map fun patch =>
    (result, ⟨patch, walk.messages ++ c.messages⟩)

namespace Performs

variable {α β : Type} {step : Walker α} {next : α → Walker β} {c d : Changes} {a : α} {b : β}

/-- Nothing is done by a step that only gives a value. -/
theorem pure (a : α) : Performs (Pure.pure a) .none a := by
  intro walk
  have hmessages : walk.messages ++ Changes.none.messages = walk.messages := List.append_nil _
  rw [hmessages]
  rfl

/-- What two steps do one after the other. -/
theorem bind (h : Performs step c a) (h' : Performs (next a) d b) :
    Performs (step >>= next) (c ++ d) b := by
  intro walk
  rw [StateT.run_bind, h walk, Changes.edits_append, List.foldlM_append]
  cases hpatch : c.edits.foldlM SourceEdit.apply walk.patch with
  | error failure => rfl
  | ok patch =>
      have hnext := h' ⟨patch, walk.messages ++ c.messages⟩
      rw [List.append_assoc] at hnext
      exact hnext

theorem bind_pure (h : Performs step c a) (f : α → β) :
    Performs (step >>= fun a => Pure.pure (f a)) c (f a) := by
  intro walk
  rw [StateT.run_bind, h walk]
  cases c.edits.foldlM SourceEdit.apply walk.patch <;> rfl

/-- The changes of a step may be written in another way. -/
theorem of_eq (h : Performs step c a) (hedits : c.edits = d.edits)
    (hmessages : c.messages = d.messages) : Performs step d a := by
  intro walk
  rw [h walk, hedits, hmessages]

theorem of_pos {p : Prop} [Decidable p] {other : Walker α} (hp : p) (h : Performs step c a) :
    Performs (if p then step else other) c a := by
  rwa [if_pos hp]

theorem of_neg {p : Prop} [Decidable p] {other : Walker α} (hp : ¬ p) (h : Performs step c a) :
    Performs (if p then other else step) c a := by
  rwa [if_neg hp]

/-- A step succeeds exactly if its edits can be made, and then it adds its messages. -/
theorem run_eq_ok_iff (h : Performs step c a) {walk walk' : Walk} :
    step.run walk = .ok (a, walk') ↔
      c.edits.foldlM SourceEdit.apply walk.patch = .ok walk'.patch ∧
        walk'.messages = walk.messages ++ c.messages := by
  rw [h walk]
  cases c.edits.foldlM SourceEdit.apply walk.patch with
  | error failure => simp [Except.map]
  | ok patch =>
      obtain ⟨patch', messages'⟩ := walk'
      simp [Except.map, eq_comm]

/-- An edit is one change. -/
theorem edit (e : SourceEdit) : Performs (Walker.edit e) ⟨[e], []⟩ () := by
  intro walk
  rw [List.append_nil, List.foldlM_cons]
  have hrun : (Walker.edit e).run walk =
      StateT.run (liftM (e.apply walk.patch) >>= fun patch => set { walk with patch }) walk := rfl
  rw [hrun]
  cases e.apply walk.patch <;> rfl

/-- Messages are changes without an edit. -/
theorem say (messages : List Message) : Performs (Walker.say messages) ⟨[], messages⟩ () := by
  intro walk
  rfl

end Performs

/-! ## What is done at an occurrence -/

/-- The edits of an expression that stay clear of the replaced ranges are made. -/
theorem performs_applyEdits (start : Nat) (replaced : List (Nat × Nat)) (es : List Edit) :
    Performs (applyEdits start replaced es)
      ⟨(es.filter fun e => !meetsAny (rangeOf start e) replaced).map (.ofEdit start), []⟩ () := by
  induction es with
  | nil => exact .pure ()
  | cons e es ih =>
      rw [applyEdits]
      by_cases hmeets : meetsAny (rangeOf start e) replaced
      · simpa only [hmeets, if_true, List.filter_cons, Bool.not_true, Bool.false_eq_true, if_false]
          using ih
      · rw [if_neg hmeets]
        exact ((Performs.edit _).bind ih).of_eq (by simp [hmeets]) rfl

/-- The edits that replace filters, each with an offset counted from the start of its text. -/
def filterEditsOf (r : RuleSet) (run : TextRun) (fs : List Filter) : List Edit :=
  Filter.editsOf
    (fun f => (r.migrateFilter f (run.start + f.start) (f.stop - f.start)).replacement) fs

/-- The loop over the filters of a run makes their edits, reports them and gives their ranges. -/
theorem performs_visitFilters (r : RuleSet) (run : TextRun) (fs : List Filter) :
    Performs (visitFilters r run fs)
      ⟨(filterEditsOf r run fs).map (.ofEdit run.start), fs.flatMap fun f =>
        (r.migrateFilter f (run.start + f.start) (f.stop - f.start)).messages⟩
      ((filterEditsOf r run fs).map (rangeOf run.start)) := by
  induction fs with
  | nil => exact .pure []
  | cons f fs ih =>
      rw [visitFilters]
      have hrest : ∀ here, Performs
          (do
            say (r.migrateFilter f (run.start + f.start) (f.stop - f.start)).messages
            let rest ← visitFilters r run fs
            pure (here ++ rest))
          ⟨(filterEditsOf r run fs).map (.ofEdit run.start), (f :: fs).flatMap fun f =>
            (r.migrateFilter f (run.start + f.start) (f.stop - f.start)).messages⟩
          (here ++ (filterEditsOf r run fs).map (rangeOf run.start)) := fun here =>
        ((Performs.say _).bind (ih.bind_pure (here ++ ·))).of_eq (by simp) (by simp)
      cases hnew : (r.migrateFilter f (run.start + f.start) (f.stop - f.start)).replacement with
      | none =>
          have hedits : filterEditsOf r run (f :: fs) = filterEditsOf r run fs := by
            simp [filterEditsOf, Filter.editsOf, hnew]
          rw [hedits]
          exact Performs.of_eq (.bind (.pure []) (hrest [])) rfl rfl
      | some new =>
          have hedits : filterEditsOf r run (f :: fs) =
              ⟨f.start, f.stop - f.start, new⟩ :: filterEditsOf r run fs := by
            simp [filterEditsOf, Filter.editsOf, hnew]
          rw [hedits]
          exact Performs.of_eq (.bind (.edit _) (.bind (.pure _) (hrest _))) rfl rfl

/-- Ranges meet wherever they are counted from. -/
theorem rangesMeet_add (n a b c d : Nat) :
    RuleSet.rangesMeet (n + a) (n + b) (n + c) (n + d) = RuleSet.rangesMeet a b c d := by
  simp [RuleSet.rangesMeet]

/-- An edit meets the ranges of others in the source exactly if it meets them in the run. -/
theorem meetsAny_rangeOf (start : Nat) (e : Edit) (es : List Edit) :
    (!meetsAny (rangeOf start e) (es.map (rangeOf start))) =
      es.all fun g => !RuleSet.rangesMeet e.offset e.stop g.offset g.stop := by
  rw [meetsAny, List.any_map, List.not_any_eq_all_not]
  simp only [Function.comp_def, rangeOf, Nat.add_assoc, rangesMeet_add, Edit.stop]

/-- A run of text is walked as its changes say. -/
theorem performs_visitText (r : RuleSet) (run : TextRun) :
    Performs (visitText r run) (r.textChanges run) () := by
  rw [visitText]
  by_cases hblank : run.content.toList.all isWhiteSpace
  · rw [if_pos hblank, RuleSet.textChanges, if_pos hblank]
    exact .pure ()
  · rw [if_neg hblank]
    apply Performs.of_eq (.bind (performs_visitFilters r run run.filters)
      (.bind (performs_applyEdits run.start _ _) (.say _)))
    · rw [r.edits_textChanges_of_not_blank run (by simpa using hblank), RuleSet.clearEdits]
      simp only [Changes.edits_append, meetsAny_rangeOf, List.map_append, List.append_nil]
      rfl
    · rw [RuleSet.textChanges, if_neg hblank]
      simp [List.flatMap_map, TextRun.filters]

/-- The value transform of an attribute makes its edit, if it replaces the value. -/
theorem performs_transformValue (r : RuleSet) (a : Attribute) :
    Performs (transformValue r a)
      ⟨if r.replacesValue a then
          [.replace a.valueStart (byteLength a.value) (r.transformedValue a).value] else [], []⟩
      (r.replacesValue a, (r.transformedValue a).messages) := by
  rw [transformValue]
  cases htransform : r.valueTransform? a.name with
  | none =>
      have hsame : r.transformedValue a = ⟨a.value, []⟩ := by
        simp [RuleSet.transformedValue, htransform]
      have hreplaces : r.replacesValue a = false := by simp [RuleSet.replacesValue, hsame]
      rw [hreplaces, hsame]
      exact .pure _
  | some t =>
      have hvalue : t.apply a.value a.valueStart r = r.transformedValue a := by
        simp [RuleSet.transformedValue, htransform]
      dsimp only
      rw [hvalue, ← RuleSet.replacesValue]
      by_cases hreplaces : r.replacesValue a
      · rw [if_pos hreplaces, if_pos hreplaces]
        exact (Performs.edit _).bind_pure _
      · rw [if_neg hreplaces, if_neg hreplaces]
        exact .pure _

/-- The expression transforms make their edits and add their messages. -/
theorem performs_visitExpression (r : RuleSet) (a : Attribute) (messages : List Message) :
    Performs (visitExpression r a messages)
      ⟨(r.migrateExpression a.value a.valueStart).edits.map (.ofEdit a.valueStart), []⟩
      (messages ++ (r.migrateExpression a.value a.valueStart).messages) := by
  have hedits := performs_applyEdits a.valueStart []
    (r.migrateExpression a.value a.valueStart).edits
  exact (hedits.bind_pure fun _ => _).of_eq (by simp [meetsAny]) rfl

/-- The value of an attribute is walked as its changes say. -/
theorem performs_visitValue (r : RuleSet) (a : Attribute) :
    Performs (visitValue r a) ⟨(r.valueChanges a).edits, []⟩ (r.valueChanges a).messages := by
  rw [visitValue, RuleSet.valueChanges_eq]
  by_cases hvalue : !a.hasValue
  · rw [if_pos hvalue, if_pos hvalue]
    exact .pure []
  · rw [if_neg hvalue, if_neg hvalue]
    have htransform := performs_transformValue r a
    by_cases hkept : r.replacesValue a || Message.anyError (r.transformedValue a).messages
    · rw [if_pos hkept]
      exact Performs.of_eq (.bind htransform (.of_pos hkept (.pure _))) (List.append_nil _) rfl
    · have hreplaces : r.replacesValue a = false := by
        simp only [Bool.or_eq_true, not_or] at hkept
        simpa using hkept.1
      rw [if_neg hkept]
      exact Performs.of_eq (.bind htransform (.of_neg hkept (performs_visitExpression r a _)))
        (by simp [hreplaces]) rfl

/-- The name of an attribute is walked as its changes say, behind the messages about its value. -/
theorem performs_visitName (r : RuleSet) (a : Attribute) (messages : List Message) :
    Performs (visitName r a messages)
      ⟨(r.nameChanges a).edits, messages ++ (r.nameChanges a).messages⟩ () := by
  rw [visitName, RuleSet.nameChanges]
  cases r.rename? a.name with
  | none => exact (Performs.say messages).of_eq rfl (List.append_nil _).symm
  | some rule => exact Performs.of_eq (.bind (.edit _) (.say _)) rfl rfl

/-- An attribute is changed as the rules say, and its messages are added all at once. -/
theorem performs_visitAttribute (r : RuleSet) (a : Attribute) :
    Performs (visitAttribute r a) (r.attributeChanges a) () := by
  rw [visitAttribute, RuleSet.attributeChanges]
  dsimp only
  by_cases hunsupported : r.isUnsupportedAttribute a.name
  · rw [if_pos hunsupported, if_pos hunsupported]
    exact .say _
  · rw [if_neg hunsupported, if_neg hunsupported]
    have hvalue := performs_visitValue r a
    by_cases herror : Message.anyError (r.valueChanges a).messages
    · rw [if_pos herror]
      exact Performs.of_eq (.bind hvalue (.of_pos herror (.say _))) (List.append_nil _) rfl
    · rw [if_neg herror]
      exact Performs.of_eq (.bind hvalue (.of_neg herror (performs_visitName r a _))) rfl rfl

/-- A form model is given a name as its changes say. -/
theorem performs_addModelName (tag : StartTag) :
    Performs (addModelName tag) (RuleSet.modelNameChanges tag) () := by
  rw [addModelName, RuleSet.modelNameChanges]
  cases tag.attribute? "ng-model" with
  | none => exact .pure ()
  | some model =>
      cases tag.attribute? "name" with
      | some name => exact .pure ()
      | none => exact Performs.of_eq (.bind (.edit _) (.say _)) rfl rfl

/-- What is done at an occurrence is what becomes of it, whatever was done before. -/
theorem performs_visit (r : RuleSet) (o : Occurrence) :
    Performs (visit r o) (r.changesAt o) () := by
  cases o with
  | text run => exact performs_visitText r run
  | attr a => exact performs_visitAttribute r a
  | modelName tag => exact performs_addModelName tag

/-! ## What a walk does -/

/-- A walk over occurrences makes their changes, one after the other. -/
theorem performs_visitAll (r : RuleSet) (os : List Occurrence) :
    Performs (visitAll r os) (.join (os.map r.changesAt)) () := by
  induction os with
  | nil => exact .pure ()
  | cons o os ih => exact Performs.of_eq (.bind (performs_visit r o) ih) rfl rfl

/-- The walk over a forest makes its changes. -/
theorem performs_visitForest (r : RuleSet) (ns : List Node) :
    Performs (visitForest r ns) (r.forestChanges ns) () := by
  rw [visitForest_eq_visitAll, RuleSet.forestChanges_eq_join]
  exact performs_visitAll r (Node.occurrences ns)

end Walker

/-! ## Sorting by level -/

namespace Message

/-- Whether a message may stand before another when they are sorted by level. -/
def byLevel (a b : Message) : Bool := a.isError || !b.isError

theorem byLevel_trans (a b c : Message) (h : byLevel a b) (h' : byLevel b c) : byLevel a c := by
  cases ha : a.isError <;> cases hb : b.isError <;> simp_all [byLevel]

theorem byLevel_total (a b : Message) : byLevel a b || byLevel b a := by
  cases ha : a.isError <;> simp [byLevel, ha]

/-- Sorting keeps the order of messages of one level. -/
theorem filter_mergeSort {p : Message → Bool} (hp : ∀ a b, p a → p b → byLevel a b)
    (ms : List Message) : (ms.mergeSort byLevel).filter p = ms.filter p := by
  have hpairwise : (ms.filter p).Pairwise fun a b => byLevel a b :=
    List.pairwise_of_forall_mem_list fun a ha b hb =>
      hp a b (List.mem_filter.mp ha).2 (List.mem_filter.mp hb).2
  have hsub : (ms.filter p).Sublist (ms.mergeSort byLevel) :=
    List.sublist_mergeSort byLevel_trans byLevel_total hpairwise List.filter_sublist
  have hfilter : (ms.filter p).Sublist ((ms.mergeSort byLevel).filter p) := by
    simpa using hsub.filter p
  exact (hfilter.eq_of_length ((List.mergeSort_perm ms byLevel).filter p).length_eq.symm).symm

/-- A sorted list is its errors and then the rest. -/
theorem eq_errorsFirst_of_pairwise {ms : List Message} (h : ms.Pairwise fun a b => byLevel a b) :
    ms = errorsFirst ms := by
  induction ms with
  | nil => rfl
  | cons m ms ih =>
      obtain ⟨hfirst, hrest⟩ := List.pairwise_cons.mp h
      have hsorted := ih hrest
      cases hm : m.isError with
      | true => simpa [errorsFirst, hm] using hsorted
      | false =>
          -- nothing behind an info is an error
          have hnone : ∀ b ∈ ms, b.isError = false := by
            intro b hb
            simpa [byLevel, hm] using hfirst b hb
          have herrors : ms.filter isError = [] := by
            simpa [List.filter_eq_nil_iff] using hnone
          simpa [errorsFirst, hm, herrors] using hsorted

/-- Errors first is the order that sorting by level gives. -/
theorem mergeSort_eq_errorsFirst (ms : List Message) : ms.mergeSort byLevel = errorsFirst ms := by
  have herrors : (ms.mergeSort byLevel).filter isError = ms.filter isError :=
    filter_mergeSort (by simp +contextual [byLevel]) ms
  have hrest : (ms.mergeSort byLevel).filter (!isError ·) = ms.filter (!isError ·) :=
    filter_mergeSort (by simp +contextual [byLevel]) ms
  rw [eq_errorsFirst_of_pairwise (List.pairwise_mergeSort byLevel_trans byLevel_total ms),
    errorsFirst, herrors, hrest, ← errorsFirst]

/-- Errors come first, and the infos behind them. -/
theorem errorsFirst_eq (ms : List Message) : errorsFirst ms =
    ms.filter (·.level = .error) ++ ms.filter (·.level = .info) := by
  have herror : ∀ m ∈ ms, m.isError = decide (m.level = .error) := by
    simp [isError, beq_eq_decide]
  have hinfo : ∀ m ∈ ms, (!m.isError) = decide (m.level = .info) := by
    intro m _
    cases hm : m.level <;> simp [isError, hm]
  rw [errorsFirst, List.filter_congr herror, List.filter_congr hinfo]

end Message

/-! ## Diagnostics -/

/-- The diagnostics of a forest, as a walk over it leads to them. -/
structure Walk.Diagnoses (walk : Walk) (rules : RuleSet) (source : String) (forest : List Node)
    (diagnostics : List Diagnostic) : Prop where
  /-- The walk has visited the forest. -/
  visited : (Walker.visitForest rules forest).run (.start source) = .ok ((), walk)
  /-- Its messages are those about the occurrences in postorder. -/
  collected : walk.messages = (Node.occurrences forest).flatMap rules.messagesAt
  /-- Sorting them by level gives the diagnostics. -/
  sorted : diagnostics = (walk.messages.mergeSort Message.byLevel).map (·.place source)
  /-- Errors come first, then infos, each in the order of the walk. -/
  grouped : diagnostics = (walk.messages.filter (·.level = .error)).map (·.place source) ++
    (walk.messages.filter (·.level = .info)).map (·.place source)
  /-- Each message is one diagnostic. -/
  complete : diagnostics.Perm (walk.messages.map (·.place source))
  /-- A diagnostic stands where the index of the source has the offset of its message. -/
  placed : ∀ m ∈ walk.messages,
    (LineIndex.ofText source).position? m.position = some (m.place source).position

/-- **Diagnostics are complete and in order.**  A migration that succeeds has walked over its forest
and reports what was said about the occurrences in postorder, errors first.  The walk visits one
occurrence after the other, and what is said about one does not depend on what was done before. -/
theorem Session.diagnostics_migrateForest {s : Session} {source : String} {forest : List Node}
    {m : Migration} (h : (s.migrateForest source forest).1 = .ok m) :
    (∃ walk : Walk, walk.Diagnoses s.rules source forest m.diagnostics) ∧
      Walker.visitForest s.rules forest = Walker.visitAll s.rules (Node.occurrences forest) ∧
      ∀ (o : Occurrence) (walk walk' : Walk), (Walker.visit s.rules o).run walk = .ok ((), walk') →
        walk'.messages = walk.messages ++ s.rules.messagesAt o := by
  obtain ⟨patch, hpatch, rfl⟩ := Migration.exists_patch_of_ofForest h
  refine ⟨?_, Walker.visitForest_eq_visitAll s.rules forest, ?_⟩
  · have hvisit := Walker.performs_visitForest s.rules forest
    have hsorted := Message.mergeSort_eq_errorsFirst (s.rules.forestChanges forest).messages
    have hgroups := Message.errorsFirst_eq (s.rules.forestChanges forest).messages
    exact ⟨⟨patch, (s.rules.forestChanges forest).messages⟩, {
      visited := hvisit.run_eq_ok_iff.mpr ⟨hpatch, rfl⟩
      collected := s.rules.messages_forestChanges forest
      sorted := by rw [hsorted]
      grouped := by rw [hgroups, List.map_append]
      complete := by
        rw [← hsorted]
        exact (List.mergeSort_perm _ _).map _
      placed := fun msg _ => LineIndex.position?_ofText source msg.position }⟩
  · intro o walk walk' hvisit
    exact ((Walker.performs_visit s.rules o).run_eq_ok_iff.mp hvisit).2

/-- The error about a filter inside an element is reported before what is said about the element's
attribute, which has an alias and a new name. -/
theorem Session.diagnostics_migrateForest_nested :
    let forest : List Node :=
      [.element ⟨"p", 0, [⟨"ng-if", "vm.a", 3, 15, true⟩]⟩ [.text ⟨"{{b|orderBy:c}}", 16⟩]]
    ∃ m, ((Session.start .default).migrateForest
        "<p ng-if=\"vm.a\">{{b|orderBy:c}}</p>" forest).1 = .ok m ∧
      m.diagnostics.map (fun d => (d.level, d.position)) =
        [(.error, ⟨0, 20⟩), (.info, ⟨0, 10⟩), (.info, ⟨0, 3⟩)] ∧
      (∃ walk : Walk, walk.Diagnoses .default "<p ng-if=\"vm.a\">{{b|orderBy:c}}</p>" forest
        m.diagnostics) ∧
      Walker.visitForest .default forest = Walker.visitAll .default (Node.occurrences forest) ∧
      ∀ (o : Occurrence) (walk walk' : Walk), (Walker.visit .default o).run walk = .ok ((), walk') →
        walk'.messages = walk.messages ++ RuleSet.default.messagesAt o := by
  intro forest
  have hrun : ((Session.start .default).migrateForest
      "<p ng-if=\"vm.a\">{{b|orderBy:c}}</p>" forest).1.toOption.map
        (fun m => m.diagnostics.map fun d => (d.level, d.position)) =
      some [(.error, ⟨0, 20⟩), (.info, ⟨0, 10⟩), (.info, ⟨0, 3⟩)] := by
    decide +kernel
  cases hresult : ((Session.start .default).migrateForest
      "<p ng-if=\"vm.a\">{{b|orderBy:c}}</p>" forest).1 with
  | error failure =>
      rw [hresult] at hrun
      contradiction
  | ok m =>
      rw [hresult] at hrun
      exact ⟨m, rfl, Option.some.inj hrun, Session.diagnostics_migrateForest hresult⟩

end TemplateMigration
