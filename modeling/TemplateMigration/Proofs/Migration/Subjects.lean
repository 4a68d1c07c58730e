import TemplateMigration.Proofs.Expression.StringArguments
import TemplateMigration.Proofs.Migration.Anchors
import TemplateMigration.Proofs.Migration.Walking

/-!
# TemplateMigration.Proofs.Migration.Subjects

What the messages of a migration are about.

A message is about the name of an attribute, its value, a filter or an alias (`Subject`), and the
walk knows which when it says it: `RuleSet.remarks` are the messages in the order of the walk, each
with its subject.  How a remark can come about is said once (`RuleSet.Arises`).  From it follow both
what the rules can say about a subject (`Arises.tells`) and that the range of a message is where its
subject is written in the template (`Arises.anchored`), whatever the range was counted from: the
start of a tag, the end of an attribute, or an offset inside a run of text.
-/

namespace TemplateMigration

/-! ## Filters as they are written -/

theorem IsBoundary.occursAt_nil {text : List Char} {n : Nat} (h : IsBoundary text n) :
    OccursAt text n [] := by
  obtain ⟨before, after, rfl, hcount⟩ := h
  exact ⟨before, after, by simp, hcount⟩

/-- A part and what stands right behind it are one part. -/
theorem OccursAt.append {text xs ys : List Char} {n : Nat} (h : OccursAt text n xs)
    (h' : OccursAt text (n + byteCount xs) ys) : OccursAt text n (xs ++ ys) := by
  obtain ⟨before, after, rfl, rfl⟩ := h
  rw [← byteCount_append] at h'
  obtain ⟨rest, rfl⟩ := h'.starts
  exact ⟨before, rest, by simp, rfl⟩

namespace Filter

/-- Arguments as they can be written: each behind a colon, with blanks around the colon. -/
inductive ArgsWritten : List Token → List Char → Prop where
  | nil : ArgsWritten [] []
  | cons {arg : Token} {args : List Token} {gap gap' rest : List Char}
      (hgap : ∀ c ∈ gap, isExpressionBlank c) (hgap' : ∀ c ∈ gap', isExpressionBlank c)
      (hrest : ArgsWritten args rest) :
      ArgsWritten (arg :: args) (gap ++ [':'] ++ (gap' ++ arg.text.toList) ++ rest)

/-- A filter as it can be written: from its name to the end of its last argument. -/
def WrittenAs (f : Filter) (letters : List Char) : Prop :=
  ∃ rest, ArgsWritten f.args rest ∧ letters = f.name.text.toList ++ rest

/-- The arguments behind a token are written from its end to the end of the last one. -/
theorem exists_argsWritten {text : List Char} {ts args : List Token} {before : Token}
    (hbefore : IsBoundary text before.stop) (h : TokensIn text before.stop ts)
    (hargs : (readArgs ts).1 = some args) :
    ∃ letters, OccursAt text before.stop letters ∧ ArgsWritten args letters ∧
      before.stop + byteCount letters = (args.getLast?.getD before).stop := by
  induction args generalizing before ts with
  | nil => exact ⟨[], hbefore.occursAt_nil, .nil, rfl⟩
  | cons arg args ih =>
      obtain ⟨colon, rest, rfl, hmark, hrest⟩ := exists_of_readArgs hargs
      have hcolon : colon.text.toList = [':'] := by
        simp only [Token.isMark, Bool.and_eq_true, beq_iff_eq] at hmark
        rw [hmark.2]
        rfl
      have harg : TokensIn text colon.stop (arg :: rest) := h.tail
      obtain ⟨letters, hletters, hwritten, hstop⟩ := ih harg.isBoundary_stop harg.tail hrest
      obtain ⟨⟨gap, hgap, hoffset, hoccurs⟩, -⟩ := h
      obtain ⟨⟨gap', hgap', hoffset', hoccurs'⟩, -⟩ := harg
      rw [hcolon] at hoccurs
      have hcolonStop : before.stop + byteCount (gap ++ [':']) = colon.stop := by
        rw [byteCount_append, ← Nat.add_assoc, hoffset, Token.stop, byteLength, hcolon]
      have hargStop : colon.stop + byteCount (gap' ++ arg.text.toList) = arg.stop := by
        rw [byteCount_append, ← Nat.add_assoc, hoffset', Token.stop, byteLength]
      refine ⟨_, ?_, .cons hgap hgap' hwritten, ?_⟩
      · refine (hoccurs.append ?_).append ?_
        · rwa [hcolonStop]
        · rwa [byteCount_append, ← Nat.add_assoc, hcolonStop, hargStop]
      · rw [byteCount_append, byteCount_append, ← Nat.add_assoc, ← Nat.add_assoc, hcolonStop,
          hargStop, hstop, List.getLast?_cons, Option.getD_some]

/-- A filter of an expression is written at its offset. -/
theorem exists_writtenAs {expression : String} {f : Filter}
    (h : f ∈ findAll (Tokens.read expression).list) :
    ∃ letters, OccursAt expression.toList f.start letters ∧ f.WrittenAs letters ∧
      f.start + byteCount letters = f.stop := by
  have htoken := (mem_findAll h f.name List.mem_cons_self).1
  have hname : OccursAt expression.toList f.start f.name.text.toList :=
    (TemplateMigration.tokensIn_read expression).occursAt_of_mem htoken
  obtain ⟨ts, hrest, hargs⟩ := exists_of_mem_findAll h
  obtain ⟨letters, hletters, hwritten, hstop⟩ :=
    exists_argsWritten hname.isBoundary_stop hrest.tokensIn hargs
  refine ⟨_, hname.append hletters, ⟨letters, hwritten, rfl⟩, ?_⟩
  rw [byteCount_append, ← Nat.add_assoc]
  exact hstop

end Filter

/-! ## Subjects and remarks -/

/-- What a message is about. -/
inductive Subject where
  /-- The name of an attribute. -/
  | name (a : Attribute)
  /-- The alias of the controller. -/
  | controllerAlias
  /-- A filter in a run of text. -/
  | filter (f : Filter)
  /-- The value of an attribute as a whole, filters in it included. -/
  | value (a : Attribute)
  deriving DecidableEq, Repr

/-- How a subject is written in a template.  Names are written in any case. -/
def Subject.WrittenAs : Subject → List Char → Prop
  | name a, letters => a.name = MarkupEvent.lowerCase letters
  | controllerAlias, letters => letters = ['v', 'm', '.']
  | filter f, letters => f.WrittenAs letters
  | value a, letters => letters = a.value.toList

/-- A message and what it is about. -/
structure Remark where
  subject : Subject
  message : Message
  deriving DecidableEq, Repr

/-- A remark is anchored in a text if the range of its message is where its subject is written. -/
structure Remark.Anchored (text : List Char) (k : Remark) : Prop where
  stop_le : k.message.position + k.message.length ≤ byteCount text
  written : ∃ letters, k.subject.WrittenAs letters ∧
    Spells text k.message.position (k.message.position + k.message.length) letters

/-- A remark about a part that stands in a text is anchored there. -/
theorem Remark.Anchored.of_occursAt {text letters : List Char} {s : Subject} {m : Message}
    {position length : Nat} (h : OccursAt text position letters) (hs : s.WrittenAs letters)
    (hm : m.Covers position length) (hlength : byteCount letters = length) :
    Remark.Anchored text ⟨s, m⟩ := by
  obtain ⟨rfl, rfl⟩ := hm
  have hspells : Spells text m.position (m.position + m.length) letters :=
    h.spells (by rw [hlength])
  exact ⟨hspells.isBoundary_stop.le, letters, hs, hspells⟩

namespace Subject

/-- Messages about a subject. -/
def about (s : Subject) (ms : List Message) : List Remark := ms.map (Remark.mk s)

@[simp] theorem map_message_about (s : Subject) (ms : List Message) :
    (s.about ms).map Remark.message = ms := by
  rw [about, List.map_map]
  exact List.map_id ms

@[simp] theorem mem_about {s : Subject} {ms : List Message} {k : Remark} :
    k ∈ s.about ms ↔ k.subject = s ∧ k.message ∈ ms := by
  obtain ⟨subject, message⟩ := k
  simp [about, eq_comm, and_comm]

end Subject

namespace RuleSet

/-- The remarks about a run of text: on its filters, then on its aliases. -/
def textRemarks (r : RuleSet) (run : TextRun) : List Remark :=
  if run.content.toList.all isWhiteSpace then []
  else
    (run.filters.flatMap fun f => Subject.about (.filter f)
      (r.migrateFilter f (run.start + f.start) (f.stop - f.start)).messages) ++
    Subject.about .controllerAlias (r.migrateExpression run.content run.start).messages

/-- The remarks about the value of an attribute: on the value, then on its aliases. -/
def valueRemarks (r : RuleSet) (a : Attribute) : List Remark :=
  if !a.hasValue then []
  else
    Subject.about (.value a) (r.transformedValue a).messages ++
    if r.replacesValue a || Message.anyError (r.transformedValue a).messages then []
    else Subject.about .controllerAlias (r.migrateExpression a.value a.valueStart).messages

/-- The remarks about an attribute: on its value, then on its name. -/
def attributeRemarks (r : RuleSet) (a : Attribute) : List Remark :=
  if r.isUnsupportedAttribute a.name then
    Subject.about (.name a) [.error a.start (byteLength a.name) ("Unsupported property " ++ a.name)]
  else
    r.valueRemarks a ++
    if Message.anyError (r.valueChanges a).messages then []
    else Subject.about (.name a) (r.nameChanges a).messages

/-- The remarks about an occurrence. -/
def remarksAt (r : RuleSet) : Occurrence → List Remark
  | .text run => r.textRemarks run
  | .attr a => r.attributeRemarks a
  | .modelName tag => (tag.attribute? "ng-model").toList.flatMap fun model =>
      Subject.about (.name model) (modelNameChanges tag).messages

/-- The remarks about a forest, in the order of the walk. -/
def remarks (r : RuleSet) (forest : List Node) : List Remark :=
  (Node.occurrences forest).flatMap r.remarksAt

/-! ### Remarks are the messages -/

variable {r : RuleSet}

theorem map_message_textRemarks (r : RuleSet) (run : TextRun) :
    (r.textRemarks run).map Remark.message = (r.textChanges run).messages := by
  rw [textRemarks, textChanges]
  split
  · rfl
  · simp [List.map_flatMap, List.flatMap_map, Changes.messages_append, TextRun.filters]

/-- Without their subjects, the remarks about a value are its messages. -/
theorem map_message_valueRemarks (r : RuleSet) (a : Attribute) :
    (r.valueRemarks a).map Remark.message = (r.valueChanges a).messages := by
  rw [valueRemarks, valueChanges_eq]
  split
  · rfl
  · split <;> simp

/-- So are those about an attribute. -/
theorem map_message_attributeRemarks (r : RuleSet) (a : Attribute) :
    (r.attributeRemarks a).map Remark.message = (r.attributeChanges a).messages := by
  rw [attributeRemarks, attributeChanges]
  split
  · simp
  · by_cases herror : Message.anyError (r.valueChanges a).messages
    · simp [herror, map_message_valueRemarks]
    · simp [herror, map_message_valueRemarks, Changes.messages_append]

/-- So are those about any occurrence. -/
theorem map_message_remarksAt (r : RuleSet) (o : Occurrence) :
    (r.remarksAt o).map Remark.message = r.messagesAt o := by
  cases o with
  | text run => exact r.map_message_textRemarks run
  | attr a => exact r.map_message_attributeRemarks a
  | modelName tag =>
      cases hmodel : tag.attribute? "ng-model" with
      | none => simp [remarksAt, messagesAt, changesAt, modelNameChanges, hmodel, Changes.none]
      | some model => simp [remarksAt, messagesAt, changesAt, hmodel]

/-- Without their subjects, the remarks about a forest are its messages. -/
theorem map_message_remarks (r : RuleSet) (forest : List Node) :
    (r.remarks forest).map Remark.message = (r.forestChanges forest).messages := by
  simp [remarks, messages_forestChanges, List.map_flatMap, map_message_remarksAt]

/-! ### How remarks come about -/

/-- How a remark about an occurrence comes about. -/
inductive Arises (r : RuleSet) : Occurrence → Remark → Prop where
  | filter {run : TextRun} {f : Filter} {m : Message} (hf : f ∈ run.filters)
      (hm : m ∈ (r.migrateFilter f (run.start + f.start) (f.stop - f.start)).messages) :
      Arises r (.text run) ⟨.filter f, m⟩
  | textAlias {run : TextRun} {m : Message}
      (hm : m ∈ (r.migrateExpression run.content run.start).messages) :
      Arises r (.text run) ⟨.controllerAlias, m⟩
  | unsupported {a : Attribute} (h : r.isUnsupportedAttribute a.name) :
      Arises r (.attr a)
        ⟨.name a, .error a.start (byteLength a.name) ("Unsupported property " ++ a.name)⟩
  | value {a : Attribute} {t : ValueTransform} {m : Message}
      (ht : r.valueTransform? a.name = some t)
      (hm : m ∈ (t.apply a.value a.valueStart r).messages) : Arises r (.attr a) ⟨.value a, m⟩
  | valueAlias {a : Attribute} {m : Message}
      (hm : m ∈ (r.migrateExpression a.value a.valueStart).messages) :
      Arises r (.attr a) ⟨.controllerAlias, m⟩
  | renamed {a : Attribute} {m : Message} (hm : m ∈ (r.nameChanges a).messages) :
      Arises r (.attr a) ⟨.name a, m⟩
  | model {tag : StartTag} {a : Attribute} {m : Message}
      (ha : tag.attribute? "ng-model" = some a) (hm : m ∈ (modelNameChanges tag).messages) :
      Arises r (.modelName tag) ⟨.name a, m⟩

variable {k : Remark}

/-- What is said about a value comes from its value transform. -/
theorem exists_of_mem_transformedValue {a : Attribute} {m : Message}
    (h : m ∈ (r.transformedValue a).messages) :
    ∃ t, r.valueTransform? a.name = some t ∧ m ∈ (t.apply a.value a.valueStart r).messages := by
  cases ht : r.valueTransform? a.name with
  | none => simp [transformedValue, ht] at h
  | some t => exact ⟨t, rfl, by simpa [transformedValue, ht] using h⟩

/-- How the remarks about a run of text come about. -/
theorem arises_of_mem_textRemarks {run : TextRun} (h : k ∈ r.textRemarks run) :
    r.Arises (.text run) k := by
  obtain ⟨subject, m⟩ := k
  rw [textRemarks] at h
  split at h
  · contradiction
  · simp only [List.mem_append, List.mem_flatMap, Subject.mem_about] at h
    obtain ⟨f, hf, rfl, hm⟩ | ⟨rfl, hm⟩ := h
    · exact .filter hf hm
    · exact .textAlias hm

/-- How the remarks about a value come about. -/
theorem arises_of_mem_valueRemarks {a : Attribute} (h : k ∈ r.valueRemarks a) :
    r.Arises (.attr a) k := by
  obtain ⟨subject, m⟩ := k
  rw [valueRemarks] at h
  split at h
  · contradiction
  · obtain h | h := List.mem_append.mp h
    · obtain ⟨rfl, hm⟩ := Subject.mem_about.mp h
      obtain ⟨t, ht, hm⟩ := exists_of_mem_transformedValue hm
      exact .value ht hm
    · split at h
      · contradiction
      · obtain ⟨rfl, hm⟩ := Subject.mem_about.mp h
        exact .valueAlias hm

/-- How the remarks about an attribute come about. -/
theorem arises_of_mem_attributeRemarks {a : Attribute} (h : k ∈ r.attributeRemarks a) :
    r.Arises (.attr a) k := by
  obtain ⟨subject, m⟩ := k
  rw [attributeRemarks] at h
  split at h
  · next hunsupported =>
      simp only [Subject.mem_about, List.mem_singleton] at h
      obtain ⟨rfl, rfl⟩ := h
      exact .unsupported hunsupported
  · obtain h | h := List.mem_append.mp h
    · exact arises_of_mem_valueRemarks h
    · split at h
      · contradiction
      · obtain ⟨rfl, hm⟩ := Subject.mem_about.mp h
        exact .renamed hm

/-- How the remarks about any occurrence come about. -/
theorem arises_of_mem_remarksAt {o : Occurrence} (h : k ∈ r.remarksAt o) : r.Arises o k := by
  cases o with
  | text run => exact arises_of_mem_textRemarks h
  | attr a => exact arises_of_mem_attributeRemarks h
  | modelName tag =>
      obtain ⟨subject, m⟩ := k
      simp only [remarksAt, List.mem_flatMap, Option.mem_toList, Subject.mem_about] at h
      obtain ⟨a, ha, rfl, hm⟩ := h
      exact .model ha hm

/-! ### What can be said about a subject -/

/-- What the rules can say about a subject. -/
def Tells (r : RuleSet) : Subject → Message → Prop
  | .name a, m =>
      (r.isUnsupportedAttribute a.name ∧ m.level = .error ∧
        m.text = "Unsupported property " ++ a.name) ∨
      (∃ rule, r.rename? a.name = some rule ∧ m.level = .info ∧
        m.text = "Update property " ++ a.name ++ " to " ++ rule.newName) ∨
      (a.name = "ng-model" ∧ m.level = .info ∧ ∃ name, m.text =
        "Add property " ++ ("name=\"" ++ name ++ "\"") ++ " to use `[(ngModel)]` inside a form")
  | .controllerAlias, m => m = Alias.message m.position
  | .filter f, m => m ∈ (r.migrateFilter f m.position m.length).messages
  | .value a, m => ∃ t, r.valueTransform? a.name = some t ∧
      m ∈ (t.apply a.value a.valueStart r).messages

/-- A new name is announced at the old one. -/
theorem exists_of_mem_nameChanges {a : Attribute} {m : Message}
    (h : m ∈ (r.nameChanges a).messages) :
    ∃ rule, r.rename? a.name = some rule ∧ m = .info a.start (byteLength a.name)
      ("Update property " ++ a.name ++ " to " ++ rule.newName) rule.url := by
  rw [nameChanges] at h
  split at h
  · contradiction
  · next rule hrule => exact ⟨rule, hrule, List.mem_singleton.mp h⟩

/-- A name for a form model is announced at the model. -/
theorem exists_of_mem_modelNameChanges {tag : StartTag} {a : Attribute} {m : Message}
    (ha : tag.attribute? "ng-model" = some a) (h : m ∈ (modelNameChanges tag).messages) :
    ∃ name, m = .info a.start (byteLength a.name)
      ("Add property " ++ ("name=\"" ++ name ++ "\"") ++ " to use `[(ngModel)]` inside a form")
      (some "https://angular.io/api/forms/NgModel") := by
  rw [modelNameChanges] at h
  split at h
  · next model hmodel _ =>
      obtain rfl : a = model := Option.some.inj (ha.symm.trans hmodel)
      exact ⟨_, List.mem_singleton.mp h⟩
  · contradiction

/-- What is said about a subject is what the rules can say about it. -/
theorem Arises.tells {o : Occurrence} (h : r.Arises o k) : r.Tells k.subject k.message := by
  cases h with
  | filter _ hm =>
      obtain ⟨hposition, hlength⟩ := (says_of_mem_migrateFilter hm).covers
      rw [Tells, hposition, hlength]
      exact hm
  | textAlias hm | valueAlias hm =>
      obtain ⟨offset, -, rfl⟩ := exists_of_mem_migrateExpression hm
      rfl
  | unsupported hunsupported => exact .inl ⟨hunsupported, rfl, rfl⟩
  | value ht hm => exact ⟨_, ht, hm⟩
  | renamed hm =>
      obtain ⟨rule, hrule, rfl⟩ := exists_of_mem_nameChanges hm
      exact .inr (.inl ⟨rule, hrule, rfl, rfl⟩)
  | model ha hm =>
      obtain ⟨name, rfl⟩ := exists_of_mem_modelNameChanges ha hm
      have hname := List.find?_some ha
      rw [beq_iff_eq] at hname
      exact .inr (.inr ⟨hname, rfl, name, rfl⟩)

end RuleSet

/-! ## Anchors -/

/-- An occurrence stands in a text. -/
def Occurrence.Placed (text : List Char) : Occurrence → Prop
  | .text run => run.Placed text
  | .attr a => a.Placed text
  | .modelName tag => ∀ a ∈ tag.attributes, a.Placed text

mutual

theorem Node.placed_of_mem_occurrencesOf {text : List Char} {o : Occurrence} (n : Node)
    (h : ∀ i ∈ n.items, i.Placed text) (ho : o ∈ n.occurrencesOf) : o.Placed text := by
  cases n with
  | text run =>
      rw [occurrencesOf, List.mem_singleton] at ho
      rw [ho]
      exact h (.text run) (by simp)
  | element tag children =>
      obtain ⟨stop, -, htag⟩ := h (.tag tag) (by simp)
      simp only [occurrencesOf, List.mem_append, List.mem_map, List.mem_singleton] at ho
      obtain (ho | ⟨a, ha, rfl⟩) | rfl := ho
      · exact placed_of_mem_occurrences children (fun i hi => h i (by simp [hi])) ho
      · exact htag.attributes.placed_of_mem ha
      · exact fun a ha => htag.attributes.placed_of_mem ha

/-- The occurrences of a forest stand where its items stand. -/
theorem Node.placed_of_mem_occurrences {text : List Char} {o : Occurrence} (ns : List Node)
    (h : ∀ i ∈ contents ns, i.Placed text) (ho : o ∈ occurrences ns) : o.Placed text := by
  cases ns with
  | nil =>
      rw [occurrences] at ho
      contradiction
  | cons n ns =>
      rw [occurrences, List.mem_append] at ho
      obtain ho | ho := ho
      · exact placed_of_mem_occurrencesOf n (fun i hi => h i (by simp [hi])) ho
      · exact placed_of_mem_occurrences ns (fun i hi => h i (by simp [hi])) ho

end

namespace Remark

variable {text : List Char} {m : Message}

/-- A remark about a name is anchored where the name is written. -/
theorem anchored_name {a : Attribute} (h : a.Placed text)
    (hm : m.Covers a.start (byteLength a.name)) : Anchored text ⟨.name a, m⟩ := by
  obtain ⟨letters, -, hname, hoccurs⟩ := h.name
  exact .of_occursAt hoccurs hname hm (by rw [hname, byteLength_lowerCase])

/-- A remark about an alias is anchored where the alias is written. -/
theorem anchored_alias {r : RuleSet} {expression : String} {start : Nat}
    (h : OccursAt text start expression.toList)
    (hm : m ∈ (r.migrateExpression expression start).messages) :
    Anchored text ⟨.controllerAlias, m⟩ := by
  obtain ⟨offset, hoffset, rfl⟩ := RuleSet.exists_of_mem_migrateExpression hm
  exact .of_occursAt (h.trans (Alias.occursAt_of_mem_offsets hoffset)) rfl ⟨rfl, rfl⟩ rfl

/-- A remark about a filter is anchored where the filter is written. -/
theorem anchored_filter {r : RuleSet} {run : TextRun} {f : Filter} (h : run.Placed text)
    (hf : f ∈ run.filters)
    (hm : m ∈ (r.migrateFilter f (run.start + f.start) (f.stop - f.start)).messages) :
    Anchored text ⟨.filter f, m⟩ := by
  obtain ⟨letters, hoccurs, hwritten, hstop⟩ := Filter.exists_writtenAs hf
  exact .of_occursAt (h.occurs.trans hoccurs) hwritten
    (RuleSet.says_of_mem_migrateFilter hm).covers (by omega)

end Remark

namespace RuleSet

variable {r : RuleSet} {k : Remark}

/-- However a remark comes about, it is anchored. -/
theorem Arises.anchored {text : List Char} {o : Occurrence} (h : r.Arises o k)
    (ho : o.Placed text) : k.Anchored text := by
  cases h with
  | filter hf hm => exact Remark.anchored_filter ho hf hm
  | textAlias hm => exact Remark.anchored_alias ho.occurs hm
  | unsupported => exact Remark.anchored_name ho ⟨rfl, rfl⟩
  | value _ hm => exact .of_occursAt ho.value rfl (says_of_mem_apply hm).covers rfl
  | valueAlias hm => exact Remark.anchored_alias ho.value hm
  | renamed hm =>
      obtain ⟨rule, -, rfl⟩ := exists_of_mem_nameChanges hm
      exact Remark.anchored_name ho ⟨rfl, rfl⟩
  | model ha hm =>
      obtain ⟨name, rfl⟩ := exists_of_mem_modelNameChanges ha hm
      exact Remark.anchored_name (ho _ (List.mem_of_find?_eq_some ha)) ⟨rfl, rfl⟩

/-- All remarks about a source are anchored in it. -/
theorem anchored_of_mem_remarks_parse {source : String} (h : k ∈ r.remarks (Node.parse source)) :
    k.Anchored source.toList := by
  obtain ⟨o, ho, hk⟩ := List.mem_flatMap.mp h
  exact (arises_of_mem_remarksAt hk).anchored
    (Node.placed_of_mem_occurrences _ (fun _ => placed_of_mem_contents_parse) ho)

/-- Every message of a migration stands in its source. -/
theorem position_le_of_mem_forestChanges {source : String} {m : Message}
    (h : m ∈ (r.forestChanges (Node.parse source)).messages) :
    m.position ≤ byteLength source := by
  rw [← map_message_remarks] at h
  obtain ⟨k, hk, rfl⟩ := List.mem_map.mp h
  exact Nat.le_of_add_right_le (anchored_of_mem_remarks_parse hk).stop_le

/-- **Messages are anchored on what they talk about.**  The messages of a template are remarks, each
about one subject: the rules can say what it says about that subject, its range lies in the source
between two boundaries, and there the subject is written.  A migration reports these messages and no
others. -/
theorem remarks_parse_anchored (r : RuleSet) (source : String) :
    (r.remarks (Node.parse source)).map Remark.message =
        (r.forestChanges (Node.parse source)).messages ∧
      (∀ k ∈ r.remarks (Node.parse source),
        r.Tells k.subject k.message ∧ k.Anchored source.toList) ∧
      ∀ migration, Migration.ofTemplate r source = .ok migration →
        migration.diagnostics.Perm
          ((r.remarks (Node.parse source)).map (·.message.place source)) := by
  refine ⟨r.map_message_remarks _, ?_, ?_⟩
  · intro k hk
    obtain ⟨o, -, hremark⟩ := List.mem_flatMap.mp hk
    exact ⟨(arises_of_mem_remarksAt hremark).tells, anchored_of_mem_remarks_parse hk⟩
  · intro migration hmigration
    obtain ⟨patch, -, rfl⟩ := Migration.exists_patch_of_ofForest hmigration
    have hplaces : (r.remarks (Node.parse source)).map (·.message.place source) =
        (r.forestChanges (Node.parse source)).messages.map (·.place source) := by
      rw [← map_message_remarks, List.map_map]
      rfl
    rw [hplaces, ← Message.mergeSort_eq_errorsFirst]
    exact (List.mergeSort_perm _ _).map _

/-- A name in upper case with an alias in its bare value, a filter inside a repeat expression, an
attribute without counterpart and a filter with blanks in it, behind a letter of two bytes. -/
theorem remarks_parse_anchored_mixed :
    let source := "é<i NG-MODEL=vm.x ng-repeat='i in b|orderBy:c' ng-app>{{ b | orderBy : c }}</i>"
    (default.remarks (Node.parse source)).map (fun k => String.ofList
        (slice k.message.position (k.message.position + k.message.length) source.toList)) =
      ["orderBy : c", "vm.", "NG-MODEL", "i in b|orderBy:c", "ng-app", "NG-MODEL"] ∧
    ∀ k ∈ default.remarks (Node.parse source),
      default.Tells k.subject k.message ∧ k.Anchored source.toList := by
  intro source
  exact ⟨by decide +kernel, (remarks_parse_anchored default source).2.1⟩

end RuleSet

end TemplateMigration
