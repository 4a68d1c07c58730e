import TemplateMigration.Proofs.Migration.Blocking
import TemplateMigration.Proofs.Session.Memory

/-!
# TemplateMigration.Proofs.Migration.Reported

No template is changed in silence.

Edits and messages are put together in different places: value transforms, the alias, renames,
filters and names of form models.  Each of them reports what it edits (`Changes.Reported`): for
every range that is replaced there is an info about that very range, and an inserted text is
quoted by an info.  So a migration without an info has no edits, and what it may still drop are end
tags of void elements.
-/

namespace TemplateMigration

/-- An info that tells of an edit: it is about the range that is replaced, or it quotes the text
that is inserted. -/
def Message.Reports (m : Message) : SourceEdit → Prop
  | .replace offset length _ => m.level = .info ∧ m.position = offset ∧ m.length = length
  | .insert _ text =>
      m.level = .info ∧ m.text = "Add property" ++ text ++ " to use `[(ngModel)]` inside a form"

/-- Every edit is told of. -/
def Changes.Reported (c : Changes) : Prop := ∀ e ∈ c.edits, ∃ m ∈ c.messages, m.Reports e

theorem Message.Reports.level_eq {m : Message} {e : SourceEdit} (h : m.Reports e) :
    m.level = .info := by
  cases e with
  | replace offset length text => exact h.1
  | insert offset text => exact h.1

namespace Changes.Reported

variable {a b : Changes} {parts : List Changes}

theorem of_edits_eq_nil (h : a.edits = []) : a.Reported := by
  intro e he
  rw [h] at he
  contradiction

/-- Two lists of changes that are each reported are reported together. -/
theorem append (ha : a.Reported) (hb : b.Reported) : (a ++ b).Reported := by
  intro e he
  obtain he | he := List.mem_append.mp he
  · obtain ⟨m, hm, hreports⟩ := ha e he
    exact ⟨m, List.mem_append_left _ hm, hreports⟩
  · obtain ⟨m, hm, hreports⟩ := hb e he
    exact ⟨m, List.mem_append_right _ hm, hreports⟩

theorem join (h : ∀ c ∈ parts, c.Reported) : (Changes.join parts).Reported := by
  intro e he
  obtain ⟨c, hc, he⟩ := List.mem_flatMap.mp he
  obtain ⟨m, hm, hreports⟩ := h c hc e he
  exact ⟨m, List.mem_flatMap.mpr ⟨c, hc, hm⟩, hreports⟩

/-- Where nothing is told, nothing is edited. -/
theorem edits_eq_nil (h : a.Reported) (hnone : ∀ m ∈ a.messages, m.level ≠ .info) :
    a.edits = [] := by
  apply List.eq_nil_iff_forall_not_mem.mpr
  intro e he
  obtain ⟨m, hm, hreports⟩ := h e he
  exact hnone m hm hreports.level_eq

end Changes.Reported

/-! ## Parts of a template -/

namespace RuleSet

variable {r : RuleSet} {a : Attribute} {run : TextRun}

/-- Each alias that is dropped is reported where it stands. -/
theorem exists_message_of_mem_migrateExpression {expression : String} {start : Nat} {e : Edit}
    (h : e ∈ (r.migrateExpression expression start).edits) :
    ∃ m ∈ (r.migrateExpression expression start).messages, m.Reports (.ofEdit start e) := by
  obtain heq | heq := r.migrateExpression_cases expression start
  · rw [heq] at h
    contradiction
  · rw [heq] at h ⊢
    obtain ⟨offset, hoffset, rfl⟩ := List.mem_map.mp h
    exact ⟨_, List.mem_map_of_mem hoffset, rfl, rfl, rfl⟩

/-- A filter that is replaced is reported where it stands. -/
theorem exists_message_of_replacement {f : Filter} {position length : Nat} {new : String}
    (h : (r.migrateFilter f position length).replacement = some new) :
    ∃ m ∈ (r.migrateFilter f position length).messages,
      m.Reports (.replace position length new) := by
  obtain ⟨-, heq⟩ | ⟨-, -, heq⟩ | ⟨-, t, -, -, heq⟩ := r.migrateFilter_cases f position length
  · rw [heq] at h
    contradiction
  · rw [heq] at h
    contradiction
  · rw [heq] at h ⊢
    exact ⟨_, List.mem_singleton_self _, rfl, rfl, rfl⟩

/-- Every edit in text is reported. -/
theorem reported_textChanges (r : RuleSet) (run : TextRun) : (r.textChanges run).Reported := by
  intro edit hedit
  rw [textChanges] at hedit ⊢
  split at hedit
  · contradiction
  · next hblank =>
      rw [if_neg hblank]
      obtain hfilter | halias := List.mem_append.mp hedit
      · obtain ⟨⟨f, migrated⟩, hmem, hsome⟩ := List.mem_filterMap.mp hfilter
        obtain ⟨new, hnew, rfl⟩ := Option.map_eq_some_iff.mp hsome
        obtain ⟨g, -, heq⟩ := List.mem_map.mp hmem
        obtain ⟨rfl, rfl⟩ := Prod.mk.inj heq
        obtain ⟨m, hm, hreports⟩ := exists_message_of_replacement hnew
        exact ⟨m, List.mem_append_left _ (List.mem_flatMap.mpr ⟨_, hmem, hm⟩), hreports⟩
      · obtain ⟨e, he, rfl⟩ := List.mem_map.mp halias
        obtain ⟨m, hm, hreports⟩ :=
          exists_message_of_mem_migrateExpression (List.mem_of_mem_filter he)
        exact ⟨m, List.mem_append_right _ hm, hreports⟩

/-- A value transform that changes a value reports the value as a whole. -/
theorem exists_message_of_apply {t : ValueTransform} {value : String} {start : Nat}
    (h : (t.apply value start r).value ≠ value) :
    ∃ m ∈ (t.apply value start r).messages,
      m.Reports (.replace start (byteLength value) (t.apply value start r).value) := by
  cases t with
  | hiddenNegation => exact ⟨_, List.mem_singleton_self _, rfl, rfl, rfl⟩
  | repeatToFor =>
      simp only [ValueTransform.apply, repeatToFor] at h ⊢
      split at h
      · contradiction
      · split at h
        · contradiction
        · split at h
          · contradiction
          · next hnone =>
              rw [if_neg hnone]
              exact ⟨_, List.mem_cons_self, rfl, rfl, rfl⟩

/-- Every edit in a value is reported. -/
theorem reported_valueChanges (r : RuleSet) (a : Attribute) : (r.valueChanges a).Reported := by
  intro edit hedit
  rw [valueChanges] at hedit ⊢
  split at hedit
  · contradiction
  · next hhas =>
      rw [if_neg hhas]
      extract_lets transformed at hedit
      extract_lets
      split at hedit
      · contradiction
      · next herror =>
          rw [if_neg herror]
          split at hedit
          · next hchanged =>
              rw [if_pos hchanged]
              obtain rfl := List.mem_singleton.mp hedit
              have hne : transformed.value ≠ a.value := by simpa using hchanged
              simp only [transformed] at hne ⊢
              cases ht : r.valueTransform? a.name with
              | none => simp [ht] at hne
              | some t =>
                  simp only [ht] at hne ⊢
                  exact exists_message_of_apply hne
          · next hsame =>
              rw [if_neg hsame]
              obtain ⟨e, he, rfl⟩ := List.mem_map.mp hedit
              obtain ⟨m, hm, hreports⟩ := exists_message_of_mem_migrateExpression he
              exact ⟨m, List.mem_append_right _ hm, hreports⟩

/-- Every renaming of an attribute is reported. -/
theorem reported_nameChanges (r : RuleSet) (a : Attribute) : (r.nameChanges a).Reported := by
  rw [nameChanges]
  split
  · exact .of_edits_eq_nil rfl
  · intro edit hedit
    obtain rfl := List.mem_singleton.mp hedit
    exact ⟨_, List.mem_singleton_self _, rfl, rfl, rfl⟩

theorem reported_attributeChanges (r : RuleSet) (a : Attribute) :
    (r.attributeChanges a).Reported := by
  simp only [attributeChanges]
  split
  · exact .of_edits_eq_nil rfl
  · split
    · exact r.reported_valueChanges a
    · exact (r.reported_valueChanges a).append (r.reported_nameChanges a)

/-- The name of a form model is reported with its text, at the attribute that asks for it. -/
theorem reported_modelNameChanges (tag : StartTag) : (modelNameChanges tag).Reported := by
  rw [modelNameChanges]
  split
  · intro edit hedit
    obtain rfl := List.mem_singleton.mp hedit
    have hquote : ∀ property rest : String,
        "Add property " ++ property ++ rest = "Add property" ++ (" " ++ property) ++ rest := by
      intro property rest
      have hspace : "Add property " = "Add property" ++ " " := by decide
      simp only [hspace, String.append_assoc]
    exact ⟨_, List.mem_singleton_self _, rfl, hquote _ _⟩
  · exact .of_edits_eq_nil rfl

/-- Every edit in a tag is reported. -/
theorem reported_tagChanges (r : RuleSet) (tag : StartTag) : (r.tagChanges tag).Reported := by
  refine .append (.join ?_) (reported_modelNameChanges tag)
  intro c hc
  obtain ⟨a, -, rfl⟩ := List.mem_map.mp hc
  exact r.reported_attributeChanges a

/-! ## Templates -/

mutual

/-- Every edit of a node and of what it holds is reported. -/
theorem reported_nodeChanges (r : RuleSet) (n : Node) : (r.nodeChanges n).Reported := by
  cases n with
  | text run =>
      rw [nodeChanges]
      exact r.reported_textChanges run
  | element tag children =>
      rw [nodeChanges]
      exact (r.reported_forestChanges children).append (r.reported_tagChanges tag)

/-- Every edit of a forest is told of. -/
theorem reported_forestChanges (r : RuleSet) (ns : List Node) : (r.forestChanges ns).Reported := by
  cases ns with
  | nil =>
      rw [forestChanges]
      exact .of_edits_eq_nil rfl
  | cons n ns =>
      rw [forestChanges]
      exact (r.reported_nodeChanges n).append (r.reported_forestChanges ns)

end

end RuleSet

theorem Message.mem_errorsFirst {m : Message} {ms : List Message} :
    m ∈ errorsFirst ms ↔ m ∈ ms := by
  rw [errorsFirst, List.mem_append, List.mem_filter, List.mem_filter]
  cases m.isError <;> simp

namespace Migration

variable {rules : RuleSet} {source : String} {nodes : List Node} {m : Migration}

/-- Changes without edits leave a text but for the end tags of void elements. -/
theorem ofChanges_of_edits_eq_nil {changes : Changes} (h : changes.edits = []) :
    ofChanges source changes =
      .ok ⟨source, VoidEndTag.strip source,
        (Message.errorsFirst changes.messages).map (·.place source)⟩ := by
  have hrender : (Patch.ofText source).render = source := by
    simp [Patch.ofText, Patch.render, Chain.render, Piece.render]
  rw [ofChanges, h]
  simp [hrender, pure, Except.pure, bind, Except.bind]

/-- The diagnostics are the messages of the changes, errors first, each at its place. -/
theorem diagnostics_of_ofForest (h : ofForest rules source nodes = .ok m) :
    m.diagnostics = (Message.errorsFirst (rules.forestChanges nodes).messages).map
      (·.place source) := by
  obtain ⟨patch, -, rfl⟩ := exists_patch_of_ofForest h
  rfl

/-- A migration without an info drops end tags of void elements and does nothing else, whatever
forest it is given. -/
theorem text_eq_strip (h : ofForest rules source nodes = .ok m)
    (hnone : ∀ d ∈ m.diagnostics, d.level ≠ .info) : m.text = VoidEndTag.strip source := by
  have hmessages : ∀ msg ∈ (rules.forestChanges nodes).messages, msg.level ≠ .info := by
    intro msg hmsg
    have hplaced : msg.place source ∈ m.diagnostics := by
      rw [diagnostics_of_ofForest h]
      exact List.mem_map_of_mem (Message.mem_errorsFirst.mpr hmsg)
    exact hnone _ hplaced
  have hedits := (rules.reported_forestChanges nodes).edits_eq_nil hmessages
  rw [ofForest, ofChanges_of_edits_eq_nil hedits] at h
  cases h
  rfl

end Migration

/-- What a session gives for a template is the migration of some forest, and it succeeds. -/
theorem Session.Recalls.exists_ofForest_eq_ok {s : Session} {rules : RuleSet}
    {known : String → Option (List Node)} (h : s.Recalls rules known) {source : String}
    (hsize : byteLength source ≤ Patch.maxOffset) :
    ∃ nodes m, Migration.ofKnown rules source (known source) = .ok m ∧
      Migration.ofForest rules source nodes = .ok m := by
  have hok : ∃ m, Migration.ofKnown rules source (known source) = .ok m := by
    cases hremembered : s.remembered? source with
    | none =>
        rw [h.forest source hremembered]
        exact ⟨_, Migration.ofTemplate_eq_ok rules hsize⟩
    | some m => exact ⟨m, h.result source m hremembered⟩
  obtain ⟨m, hm⟩ := hok
  cases hknown : known source with
  | none =>
      rw [hknown] at hm
      exact ⟨Node.parse source, m, hm, hm⟩
  | some nodes =>
      rw [hknown] at hm
      exact ⟨nodes, m, hm, hm⟩

/-- **Every change is reported.**  Whatever calls a session has behind it and whatever its rules
are, it migrates a template, and if the result has no info then its text is the template without
end tags of void elements.  In particular this holds when there are no diagnostics at all. -/
theorem Session.text_migrate_eq_strip (rules : RuleSet) (calls : List Call) (source : String)
    (hsize : byteLength source ≤ Patch.maxOffset) :
    ∃ m, (((start rules).after calls).migrate source).1 = .ok m ∧
      ((∀ d ∈ m.diagnostics, d.level ≠ .info) → m.text = VoidEndTag.strip source) ∧
      (m.diagnostics = [] → m.text = VoidEndTag.strip source) := by
  have hrecalls := recalls_after (recalls_start rules) calls
  rw [migrate_eq hrecalls source]
  obtain ⟨nodes, m, hresult, hm⟩ := hrecalls.exists_ofForest_eq_ok hsize
  have htext := Migration.text_eq_strip hm
  refine ⟨m, hresult, htext, ?_⟩
  intro hnone
  apply htext
  simp [hnone]

/-- A template with an error and an end tag to drop, after a template that was changed. -/
theorem Session.text_migrate_eq_strip_blocked :
    byteLength "<br></BR><p ng-init=\"vm.x\"></p>" ≤ Patch.maxOffset ∧
      ∃ m, (((start .default).after [.template "<b ng-if=\"vm.x\">"]).migrate
          "<br></BR><p ng-init=\"vm.x\"></p>").1 = .ok m ∧
        m.hasErrors = true ∧ m.text = VoidEndTag.strip "<br></BR><p ng-init=\"vm.x\"></p>" := by
  have hsize : byteLength "<br></BR><p ng-init=\"vm.x\"></p>" ≤ Patch.maxOffset := by decide
  obtain ⟨m, hm, htext, -⟩ :=
    text_migrate_eq_strip .default [.template "<b ng-if=\"vm.x\">"] _ hsize
  have hlevels : (((start .default).after [.template "<b ng-if=\"vm.x\">"]).migrate
      "<br></BR><p ng-init=\"vm.x\"></p>").1.toOption.map (·.diagnostics.map (·.level)) =
        some [.error] := by
    decide +kernel
  rw [hm] at hlevels
  have hlevel : m.diagnostics.map (·.level) = [.error] := Option.some.inj hlevels
  refine ⟨hsize, m, hm, ?_, htext ?_⟩
  · have hany : (m.diagnostics.map (·.level)).any (· == .error) = true := by rw [hlevel]; rfl
    simpa [Migration.hasErrors, List.any_map, Function.comp_def] using hany
  · intro d hd
    have hmem : d.level ∈ m.diagnostics.map (·.level) := List.mem_map_of_mem hd
    rw [hlevel, List.mem_singleton] at hmem
    rw [hmem]
    decide

end TemplateMigration
