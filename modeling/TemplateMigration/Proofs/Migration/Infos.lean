import TemplateMigration.Proofs.Migration.Anchors
import TemplateMigration.Proofs.Migration.DefaultEdits
import TemplateMigration.Proofs.Migration.Reported

/-!
# TemplateMigration.Proofs.Migration.Infos

What is said about a template that stays as it is.

Since every edit can be seen, a template stays as it is exactly if it has no edits and no end tag to
remove (`Migration.hasChanges_eq_false_iff`).  Then nearly nothing is left to say: a text, a name or
an expression is talked about when it is edited, or when there is an error.  The exception are
repeat expressions.  Their filters are migrated before it is known whether the expression is
rejected, and the infos about them are kept (`RejectedFilter`).
-/

namespace TemplateMigration

/-- The info about a filter of a repeat expression that stays as it is, because there is an error
about the expression. -/
structure RejectedFilter (a : Attribute) (m : Message) : Prop where
  name_eq : a.name = "ng-repeat"
  anyError : Message.anyError (RuleSet.default.valueChanges a).messages = true
  exists_filter : ∃ e item, RepeatExpression.parse? a.value = some e ∧
    RepeatItem.parse? e.item = some item ∧
      ∃ f ∈ Filter.findAll (Tokens.read (String.ofList e.collection)).list,
        RuleSet.default.replaces f = true ∧
          m ∈ (RuleSet.default.migrateFilter f a.valueStart (byteLength a.value)).messages

theorem Changes.edits_eq_nil_iff {c : Changes} : c.edits = [] ↔ c.replacements = [] :=
  List.map_eq_nil_iff.symm

namespace RuleSet

variable {r : RuleSet} {a : Attribute} {m : Message}

/-! ## Filters and expressions -/

/-- There is an info about a filter exactly if it is replaced. -/
theorem level_migrateFilter {f : Filter} {position length : Nat}
    (h : m ∈ (r.migrateFilter f position length).messages) :
    m.level = .info ↔ r.replaces f = true := by
  rw [← isSome_replacement r f position length]
  obtain ⟨-, heq⟩ | ⟨-, -, heq⟩ | ⟨-, t, -, -, heq⟩ := r.migrateFilter_cases f position length
  · rw [heq] at h ⊢
    simp [List.mem_singleton.mp h, Message.error]
  · rw [heq] at h
    contradiction
  · rw [heq] at h ⊢
    simp [List.mem_singleton.mp h, Message.info]

theorem messages_migrateExpression_eq_nil {expression : String} (h : Alias.offsets expression = [])
    (start : Nat) : (default.migrateExpression expression start).messages = [] := by
  simp [migrateExpression, default, ExpressionTransform.apply, h, Edit.change]

/-! ## Repeat expressions -/

/-- The messages about a repeat expression that is read. -/
theorem mem_messages_repeatToFor {value : String} {start : Nat} {e : RepeatExpression}
    {item : RepeatItem} (he : RepeatExpression.parse? value = some e)
    (hitem : RepeatItem.parse? e.item = some item)
    (herror : Message.anyError (r.repeatToFor value start).messages = true) :
    (r.repeatToFor value start).messages =
      repeatFaults e item start (byteLength value) ++
        (r.migrateFilterChain (String.ofList e.collection) start (byteLength value)).messages := by
  simp only [repeatToFor, he, hitem] at herror ⊢
  split at herror
  · next h => rw [if_pos h]
  · next h =>
      rw [Message.anyError, List.any_cons] at herror
      simp_all [Message.anyError, Message.isError, Message.info]

/-- There are infos only about a repeat expression that is read. -/
theorem exists_repeat_of_info {value : String} {start : Nat}
    (h : m ∈ (r.repeatToFor value start).messages) (hinfo : m.level = .info) :
    ∃ e item, RepeatExpression.parse? value = some e ∧ RepeatItem.parse? e.item = some item := by
  have hunexpected : m ∉ [Message.error start (byteLength value) "Unexpected expression"] := by
    intro hmem
    rw [List.mem_singleton.mp hmem] at hinfo
    contradiction
  rw [repeatToFor] at h
  cases he : RepeatExpression.parse? value with
  | none =>
      rw [he] at h
      exact absurd h hunexpected
  | some e =>
      cases hitem : RepeatItem.parse? e.item with
      | none =>
          rw [he] at h
          simp only [hitem] at h
          exact absurd h hunexpected
      | some item => exact ⟨e, item, rfl, hitem⟩

/-! ## Attributes -/

/-- When there is an error about a value, all that is said about it comes from a value transform. -/
theorem exists_transform_of_anyError (h : Message.anyError (r.valueChanges a).messages = true) :
    ∃ t, r.valueTransform? a.name = some t ∧
      (r.valueChanges a).messages = (t.apply a.value a.valueStart r).messages := by
  have htransform := h
  rw [anyError_valueChanges, Bool.and_eq_true, Option.any_eq_true] at htransform
  obtain ⟨hvalue, t, ht, herror⟩ := htransform
  exact ⟨t, ht, by simp [valueChanges, hvalue, ht, herror]⟩

/-- The built-in rule for repeated elements. -/
theorem valueTransform?_eq_repeatToFor_iff {name : String} :
    default.valueTransform? name = some .repeatToFor ↔ name = "ng-repeat" := by
  have hentries : default.valueTransforms.entries =
    [("ng-repeat", .repeatToFor), ("ng-show", .hiddenNegation)] := by decide
  rw [valueTransform?, Table.find?, hentries, List.lookup_cons, List.lookup_cons]
  split
  · next hname => simpa using hname
  · next hname =>
      split <;> simp_all

theorem messages_valueChanges_of_anyError
    (h : Message.anyError (default.valueChanges a).messages = true) :
    a.name = "ng-repeat" ∧
      (default.valueChanges a).messages = (default.repeatToFor a.value a.valueStart).messages := by
  obtain ⟨t, ht, hmessages⟩ := exists_transform_of_anyError h
  cases t with
  | hiddenNegation =>
      rw [hmessages] at h
      contradiction
  | repeatToFor => exact ⟨valueTransform?_eq_repeatToFor_iff.mp ht, hmessages⟩

/-- The infos about a value that is rejected are those about the filters of a repeat expression. -/
theorem mem_messages_valueChanges_iff
    (h : Message.anyError (default.valueChanges a).messages = true) :
    m ∈ (default.valueChanges a).messages ∧ m.level = .info ↔ RejectedFilter a m := by
  obtain ⟨hname, hmessages⟩ := messages_valueChanges_of_anyError h
  have herror := h
  rw [hmessages] at herror
  constructor
  · rintro ⟨hm, hinfo⟩
    refine ⟨hname, h, ?_⟩
    rw [hmessages] at hm
    obtain ⟨e, item, he, hitem⟩ := exists_repeat_of_info hm hinfo
    rw [mem_messages_repeatToFor he hitem herror] at hm
    obtain hfault | hfilter := List.mem_append.mp hm
    · obtain ⟨text, -, url, rfl⟩ := exists_of_mem_repeatFaults hfault
      contradiction
    · obtain ⟨f, hf, hm⟩ := mem_messages_migrateFilterChain.mp hfilter
      exact ⟨e, item, he, hitem, f, hf, (level_migrateFilter hm).mp hinfo, hm⟩
  · rintro ⟨-, -, e, item, he, hitem, f, hf, hreplaces, hm⟩
    refine ⟨?_, (level_migrateFilter hm).mpr hreplaces⟩
    rw [hmessages, mem_messages_repeatToFor he hitem herror]
    exact List.mem_append_right _ (mem_messages_migrateFilterChain.mpr ⟨f, hf, hm⟩)

/-- A value that is not edited is not talked about, if its attribute keeps its name. -/
theorem messages_valueChanges_eq_nil (hrename : default.rename? a.name = none)
    (h : (default.valueChanges a).edits = []) : (default.valueChanges a).messages = [] := by
  rw [valueChanges_of_rename? hrename] at h ⊢
  cases hvalue : a.hasValue with
  | false => rfl
  | true =>
      simp only [hvalue, if_true] at h ⊢
      rw [edits_migrateExpression_default, List.map_eq_nil_iff, List.map_eq_nil_iff] at h
      exact messages_migrateExpression_eq_nil h _

/-- An attribute that stays as it is has no new name. -/
theorem rename?_eq_none_of_edits_eq_nil (h : (r.nameChanges a).edits = []) :
    r.rename? a.name = none := by
  rw [nameChanges] at h
  split at h
  · assumption
  · contradiction

/-- The infos about an attribute that stays as it is. -/
theorem mem_messages_attributeChanges_iff (h : (default.attributeChanges a).edits = []) :
    m ∈ (default.attributeChanges a).messages ∧ m.level = .info ↔ RejectedFilter a m := by
  by_cases herror : Message.anyError (default.valueChanges a).messages = true
  · have hsupported : default.isUnsupportedAttribute a.name = false := by
      rw [(messages_valueChanges_of_anyError herror).1]
      decide
    rw [attributeChanges, hsupported, ← mem_messages_valueChanges_iff herror]
    simp [herror]
  · have hnot : ¬ RejectedFilter a m := fun hm => herror hm.anyError
    rw [iff_false_right hnot]
    rintro ⟨hm, hinfo⟩
    rw [attributeChanges] at h hm
    split at hm
    · rw [List.mem_singleton.mp hm] at hinfo
      contradiction
    · next hsupported =>
        rw [if_neg hsupported] at h
        simp only [herror, Bool.false_eq_true, if_false] at h hm
        obtain ⟨hvalue, hname⟩ := List.append_eq_nil_iff.mp h
        have hrename := rename?_eq_none_of_edits_eq_nil hname
        obtain hm | hm := List.mem_append.mp hm
        · rw [messages_valueChanges_eq_nil hrename hvalue] at hm
          contradiction
        · rw [nameChanges, hrename] at hm
          contradiction

/-! ## Texts and start tags -/

/-- There is no info about a text that stays as it is. -/
theorem level_ne_info_of_mem_textChanges {run : TextRun} (h : (default.textChanges run).edits = [])
    (hm : m ∈ (default.textChanges run).messages) : m.level ≠ .info := by
  by_cases hblank : run.content.toList.all isWhiteSpace = true
  · rw [textChanges, if_pos hblank] at hm
    contradiction
  · rw [edits_textChanges_eq_nil_iff (by simpa using hblank)] at h
    obtain ⟨hfilters, halias⟩ := h
    have hoffsets : Alias.offsets run.content = [] := halias.resolve_left (by decide)
    rw [textChanges, if_neg hblank] at hm
    obtain hfilter | hexpression := List.mem_append.mp hm
    · obtain ⟨⟨f, migrated⟩, hf, hm⟩ := List.mem_flatMap.mp hfilter
      obtain ⟨g, hg, heq⟩ := List.mem_map.mp hf
      obtain ⟨rfl, rfl⟩ := Prod.mk.inj heq
      rw [Ne, level_migrateFilter hm, hfilters g hg]
      simp
    · rw [messages_migrateExpression_eq_nil hoffsets] at hexpression
      contradiction

theorem messages_modelNameChanges_eq_nil {tag : StartTag} (h : (modelNameChanges tag).edits = []) :
    (modelNameChanges tag).messages = [] := by
  rw [modelNameChanges] at h ⊢
  split at h
  · contradiction
  · rfl

/-- The infos about a start tag that stays as it is. -/
theorem mem_messages_tagChanges_iff {tag : StartTag} (h : (default.tagChanges tag).edits = []) :
    m ∈ (default.tagChanges tag).messages ∧ m.level = .info ↔
      ∃ a ∈ tag.attributes, RejectedFilter a m := by
  obtain ⟨hattributes, hmodel⟩ := List.append_eq_nil_iff.mp h
  have hquiet : ∀ a ∈ tag.attributes, (default.attributeChanges a).edits = [] := by
    intro a ha
    exact List.flatMap_eq_nil_iff.mp hattributes _ (List.mem_map_of_mem ha)
  have hmessages : m ∈ (default.tagChanges tag).messages ↔
      ∃ a ∈ tag.attributes, m ∈ (default.attributeChanges a).messages := by
    show m ∈ (Changes.join _).messages ++ (modelNameChanges tag).messages ↔ _
    rw [messages_modelNameChanges_eq_nil hmodel, List.append_nil]
    simp [Changes.join]
  rw [hmessages]
  constructor
  · rintro ⟨⟨a, ha, hm⟩, hinfo⟩
    exact ⟨a, ha, (mem_messages_attributeChanges_iff (hquiet a ha)).mp ⟨hm, hinfo⟩⟩
  · rintro ⟨a, ha, hfilter⟩
    obtain ⟨hm, hinfo⟩ := (mem_messages_attributeChanges_iff (hquiet a ha)).mpr hfilter
    exact ⟨⟨a, ha, hm⟩, hinfo⟩

/-! ## Templates -/

/-- Nothing in a forest is edited exactly if no text and no start tag of it is. -/
theorem edits_forestChanges_eq_nil_iff {ns : List Node} :
    (r.forestChanges ns).edits = [] ↔ ∀ i ∈ Node.contents ns, (r.itemChanges i).edits = [] := by
  have hperm := r.perm_replacements_forestChanges ns
  rw [Changes.edits_eq_nil_iff]
  constructor
  · intro hnil i hi
    rw [hnil] at hperm
    exact Changes.edits_eq_nil_iff.mpr (List.flatMap_eq_nil_iff.mp hperm.symm.eq_nil i hi)
  · intro hnone
    rw [List.flatMap_eq_nil_iff.mpr fun i hi => Changes.edits_eq_nil_iff.mp (hnone i hi)] at hperm
    exact hperm.eq_nil

/-- The infos about a template without edits. -/
theorem mem_messages_forestChanges_iff {ns : List Node}
    (h : (default.forestChanges ns).edits = []) :
    m ∈ (default.forestChanges ns).messages ∧ m.level = .info ↔
      ∃ tag, .tag tag ∈ Node.contents ns ∧ ∃ a ∈ tag.attributes, RejectedFilter a m := by
  constructor
  · rintro ⟨hm, hinfo⟩
    obtain ⟨i, hi, hm⟩ := (mem_messages_forestChanges ns).mp hm
    have hnone := edits_forestChanges_eq_nil_iff.mp h i hi
    cases i with
    | text run => exact absurd hinfo (level_ne_info_of_mem_textChanges hnone hm)
    | tag tag => exact ⟨tag, hi, (mem_messages_tagChanges_iff hnone).mp ⟨hm, hinfo⟩⟩
  · rintro ⟨tag, hi, hfilter⟩
    obtain ⟨hm, hinfo⟩ :=
      (mem_messages_tagChanges_iff (edits_forestChanges_eq_nil_iff.mp h _ hi)).mpr hfilter
    exact ⟨(mem_messages_forestChanges ns).mpr ⟨.tag tag, hi, hm⟩, hinfo⟩

end RuleSet

/-- A template stays as it is exactly if there is nothing to edit and no end tag to remove: the
removal never takes back an edit. -/
theorem Migration.hasChanges_eq_false_iff {source : String}
    (hsize : byteLength source ≤ Patch.maxOffset) {m : Migration}
    (h : ofTemplate .default source = .ok m) :
    m.hasChanges = false ↔
      (RuleSet.default.forestChanges (Node.parse source)).edits = [] ∧
        VoidEndTag.strip source = source := by
  obtain ⟨out, hsplices⟩ :=
    (RuleSet.default.laid_forestChanges source).exists_splices (List.nil_append _).symm rfl
  rw [ofTemplate_eq_of_splices .default hsize hsplices] at h
  obtain rfl := Except.ok.inj h
  have hout : (RuleSet.default.forestChanges (Node.parse source)).edits = [] →
      String.ofList out = source := by
    intro hedits
    rw [Changes.replacements, hedits] at hsplices
    rw [hsplices.unique (.nil 0 source.toList) .nil, String.ofList_toList]
  simp only [hasChanges, bne_eq_false_iff_eq]
  constructor
  · intro hsame
    have hedits : (RuleSet.default.forestChanges (Node.parse source)).edits = [] := by
      by_contra hne
      obtain ⟨sorted, hperm, happly⟩ := hsplices
      have hsorted : sorted ≠ [] := by
        rintro rfl
        exact hne (List.map_eq_nil_iff.mp hperm.symm.eq_nil)
      refine Edit.sweep_ne happly hsorted ?_ ?_
      · intro e he
        refine (RuleSet.shows_of_mem_forestChanges (hperm.mem_iff.mp he)).mono ?_
        exact fun d hd => hperm.mem_iff.mpr hd
      · rw [← hsame, VoidEndTag.strip, String.toList_ofList, String.toList_ofList]
    rw [hout hedits] at hsame
    exact ⟨hedits, hsame⟩
  · rintro ⟨hedits, hstrip⟩
    rw [hout hedits]
    exact hstrip

namespace Session

/-- **What is said about a template that stays as it is.**  Every template is migrated.  Its text
stays as it is exactly if there is nothing to edit and no end tag to remove.  And then the infos are
those about filters of repeat expressions that are rejected, and only those. -/
theorem infos_of_unchanged (source : String) (hsize : byteLength source ≤ Patch.maxOffset) :
    ∃ m, ((start .default).migrate source).1 = .ok m ∧
      (m.hasChanges = false ↔
        (RuleSet.default.forestChanges (Node.parse source)).edits = [] ∧
          VoidEndTag.strip source = source) ∧
      (m.hasChanges = false → ∀ d, d ∈ m.diagnostics ∧ d.level = .info ↔
        ∃ tag, .tag tag ∈ Node.contents (Node.parse source) ∧
          ∃ a ∈ tag.attributes, ∃ msg, RejectedFilter a msg ∧ msg.place source = d) := by
  have hmigrate := Migration.ofTemplate_eq_ok .default hsize
  have hiff := Migration.hasChanges_eq_false_iff hsize hmigrate
  refine ⟨_, hmigrate, hiff, ?_⟩
  intro hsame d
  have hinfos : ∀ msg, msg ∈ (RuleSet.default.forestChanges (Node.parse source)).messages ∧
      msg.level = .info ↔ _ := fun msg => RuleSet.mem_messages_forestChanges_iff (hiff.mp hsame).1
  simp only [List.mem_map, Message.mem_errorsFirst]
  constructor
  · rintro ⟨⟨msg, hmsg, rfl⟩, hlevel⟩
    obtain ⟨tag, htag, a, ha, hfilter⟩ := (hinfos msg).mp ⟨hmsg, hlevel⟩
    exact ⟨tag, htag, a, ha, msg, hfilter, rfl⟩
  · rintro ⟨tag, htag, a, ha, msg, hfilter, rfl⟩
    obtain ⟨hmsg, hlevel⟩ := (hinfos msg).mpr ⟨tag, htag, a, ha, hfilter⟩
    exact ⟨⟨msg, hmsg, rfl⟩, hlevel⟩

/-- A filter of a repeat expression that is rejected because of its key. -/
theorem infos_of_unchanged_tracked :
    byteLength "<li ng-repeat=\"i in a | limitTo:1 track by i\"></li>" ≤ Patch.maxOffset ∧
      ∃ m, ((start .default).migrate
          "<li ng-repeat=\"i in a | limitTo:1 track by i\"></li>").1 = .ok m ∧
        m.hasChanges = false ∧ ∃ tag,
          .tag tag ∈ Node.contents
            (Node.parse "<li ng-repeat=\"i in a | limitTo:1 track by i\"></li>") ∧
          ∃ a ∈ tag.attributes, ∃ msg, RejectedFilter a msg := by
  have hsize :
      byteLength "<li ng-repeat=\"i in a | limitTo:1 track by i\"></li>" ≤ Patch.maxOffset := by
    decide
  obtain ⟨m, hm, -, hinfos⟩ := infos_of_unchanged _ hsize
  have hrun : ((start .default).migrate
      "<li ng-repeat=\"i in a | limitTo:1 track by i\"></li>").1.toOption.map
        (fun m => (m.hasChanges, m.diagnostics.any (·.level == .info))) = some (false, true) := by
    decide +kernel
  rw [hm] at hrun
  obtain ⟨hsame, hany⟩ := Prod.mk.inj (Option.some.inj hrun)
  obtain ⟨d, hd, hlevel⟩ := List.any_eq_true.mp hany
  obtain ⟨tag, htag, a, ha, msg, hfilter, -⟩ :=
    (hinfos hsame d).mp ⟨hd, beq_iff_eq.mp hlevel⟩
  exact ⟨hsize, m, hm, hsame, tag, htag, a, ha, msg, hfilter⟩

/-- There is an info about the filter of a rejected repeat expression, and nothing is rewritten. -/
theorem not_forall_hasChanges_of_info :
    ¬ ∀ source m, byteLength source ≤ Patch.maxOffset →
      ((start .default).migrate source).1 = .ok m → (∃ d ∈ m.diagnostics, d.level = .info) →
      m.hasChanges = true := by
  intro h
  have hsize :
      byteLength "<li ng-repeat=\"i in a | limitTo:1 track by i\"></li>" ≤ Patch.maxOffset := by
    decide
  have hmigrate := Migration.ofTemplate_eq_ok .default hsize
  have hchanges := h _ _ hsize hmigrate
  revert hchanges
  decide +kernel

end Session

end TemplateMigration
