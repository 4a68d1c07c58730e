import TemplateMigration.Proofs.Migration.Infos

/-!
# TemplateMigration.Proofs.Migration.Quiet

Templates that the built-in rules leave alone.

A run of text is left alone exactly if no alias counts in it and none of its filters is replaced
(`RuleSet.QuietText`).  An attribute is left alone exactly if there is an error about it, or if no
rule renames it and no alias counts in its value (`WrittenAttribute.Quiet`); and a start tag exactly
if the attributes are whose names have not come before, since a form model, which would be given a
name, is always renamed (`WrittenTag.Quiet`).  So a template stays as it is exactly if all its runs
of text and all its start tags are quiet and there is no end tag to remove:
`Migration.hasChanges_eq_false_iff_allQuiet`.
-/

namespace TemplateMigration

open MarkupEvent
open VoidEndTag (IsTag sweep)

/-! ## Runs of text -/

/-- Without a bar there is no filter. -/
theorem Filter.findAll_eq_nil {content : List Char} (h : '|' ∉ content) :
    findAll (Tokens.read (String.ofList content)).list = [] := by
  have hmark : ∀ t ∈ (Tokens.read (String.ofList content)).list, t.isMark "|" = false := by
    intro t ht
    rw [Bool.eq_false_iff]
    intro hmark
    have htext : t.text = "|" := by
      rw [Token.isMark, Bool.and_eq_true, beq_iff_eq] at hmark
      exact hmark.2
    obtain ⟨before, after, heq, -⟩ :=
      (TemplateMigration.tokensIn_read (String.ofList content)).occursAt_of_mem ht
    rw [String.toList_ofList, htext] at heq
    exact h (by simp [heq])
  have hnone : ∀ (before : Option Token) (ts : List Token),
      (∀ t ∈ ts, t.isMark "|" = false) → findAfter before ts = [] := by
    intro before ts hts
    induction ts generalizing before with
    | nil => rw [findAfter]
    | cons t ts ih =>
        rw [findAfter, hts t (by simp), if_neg (by simp)]
        exact ih _ fun u hu => hts u (List.mem_cons_of_mem _ hu)
  exact hnone none _ hmark

namespace RuleSet

/-- A run of text that is left alone: none of its filters is replaced, and no alias counts in it. -/
def QuietText (content : List Char) : Prop :=
  (∀ f ∈ Filter.findAll (Tokens.read (String.ofList content)).list, default.replaces f = false) ∧
    Alias.offsets (String.ofList content) = []

instance (content : List Char) : Decidable (QuietText content) :=
  inferInstanceAs (Decidable (_ ∧ _))

theorem quietText_of_notMem {content : List Char} (hbar : '|' ∉ content) (hv : 'v' ∉ content) :
    QuietText content := by
  rw [QuietText, Filter.findAll_eq_nil hbar, Alias.offsets, String.toList_ofList]
  exact ⟨by simp, Alias.offsetsFrom_eq_nil hv [] 0⟩

/-- A run of text is not edited exactly if it is quiet, wherever it stands. -/
theorem edits_textChanges_eq_nil_iff_quietText (content : List Char) (offset : Nat) :
    (default.textChanges ⟨String.ofList content, offset⟩).edits = [] ↔ QuietText content := by
  cases hblank : (String.ofList content).toList.all isWhiteSpace with
  | true =>
      have hquiet : QuietText content := by
        rw [String.toList_ofList] at hblank
        refine quietText_of_notMem (fun hmem => ?_) (fun hmem => ?_)
        · exact absurd (List.all_eq_true.mp hblank _ hmem) (by decide)
        · exact absurd (List.all_eq_true.mp hblank _ hmem) (by decide)
      exact iff_of_true (default.edits_textChanges_of_blank _ hblank) hquiet
  | false =>
      have hsome : default.expressionTransforms ≠ [] := by decide
      rw [edits_textChanges_eq_nil_iff hblank, or_iff_right hsome]
      rfl

end RuleSet

/-! ## Attributes -/

namespace RuleSet

/-- A value whose attribute keeps its name is not edited exactly if no alias counts in it. -/
theorem replacements_valueChanges_eq_nil_iff {a : Attribute}
    (hname : default.rename? a.name = none) :
    (default.valueChanges a).replacements = [] ↔ Alias.offsets a.value = [] := by
  rw [← Changes.edits_eq_nil_iff, valueChanges_of_rename? hname]
  cases hvalue : a.hasValue with
  | true =>
      rw [if_pos rfl, edits_migrateExpression_default, List.map_eq_nil_iff, List.map_eq_nil_iff]
  | false =>
      have hempty : a.value = "" := by
        rw [Attribute.hasValue, Bool.or_eq_false_iff] at hvalue
        simpa using hvalue.2
      exact iff_of_true rfl (by rw [hempty]; rfl)

/-- A form model is always edited. -/
theorem replacements_attributeChanges_ne_nil {a : Attribute} (h : a.name = "ng-model") :
    (default.attributeChanges a).replacements ≠ [] := by
  have hsupported : default.isUnsupportedAttribute "ng-model" = false := by decide
  have htransform : default.valueTransform? "ng-model" = none := by decide
  have hblocks : default.blocks a = false := by
    rw [blocks, anyError_valueChanges, h, hsupported, htransform]
    simp
  rw [replacements_attributeChanges, hblocks, if_neg Bool.false_ne_true]
  intro hnil
  have hname := Changes.edits_eq_nil_iff.mpr (List.append_eq_nil_iff.mp hnil).2
  have hrename := rename?_eq_none_of_edits_eq_nil hname
  rw [h] at hrename
  contradiction

end RuleSet

namespace WrittenAttribute

/-- Whether there is an error about an attribute because of which it stays as it is. -/
def isBlocked (a : WrittenAttribute) : Bool := RuleSet.default.blocks (a.located 0)

/-- Where an attribute stands makes no error about it. -/
theorem blocks_located (a : WrittenAttribute) (offset : Nat) :
    RuleSet.default.blocks (a.located offset) = a.isBlocked :=
  RuleSet.blocks_eq rfl rfl rfl

/-- An attribute that is left alone: there is an error about it, or no rule renames it and no alias
counts in its value. -/
def Quiet (a : WrittenAttribute) : Prop :=
  a.isBlocked = true ∨
    RuleSet.default.rename? a.name = none ∧ Alias.offsets (String.ofList a.content) = []

instance (a : WrittenAttribute) : Decidable a.Quiet := inferInstanceAs (Decidable (_ ∨ _ ∧ _))

/-- An attribute is not edited exactly if it is quiet, wherever it stands. -/
theorem replacements_attributeChanges_eq_nil_iff (a : WrittenAttribute) (offset : Nat) :
    (RuleSet.default.attributeChanges (a.located offset)).replacements = [] ↔ a.Quiet := by
  rw [RuleSet.replacements_attributeChanges, blocks_located, Quiet]
  cases a.isBlocked with
  | true => simp
  | false =>
      rw [if_neg Bool.false_ne_true, List.append_eq_nil_iff, or_iff_right Bool.false_ne_true]
      constructor
      · rintro ⟨hvalue, hname⟩
        have hrename : RuleSet.default.rename? (a.located offset).name = none :=
          RuleSet.rename?_eq_none_of_edits_eq_nil (Changes.edits_eq_nil_iff.mpr hname)
        exact ⟨hrename, (RuleSet.replacements_valueChanges_eq_nil_iff hrename).mp hvalue⟩
      · rintro ⟨hrename, halias⟩
        have hrename' : RuleSet.default.rename? (a.located offset).name = none := hrename
        refine ⟨(RuleSet.replacements_valueChanges_eq_nil_iff hrename').mpr halias, ?_⟩
        rw [RuleSet.nameChanges, hrename']
        rfl

end WrittenAttribute

/-! ## Start tags -/

/-- The attributes whose names have not come before are quiet exactly if none of them is edited. -/
theorem TagPart.allFirsts_quiet_iff (seen : List String) (n offset : Nat) (ps : List TagPart) :
    AllFirsts (fun _ a => a.Quiet) seen n ps ↔
      ∀ b ∈ Attribute.firsts seen (attributesFrom offset ps),
        (RuleSet.default.attributeChanges b).replacements = [] := by
  induction ps generalizing seen n offset with
  | nil => simp [AllFirsts, attributesFrom, Attribute.firsts]
  | cons p ps ih =>
      cases p with
      | gap c => exact ih seen _ _
      | attr a =>
          have hname : (a.located offset).name = a.name := rfl
          rw [AllFirsts, attributesFrom, Attribute.firsts, hname]
          split
          · exact ih seen _ _
          · rw [List.forall_mem_cons, a.replacements_attributeChanges_eq_nil_iff offset]
            exact and_congr_right fun _ => ih _ _ _

namespace WrittenTag

/-- A start tag that is left alone: its attributes are, those apart whose names have come before. -/
def Quiet (t : WrittenTag) : Prop := TagPart.AllFirsts (fun _ a => a.Quiet) [] 0 t.parts

instance (t : WrittenTag) : Decidable t.Quiet := inferInstanceAs (Decidable (TagPart.AllFirsts ..))

/-- A start tag is not edited exactly if it is quiet, wherever it stands. -/
theorem edits_tagChanges_eq_nil_iff (t : WrittenTag) (offset : Nat) :
    (RuleSet.default.tagChanges (t.located offset)).edits = [] ↔ t.Quiet := by
  rw [Quiet, TagPart.allFirsts_quiet_iff [] 0 (offset + byteCount ('<' :: t.letters)),
    ← attributes_located, Changes.edits_eq_nil_iff, RuleSet.tagChanges,
    Changes.replacements_append, List.append_eq_nil_iff]
  have hattributes : (Changes.join ((t.located offset).attributes.map
      RuleSet.default.attributeChanges)).replacements = [] ↔
        ∀ b ∈ (t.located offset).attributes,
          (RuleSet.default.attributeChanges b).replacements = [] := by
    rw [Changes.replacements, Changes.join, List.flatMap_map, List.map_flatMap,
      List.flatMap_eq_nil_iff]
    rfl
  rw [hattributes, and_iff_left_iff_imp]
  intro hquiet
  -- a form model would have been edited, so no name is put in
  have hmodel : (t.located offset).attribute? "ng-model" = none := by
    refine List.find?_eq_none.mpr fun b hb hname => ?_
    exact RuleSet.replacements_attributeChanges_ne_nil (beq_iff_eq.mp hname) (hquiet b hb)
  rw [replacements_modelNameChanges, StartTag.newName?, hmodel]
  rfl

end WrittenTag

/-! ## Templates -/

/-- The sweep keeps a text exactly if no end tag of a void element is written in it. -/
theorem VoidEndTag.sweep_eq_self_iff {text : List Char} :
    sweep 0 text = text ↔ ∀ tag, IsTag tag → ¬ tag <:+: text := by
  induction text using sweep_induction with
  | nil =>
      refine iff_of_true rfl ?_
      rintro tag htag hinfix
      obtain ⟨body, rfl, -⟩ := htag.exists_eq_cons
      simp at hinfix
  | tag found rest hfound ih =>
      refine iff_of_false (fun hsame => ?_)
        (fun h => h found hfound (List.prefix_append ..).isInfix)
      have hlength := congrArg List.length hsame
      rw [sweep_tag hfound, List.length_append] at hlength
      obtain ⟨body, rfl, -⟩ := hfound.exists_eq_cons
      have hle := length_sweep_le rest
      rw [List.length_cons] at hlength
      omega
  | cons c cs hstarts ih =>
      rw [sweep_cons hstarts, List.cons.injEq, eq_self, true_and, ih]
      refine forall₂_congr fun tag htag => ?_
      rw [List.infix_cons_iff, not_or, and_iff_right]
      rintro ⟨rest, heq⟩
      exact hstarts ⟨tag, rest, htag, heq.symm⟩

namespace Segment

variable {ps : List Segment}

/-- The runs of text in segments; `pending` is text that belongs to the first run. -/
def textRuns (pending : List Char) : List Segment → List (List Char)
  | [] => [pending]
  | p :: ps => if p.isText then textRuns (pending ++ p.render) ps else pending :: textRuns [] ps

/-- Segments of a template that is left alone: its start tags and its runs of text are quiet, and
there is no end tag to remove. -/
structure AllQuiet (ps : List Segment) : Prop where
  tags : ∀ p ∈ ps, ∀ tag ∈ p.tag?.toList, tag.Quiet
  runs : ∀ run ∈ textRuns [] ps, RuleSet.QuietText run
  endTags : ∀ tag, IsTag tag → ¬ tag <:+: spell ps

instance (ps : List Segment) : Decidable (AllQuiet ps) :=
  decidable_of_iff
    ((∀ p ∈ ps, ∀ tag ∈ p.tag?.toList, tag.Quiet) ∧
      (∀ run ∈ textRuns [] ps, RuleSet.QuietText run) ∧ sweep 0 (spell ps) = spell ps)
    ⟨fun ⟨htags, hruns, hends⟩ => ⟨htags, hruns, VoidEndTag.sweep_eq_self_iff.mp hends⟩,
      fun h => ⟨h.tags, h.runs, VoidEndTag.sweep_eq_self_iff.mpr h.endTags⟩⟩

/-- A run of text that a scan has met is not edited exactly if it is quiet. -/
theorem edits_ofText_eq_nil_iff (start : Nat) (run : List Char) :
    (∀ i ∈ (ofText start run).flatMap MarkupEvent.items,
      (RuleSet.default.itemChanges i).edits = []) ↔ RuleSet.QuietText run := by
  rw [ofText]
  split
  · next hempty =>
      rw [List.isEmpty_iff] at hempty
      subst hempty
      exact iff_of_true (by simp) (RuleSet.quietText_of_notMem (by simp) (by simp))
  · rw [← RuleSet.edits_textChanges_eq_nil_iff_quietText run start]
    simp [MarkupEvent.items, RuleSet.itemChanges]

/-- What a scan of segments meets is not edited exactly if the start tags and the runs of text are
quiet. -/
theorem edits_eventsFrom_eq_nil_iff (start : Nat) (pending : List Char) (offset : Nat)
    (ps : List Segment) :
    (∀ i ∈ (eventsFrom start pending offset ps).flatMap MarkupEvent.items,
      (RuleSet.default.itemChanges i).edits = []) ↔
        (∀ p ∈ ps, ∀ tag ∈ p.tag?.toList, tag.Quiet) ∧
          ∀ run ∈ textRuns pending ps, RuleSet.QuietText run := by
  induction ps generalizing start pending offset with
  | nil =>
      rw [eventsFrom, edits_ofText_eq_nil_iff]
      simp [textRuns]
  | cons p ps ih =>
      rw [eventsFrom, textRuns]
      split
      · next htext =>
          obtain ⟨content, rfl⟩ : ∃ content, p = text content := by
            cases p with
            | text content => exact ⟨content, rfl⟩
            | _ => contradiction
          rw [ih, List.forall_mem_cons]
          simp [tag?]
      · have hevent : (∀ i ∈ (p.event? offset).toList.flatMap MarkupEvent.items,
            (RuleSet.default.itemChanges i).edits = []) ↔ ∀ tag ∈ p.tag?.toList, tag.Quiet := by
          cases p with
          | startTag tag body =>
              simp [event?, tag?, MarkupEvent.items, RuleSet.itemChanges,
                tag.edits_tagChanges_eq_nil_iff offset]
          | _ => simp [event?, tag?, MarkupEvent.items]
        rw [List.flatMap_append, List.flatMap_append, List.forall_mem_append,
          List.forall_mem_append, edits_ofText_eq_nil_iff, hevent, ih, List.forall_mem_cons,
          List.forall_mem_cons]
        constructor
        · rintro ⟨⟨hrun, htag⟩, htags, hruns⟩
          exact ⟨⟨htag, htags⟩, hrun, hruns⟩
        · rintro ⟨⟨htag, htags⟩, hrun, hruns⟩
          exact ⟨⟨hrun, htag⟩, htags, hruns⟩

end Segment

/-- **A template stays as it is exactly if its segments are quiet.** -/
theorem Migration.hasChanges_eq_false_iff_allQuiet {source : String}
    (hsize : byteLength source ≤ Patch.maxOffset) {m : Migration}
    (h : ofTemplate .default source = .ok m) {ps : List Segment} (hreads : Segment.ReadsAll ps)
    (hspell : Segment.spell ps = source.toList) :
    m.hasChanges = false ↔ Segment.AllQuiet ps := by
  rw [hasChanges_eq_false_iff hsize h, RuleSet.edits_forestChanges_eq_nil_iff, Node.parse,
    Segment.scan_eq_eventsFrom hreads hspell, Node.contents_ofEvents,
    Segment.edits_eventsFrom_eq_nil_iff]
  have hstrip : VoidEndTag.strip source = source ↔
      ∀ tag, IsTag tag → ¬ tag <:+: Segment.spell ps := by
    rw [hspell, ← VoidEndTag.sweep_eq_self_iff, VoidEndTag.strip, ← String.toList_inj,
      String.toList_ofList]
  rw [hstrip]
  constructor
  · rintro ⟨⟨htags, hruns⟩, hends⟩
    exact ⟨htags, hruns, hends⟩
  · intro hquiet
    exact ⟨⟨hquiet.tags, hquiet.runs⟩, hquiet.endTags⟩

end TemplateMigration
