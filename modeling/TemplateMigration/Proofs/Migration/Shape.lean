import Mathlib.Data.Finset.Card
import Mathlib.Data.Finset.Image
import Mathlib.Data.List.Pairwise
import TemplateMigration.Proofs.Markup.Outline
import TemplateMigration.Proofs.Migration.Rereading
import TemplateMigration.Session

/-!
# TemplateMigration.Proofs.Migration.Shape

What the migration keeps of the shape of a template.

A migrated template has the elements of its source, nested in the same way, and each has as many
attributes as before, or one more if it was given a name (`Session.outline_migrate`).  This needs
that no attribute is lost or torn apart (`WrittenTag.Holds`), and that the removal of end tags cuts
into nothing else (`Segment.SweepableAll`).  A new name that the element has already is enough to
lose an attribute (`Session.not_forall_outline_migrate_eq`).
-/

namespace TemplateMigration

open MarkupEvent

/-! ## Counting attributes -/

/-- As many attributes are kept as there are names. -/
theorem Attribute.length_firsts (seen : List String) (as : List Attribute) :
    (firsts seen as).length = ((as.map Attribute.name).toFinset \ seen.toFinset).card := by
  induction as generalizing seen with
  | nil => simp [firsts]
  | cons a as ih =>
      rw [firsts, List.map_cons, List.toFinset_cons]
      split
      · next hseen =>
          have hmem : a.name ∈ seen.toFinset := by simpa using hseen
          rw [ih, Finset.insert_sdiff_of_mem _ hmem]
      · next hseen =>
          have hmem : a.name ∉ seen.toFinset := by simpa using hseen
          have hsplit : insert a.name (as.map Attribute.name).toFinset \ seen.toFinset =
              insert a.name ((as.map Attribute.name).toFinset \ (seen ++ [a.name]).toFinset) := by
            ext n
            by_cases hn : n = a.name
            · simpa [hn] using hmem
            · simp [hn]
          rw [hsplit, Finset.card_insert_of_notMem (by simp), List.length_cons, ih]

/-- A name that was not seen before is kept once. -/
theorem Attribute.exists_mem_firsts {seen : List String} {as : List Attribute} {name : String}
    (h : name ∈ as.map Attribute.name) (hseen : name ∉ seen) :
    ∃ a ∈ firsts seen as, a.name = name := by
  induction as generalizing seen with
  | nil => contradiction
  | cons a as ih =>
      rw [firsts]
      by_cases hname : a.name = name
      · rw [if_neg (by simpa [hname] using hseen)]
        exact ⟨a, by simp, hname⟩
      · have hmem : name ∈ as.map Attribute.name := by simpa [Ne.symm hname] using h
        split
        · exact ih hmem hseen
        · have hnew : name ∉ seen ++ [a.name] := by simp [hseen, Ne.symm hname]
          obtain ⟨b, hb, hbname⟩ := ih hmem hnew
          exact ⟨b, List.mem_cons_of_mem _ hb, hbname⟩

theorem TagPart.map_name_attributesFrom (offset : Nat) (ps : List TagPart) :
    (attributesFrom offset ps).map Attribute.name = names ps := by
  induction ps generalizing offset with
  | nil => rfl
  | cons p ps ih =>
      cases p with
      | gap c => exact ih _
      | attr a => exact congrArg (a.name :: ·) (ih _)

/-- Names that are equal exactly where others are, are as many. -/
theorem card_toFinset_eq {old new : List String} (hlength : old.length = new.length)
    (h : (old.zip new).Pairwise fun p q => p.1 = q.1 ↔ p.2 = q.2) :
    old.toFinset.card = new.toFinset.card := by
  have : Std.Symm fun p q : String × String => p.1 = q.1 ↔ p.2 = q.2 :=
    ⟨fun p q hpq => by rw [eq_comm, hpq, eq_comm]⟩
  have hall : ∀ p ∈ old.zip new, ∀ q ∈ old.zip new, p.1 = q.1 ↔ p.2 = q.2 := fun p hp q hq =>
    h.forall_of_forall (by simp) hp hq
  have himage : ∀ f : String × String → String,
      ((old.zip new).map f).toFinset = (old.zip new).toFinset.image f := by
    intro f
    ext n
    simp
  have hold : old.toFinset = (old.zip new).toFinset.image Prod.fst := by
    rw [← himage, List.map_fst_zip hlength.le]
  have hnew : new.toFinset = (old.zip new).toFinset.image Prod.snd := by
    rw [← himage, List.map_snd_zip hlength.ge]
  rw [hold, hnew, Finset.card_image_of_injOn, Finset.card_image_of_injOn]
  · intro p hp q hq heq
    rw [Finset.mem_coe, List.mem_toFinset] at hp hq
    exact Prod.ext ((hall p hp q hq).mpr heq) heq
  · intro p hp q hq heq
    rw [Finset.mem_coe, List.mem_toFinset] at hp hq
    exact Prod.ext heq ((hall p hp q hq).mp heq)

namespace TagPart

theorem length_names_rewriteFrom (r : RuleSet) (seen : List String) (offset : Nat)
    (ps : List TagPart) : (names (rewriteFrom r seen offset ps)).length = (names ps).length := by
  induction ps generalizing seen offset with
  | nil => rfl
  | cons p ps ih =>
      cases p with
      | gap c => exact ih _ _
      | attr a =>
          rw [rewriteFrom]
          split
          · simp [names, ih]
          · simp [names, ih]

theorem names_append (ps qs : List TagPart) : names (ps ++ qs) = names ps ++ names qs := by
  induction ps with
  | nil => rfl
  | cons p ps ih => cases p <;> simp [names, ih]

theorem names_map_swept (ps : List TagPart) : names (ps.map swept) = names ps := by
  induction ps with
  | nil => rfl
  | cons p ps ih =>
      cases p with
      | gap c => exact ih
      | attr a => exact congrArg (a.name :: ·) ih

end TagPart

/-- No attribute is given the name `name` by a rule. -/
theorem WrittenAttribute.name_rewritten_ne {a : WrittenAttribute} (h : a.name ≠ "name")
    (offset : Nat) : (a.rewritten .default offset).name ≠ "name" := by
  show lowerCase (RuleSet.default.newLetters _ _) ≠ "name"
  rw [RuleSet.newLetters]
  split
  · exact h
  · cases hrename : RuleSet.default.rename? (a.located offset).name with
    | none => exact h
    | some rule => exact (RuleSet.safeName_of_rename? hrename).2.2.1

theorem TagPart.name_notMem_rewriteFrom {ps : List TagPart} (h : "name" ∉ names ps)
    (seen : List String) (offset : Nat) : "name" ∉ names (rewriteFrom .default seen offset ps) := by
  induction ps generalizing seen offset with
  | nil => exact h
  | cons p ps ih =>
      cases p with
      | gap c => exact ih h _ _
      | attr a =>
          rw [names, List.mem_cons, not_or] at h
          rw [rewriteFrom]
          split
          · rw [names, List.mem_cons, not_or]
            exact ⟨h.1, ih h.2 _ _⟩
          · rw [names, List.mem_cons, not_or]
            exact ⟨(a.name_rewritten_ne (Ne.symm h.1) offset).symm, ih h.2 _ _⟩

theorem length_edits_modelNameChanges (tag : StartTag) :
    (RuleSet.modelNameChanges tag).edits.length = tag.newName?.toList.length := by
  have hlength := congrArg List.length (replacements_modelNameChanges tag)
  simpa [Changes.replacements] using hlength

namespace WrittenTag

variable {t : WrittenTag} {offset : Nat}

/-- The number of attributes of a tag is the number of their names. -/
theorem length_attributes_located (t : WrittenTag) (offset : Nat) :
    (t.located offset).attributes.length = (TagPart.names t.parts).toFinset.card := by
  rw [attributes_located, Attribute.length_firsts, TagPart.map_name_attributesFrom]
  simp

/-- A tag is given a name only if it has none. -/
theorem name_notMem_of_newName? {name : String} (h : (t.located offset).newName? = some name) :
    "name" ∉ TagPart.names t.parts := by
  intro hmem
  have hfound : ((t.located offset).attribute? "name").isSome = true := by
    rw [StartTag.attribute?, List.find?_isSome, attributes_located]
    rw [← TagPart.map_name_attributesFrom (offset + byteCount ('<' :: t.letters))] at hmem
    obtain ⟨a, ha, hname⟩ := Attribute.exists_mem_firsts hmem List.not_mem_nil
    exact ⟨a, ha, by simp [hname]⟩
  rw [StartTag.newName?] at h
  split at h
  · next hcond =>
      rw [Bool.and_eq_true, Option.isNone_iff_eq_none] at hcond
      rw [hcond.2] at hfound
      contradiction
  · contradiction

/-- A rewritten tag has the attributes it had, and one more if it was given a name. -/
theorem length_attributes_rewritten (h : t.Holds .default offset) (offset' : Nat) :
    ((t.rewritten .default offset).swept.located offset').attributes.length =
      (t.located offset).attributes.length +
        (RuleSet.modelNameChanges (t.located offset)).edits.length := by
  have hsame := card_toFinset_eq (TagPart.length_names_rewriteFrom _ _ _ _).symm h.names
  rw [length_attributes_located, length_attributes_located, length_edits_modelNameChanges, hsame,
    swept, TagPart.names_map_swept, rewritten]
  cases hname : (t.located offset).newName? with
  | none => simp
  | some name =>
      have hnew := TagPart.name_notMem_rewriteFrom (name_notMem_of_newName? hname) []
        (offset + byteCount ('<' :: t.letters))
      have hnaming : TagPart.names (TagPart.naming name.toList) = ["name"] := rfl
      simp only [Option.toList_some, List.flatMap_cons, List.flatMap_nil, List.append_nil,
        TagPart.names_append, hnaming]
      rw [List.singleton_append, List.toFinset_cons,
        Finset.card_insert_of_notMem (by simpa using hnew)]
      rfl

end WrittenTag

/-! ## Marks of segments -/

namespace Segment

/-- What segments from an offset on mean for the outline. -/
def marksFrom (count : StartTag → Nat) (offset : Nat) : List Segment → List Mark
  | [] => []
  | p :: ps =>
      (p.event? offset).toList.filterMap (·.mark? count) ++
        marksFrom count (offset + byteCount p.render) ps

variable {ps : List Segment} {offset : Nat}

theorem filterMap_mark?_eventsFrom (count : StartTag → Nat) (ps : List Segment) (start : Nat)
    (pending : List Char) (offset : Nat) :
    (eventsFrom start pending offset ps).filterMap (·.mark? count) = marksFrom count offset ps := by
  have htext : ∀ start pending, (ofText start pending).filterMap (·.mark? count) = [] := by
    intro start pending
    rw [ofText]
    split <;> simp [MarkupEvent.mark?]
  induction ps generalizing start pending offset with
  | nil => exact htext _ _
  | cons p ps ih =>
      rw [eventsFrom, marksFrom]
      split
      · next hp =>
          have hnone : p.event? offset = none := by
            cases p with
            | text content => rfl
            | _ => contradiction
          rw [ih, hnone]
          rfl
      · rw [List.filterMap_append, List.filterMap_append, htext, ih, List.nil_append]

/-- The outline of a template is that of the segments that spell it. -/
theorem outline_parse (count : StartTag → Nat) {template : String} (h : ReadsAll ps)
    (hspell : spell ps = template.toList) :
    Node.outline count (Node.parse template) =
      ((marksFrom count 0 ps).foldl OutlineBuilder.step .empty).finish := by
  rw [Node.parse, scan_eq_eventsFrom h hspell,
    Node.outline_ofEvents count fun e he => leafIfVoid_of_mem_eventsFrom he,
    filterMap_mark?_eventsFrom]

/-- Segment by segment, the migration keeps the marks: what it removes has none. -/
theorem marksFrom_sweptAll (hholds : AllTags (WrittenTag.Holds .default) offset ps)
    (hsweep : SweepableAll (rewriteFrom .default offset ps)) (offset' : Nat) :
    marksFrom (fun tag => tag.attributes.length) offset'
        (sweptAll (rewriteFrom .default offset ps)) =
      marksFrom (fun tag => tag.attributes.length + (RuleSet.modelNameChanges tag).edits.length)
        offset ps := by
  induction ps generalizing offset offset' with
  | nil => rfl
  | cons p ps ih =>
      have hrest := fun offset' => ih hholds.2 hsweep.2 offset'
      rw [rewriteFrom, sweptAll, List.flatMap_cons, marksFrom, ← sweptAll]
      cases p with
      | text content => exact hrest _
      | comment body => exact hrest _
      | declaration mark body => exact hrest _
      | startTag tag body =>
          have hcount :=
            WrittenTag.length_attributes_rewritten (hholds.1 tag (by simp [tag?])) offset'
          show Mark.start _ (((tag.rewritten .default offset).swept.located
            offset').attributes.length) _ :: marksFrom _ _ (sweptAll _) = _
          rw [hcount, hrest]
          rfl
      | endTag letters body =>
          show marksFrom _ _ ((endTag letters body).swept ++ _) = _
          rw [swept]
          split
          · next htag =>
              have hvoid := (hsweep.1 _ ((List.mem_tails _ _).mpr (List.suffix_refl _)) htag).2
              rw [List.nil_append, hrest]
              simp [event?, MarkupEvent.mark?, hvoid]
          · rw [List.singleton_append, marksFrom, hrest]
            rfl

end Segment

namespace Session

/-- **The migration keeps the shape of a template.**  Every source is spelled by segments.  If the
rewritten start tags hold their attributes and the removal of end tags cuts into nothing, the
migrated template has the same elements, nested in the same way, and each has the attributes it had
and one more if it was given a name. -/
theorem outline_migrate (source : String) (hsize : byteLength source ≤ Patch.maxOffset) :
    (∃ ps, Segment.Spells ps source) ∧
      ∀ ps, Segment.Spells ps source → Segment.AllTags (WrittenTag.Holds .default) 0 ps →
        Segment.SweepableAll (Segment.rewriteFrom .default 0 ps) →
        ∃ m, ((start .default).migrate source).1 = .ok m ∧
          Node.outline (fun tag => tag.attributes.length) (Node.parse m.text) =
            Node.outline
              (fun tag => tag.attributes.length + (RuleSet.modelNameChanges tag).edits.length)
              (Node.parse source) := by
  refine ⟨Segment.exists_spells source, ?_⟩
  intro ps hps hholds hsweep
  refine ⟨_, Migration.ofTemplate_eq_of_spells .default hsize hps, ?_⟩
  have hreads := Segment.readsAll_rewriteFrom hps.reads hps.runs
    (hholds.imp fun _ _ h => h.toFits)
  have hapart := Segment.apart_rewriteFrom .default hps.runs 0
  have hspell := Segment.toList_strip_spell hreads hapart hsweep
  rw [Segment.outline_parse _ (Segment.readsAll_sweptAll hreads hapart hsweep) hspell.symm,
    Segment.outline_parse _ hps.reads hps.spell_eq, Segment.marksFrom_sweptAll hholds hsweep]

/-- An `id` without quotes that becomes a name, an alias in single quotes, a removed end tag, one
inside a value, and a `<` in a text with a filter. -/
theorem outline_migrate_mixed :
    ∃ ps, Segment.Spells ps
        "<input ng-model='vm.x' ID=n></input><p title=\"</br>\">1 < vm.y | currency:2</p>" ∧
      Segment.AllTags (WrittenTag.Holds .default) 0 ps ∧
      Segment.SweepableAll (Segment.rewriteFrom .default 0 ps) ∧
      ∃ m, ((start .default).migrate
          "<input ng-model='vm.x' ID=n></input><p title=\"</br>\">1 < vm.y | currency:2</p>").1 =
            .ok m ∧
        Node.outline (fun tag => tag.attributes.length) (Node.parse m.text) =
        Node.outline
          (fun tag => tag.attributes.length + (RuleSet.modelNameChanges tag).edits.length)
          (Node.parse
          "<input ng-model='vm.x' ID=n></input><p title=\"</br>\">1 < vm.y | currency:2</p>") := by
  have hps : ∃ ps, Segment.Spells ps
        "<input ng-model='vm.x' ID=n></input><p title=\"</br>\">1 < vm.y | currency:2</p>" ∧
      Segment.AllTags (WrittenTag.Holds .default) 0 ps ∧
      Segment.SweepableAll (Segment.rewriteFrom .default 0 ps) :=
    ⟨[.startTag ⟨"input".toList,
          [.gap ' ', .attr ⟨"ng-model".toList, some ⟨[], [], .quoted '\'', "vm.x".toList⟩⟩,
            .gap ' ', .attr ⟨"ID".toList, some ⟨[], [], .bare, ['n']⟩⟩], ['>']⟩ [],
        .endTag "input".toList ['>'],
        .startTag ⟨['p'],
          [.gap ' ', .attr ⟨"title".toList, some ⟨[], [], .quoted '"', "</br>".toList⟩⟩], ['>']⟩ [],
        .text "1 < vm.y | currency:2".toList, .endTag ['p'] ['>']],
      ⟨by decide, by decide, by decide⟩, by decide +kernel, by decide +kernel⟩
  obtain ⟨ps, hspells, hholds, hsweep⟩ := hps
  exact ⟨ps, hspells, hholds, hsweep,
    (outline_migrate _ (by decide)).2 ps hspells hholds hsweep⟩

/-- Two attributes become one when a new name meets an old one. -/
theorem not_forall_outline_migrate_eq :
    ¬ ∀ source m, byteLength source ≤ Patch.maxOffset →
      ((start .default).migrate source).1 = .ok m →
      Node.outline (fun tag => tag.attributes.length) (Node.parse m.text) =
        Node.outline
          (fun tag => tag.attributes.length + (RuleSet.modelNameChanges tag).edits.length)
          (Node.parse source) := by
  intro h
  have hspells : Segment.Spells
      [.startTag ⟨['a'],
          [.gap ' ', .attr ⟨"ng-href".toList, some ⟨[], [], .quoted '"', ['x']⟩⟩,
            .gap ' ', .attr ⟨"href".toList, some ⟨[], [], .quoted '"', ['y']⟩⟩], ['>']⟩ [],
        .endTag ['a'] ['>']]
      "<a ng-href=\"x\" href=\"y\"></a>" := ⟨by decide, by decide, by decide⟩
  have hreads : Segment.ReadsAll
      [.startTag ⟨['a'],
          [.gap ' ', .attr ⟨"href".toList, some ⟨[], [], .quoted '"', ['x']⟩⟩,
            .gap ' ', .attr ⟨"href".toList, some ⟨[], [], .quoted '"', ['y']⟩⟩], ['>']⟩ [],
        .endTag ['a'] ['>']] := by decide
  have hsame := h _ _ (by decide) (Migration.ofTemplate_eq_of_spells .default (by decide) hspells)
  rw [Segment.outline_parse _ hspells.reads hspells.spell_eq,
    Segment.outline_parse _ hreads (by decide)] at hsame
  have hcounts : [Outline.element "a" 1 []] = [Outline.element "a" 2 []] := hsame
  simp at hcounts

end Session

end TemplateMigration
