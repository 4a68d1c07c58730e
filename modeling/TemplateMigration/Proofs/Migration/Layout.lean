import TemplateMigration.Migration
import TemplateMigration.Proofs.Expression.Edits
import TemplateMigration.Proofs.Markup.Placement
import TemplateMigration.Proofs.Markup.Preorder

/-!
# TemplateMigration.Proofs.Migration.Layout

Where the edits of a migration stand in the source.

Edits are laid in a range when each starts inside it, ends in it, has both ends at boundaries, and
no two of them touch the same place (`Laid`).  Layouts of neighbouring ranges are put together, so
the layout of a text run, a value, a name and an insertion becomes that of an attribute, of a
start tag, of the events of a scan and of the whole walk over the forest: `laid_forestChanges`.
-/

namespace TemplateMigration

/-! ## Edits apart from each other -/

namespace Edit

/-- One edit ends before the other starts, and they do not start together. -/
def Before (a b : Edit) : Prop := a.stop ≤ b.offset ∧ a.offset < b.offset

/-- Two edits that have no place in common. -/
def Apart (a b : Edit) : Prop := a.Before b ∨ b.Before a

theorem Apart.symm {a b : Edit} (h : a.Apart b) : b.Apart a := Or.symm h

/-- An edit inside a range of a text, with both ends at boundaries. -/
structure Within (text : List Char) (start stop : Nat) (e : Edit) : Prop where
  start_le : start ≤ e.offset
  offset_lt : e.offset < stop
  stop_le : e.stop ≤ stop
  left : IsBoundary text e.offset
  right : IsBoundary text e.stop

/-- An edit of a part of a text as an edit of the text. -/
def shift (n : Nat) (e : Edit) : Edit := { e with offset := n + e.offset }

theorem offset_shift (n : Nat) (e : Edit) : (e.shift n).offset = n + e.offset := rfl

theorem stop_shift (n : Nat) (e : Edit) : (e.shift n).stop = n + e.stop := by
  rw [stop, stop, shift, Nat.add_assoc]

end Edit

/-- Edits inside a range of a text, pairwise apart. -/
structure Laid (text : List Char) (start stop : Nat) (es : List Edit) : Prop where
  within : ∀ e ∈ es, e.Within text start stop
  apart : es.Pairwise Edit.Apart

namespace Laid

variable {text : List Char} {start mid stop : Nat} {es fs : List Edit}

theorem nil : Laid text start stop [] := ⟨by simp, .nil⟩

/-- One edit is laid where it stands. -/
theorem single {e : Edit} (h : e.Within text start stop) : Laid text start stop [e] :=
  ⟨by simpa using h, List.pairwise_singleton _ _⟩

/-- Edits laid in a range are laid in a larger one. -/
theorem mono {start' stop' : Nat} (h : Laid text start stop es) (hstart : start' ≤ start)
    (hstop : stop ≤ stop') : Laid text start' stop' es := by
  refine ⟨?_, h.apart⟩
  intro e he
  have hin := h.within e he
  exact ⟨Nat.le_trans hstart hin.start_le, Nat.lt_of_lt_of_le hin.offset_lt hstop,
    Nat.le_trans hin.stop_le hstop, hin.left, hin.right⟩

/-- The order in which edits are listed does not matter. -/
theorem perm (h : Laid text start stop es) (hperm : es.Perm fs) : Laid text start stop fs := by
  refine ⟨?_, hperm.pairwise h.apart Edit.Apart.symm⟩
  intro e he
  exact h.within e (hperm.mem_iff.mpr he)

/-- Some of the edits laid in a range are laid there. -/
theorem sublist (h : Laid text start stop es) (hsub : fs.Sublist es) : Laid text start stop fs :=
  ⟨fun e he => h.within e (hsub.subset he), h.apart.sublist hsub⟩

/-- Layouts of neighbouring ranges make one layout. -/
theorem append (h : Laid text start mid es) (h' : Laid text mid stop fs) (hstart : start ≤ mid)
    (hstop : mid ≤ stop) : Laid text start stop (es ++ fs) := by
  constructor
  · intro e he
    cases List.mem_append.mp he with
    | inl he => exact (h.mono (Nat.le_refl _) hstop).within e he
    | inr he => exact (h'.mono hstart (Nat.le_refl _)).within e he
  · refine List.pairwise_append.mpr ⟨h.apart, h'.apart, ?_⟩
    intro a ha b hb
    have hleft := h.within a ha
    have hright := h'.within b hb
    exact .inl ⟨Nat.le_trans hleft.stop_le hright.start_le,
      Nat.lt_of_lt_of_le hleft.offset_lt hright.start_le⟩

/-- Layouts of neighbouring ranges, given in the other order. -/
theorem append_swap (h : Laid text mid stop es) (h' : Laid text start mid fs) (hstart : start ≤ mid)
    (hstop : mid ≤ stop) : Laid text start stop (es ++ fs) :=
  (h'.append h hstart hstop).perm List.perm_append_comm

/-- The layout of a part is a layout of the text. -/
theorem shift {n : Nat} {part : List Char} (h : Laid part 0 (byteCount part) es)
    (hpart : OccursAt text n part) : Laid text n (n + byteCount part) (es.map (Edit.shift n)) := by
  constructor
  · intro e he
    obtain ⟨inner, hinner, rfl⟩ := List.mem_map.mp he
    have hin := h.within inner hinner
    refine ⟨Nat.le_add_right _ _, Nat.add_lt_add_left hin.offset_lt n, ?_, ?_, ?_⟩
    · rw [Edit.stop_shift]
      exact Nat.add_le_add_left hin.stop_le n
    · exact hpart.isBoundary_add hin.left
    · rw [Edit.stop_shift]
      exact hpart.isBoundary_add hin.right
  · rw [List.pairwise_map]
    refine h.apart.imp ?_
    intro a b hab
    simp only [Edit.Apart, Edit.Before, Edit.stop_shift, Edit.offset_shift] at hab ⊢
    omega

end Laid

/-- Edits that follow each other are laid, if none is empty. -/
theorem laid_of_editsIn {text : List Char} {start : Nat} {es : List Edit}
    (h : EditsIn text start es) (hpos : ∀ e ∈ es, 0 < e.length) :
    Laid text start (byteCount text) es := by
  induction es generalizing start with
  | nil => exact .nil
  | cons e es ih =>
      obtain ⟨hstart, hleft, hright, hrest⟩ := h
      have hlt : e.offset < e.stop := Nat.lt_add_of_pos_right (hpos e (by simp))
      have hfirst : Laid text e.offset e.stop [e] :=
        .single ⟨Nat.le_refl _, hlt, Nat.le_refl _, hleft, hright⟩
      have hmore : Laid text e.stop (byteCount text) es :=
        ih hrest (fun e he => hpos e (List.mem_cons_of_mem _ he))
      exact (hfirst.append hmore (Nat.le_of_lt hlt) hright.le).mono hstart (Nat.le_refl _)

/-- Ranges that do not meet: one ends before the other starts. -/
theorem RuleSet.rangesMeet_eq_false_iff {start stop start' stop' : Nat} :
    rangesMeet start stop start' stop' = false ↔ stop' ≤ start ∨ stop ≤ start' := by
  simp only [rangesMeet, Bool.and_eq_false_imp, decide_eq_true_eq, decide_eq_false_iff_not]
  omega

/-- Edits of two kinds in one range, each kind laid and no edit of one meeting one of the other. -/
theorem Laid.append_of_clear {text : List Char} {start stop : Nat} {es fs : List Edit}
    (h : Laid text start stop es) (h' : Laid text start stop fs) (hpos : ∀ e ∈ es, 0 < e.length)
    (hpos' : ∀ e ∈ fs, 0 < e.length)
    (hclear : ∀ a ∈ es, ∀ b ∈ fs, RuleSet.rangesMeet b.offset b.stop a.offset a.stop = false) :
    Laid text start stop (es ++ fs) := by
  constructor
  · intro e he
    cases List.mem_append.mp he with
    | inl he => exact h.within e he
    | inr he => exact h'.within e he
  · refine List.pairwise_append.mpr ⟨h.apart, h'.apart, ?_⟩
    intro a ha b hb
    have ha' := hpos a ha
    have hb' := hpos' b hb
    have hmeet := RuleSet.rangesMeet_eq_false_iff.mp (hclear a ha b hb)
    simp only [Edit.Apart, Edit.Before, Edit.stop] at hmeet ⊢
    omega

/-! ## Edits of the source -/

/-- An edit of the source as the replacement of a range; an insertion replaces an empty one. -/
def SourceEdit.toEdit : SourceEdit → Edit
  | replace offset length text => ⟨offset, length, text⟩
  | insert offset text => ⟨offset, 0, text⟩

/-- Edits inside an expression are edits of the source, moved to where the expression starts. -/
theorem SourceEdit.map_toEdit_ofEdit (start : Nat) (es : List Edit) :
    (es.map (ofEdit start)).map toEdit = es.map (Edit.shift start) := by
  rw [List.map_map]
  rfl

/-- The ranges that changes replace. -/
def Changes.replacements (c : Changes) : List Edit := c.edits.map SourceEdit.toEdit

namespace Changes

@[simp] theorem edits_append (a b : Changes) : (a ++ b).edits = a.edits ++ b.edits := rfl

@[simp] theorem replacements_none : none.replacements = [] := rfl

@[simp] theorem replacements_append (a b : Changes) :
    (a ++ b).replacements = a.replacements ++ b.replacements := List.map_append

theorem replacements_join_cons (c : Changes) (parts : List Changes) :
    (join (c :: parts)).replacements = c.replacements ++ (join parts).replacements := by
  simp [join, replacements]

end Changes

/-! ## Text -/

/-- To stay clear of the edits of filters is to stay clear of the ranges of those replaced. -/
theorem Filter.all_editsOf {text : List Char} {start : Nat} {fs : List Filter}
    (replacement : Filter → Option String) (h : FiltersIn text start fs) (p : Nat → Nat → Bool) :
    ((editsOf replacement fs).all fun g => !p g.offset g.stop) =
      fs.all fun f => !((replacement f).isSome && p f.start f.stop) := by
  induction fs generalizing start with
  | nil => rfl
  | cons f fs ih =>
      have hrest := ih h.2.2.2.2
      have hstop : f.start + (f.stop - f.start) = f.stop :=
        Nat.add_sub_of_le (Nat.le_of_lt h.2.1)
      rw [editsOf, List.filterMap_cons, ← editsOf, List.all_cons, ← hrest]
      cases replacement f with
      | none => rfl
      | some text => simp [Edit.stop, hstop]

namespace RuleSet

variable {text : List Char}

/-- The edits that replace filters of a text run. -/
def filterEdits (r : RuleSet) (run : TextRun) : List Edit :=
  Filter.editsOf
    (fun f => (r.migrateFilter f (run.start + f.start) (f.stop - f.start)).replacement)
    (Filter.findAll (Tokens.read run.content).list)

/-- The edits of the expression transforms that stay clear of every replaced filter. -/
def clearEdits (r : RuleSet) (run : TextRun) : List Edit :=
  (r.migrateExpression run.content run.start).edits.filter fun e =>
    (r.filterEdits run).all fun g => !rangesMeet e.offset e.stop g.offset g.stop

/-- A run of blanks is not edited. -/
theorem edits_textChanges_of_blank (r : RuleSet) (run : TextRun)
    (h : run.content.toList.all isWhiteSpace = true) : (r.textChanges run).edits = [] := by
  rw [textChanges, if_pos h]
  rfl

/-- The edits of other runs are those of the filters, and those of the aliases that meet no
filter. -/
theorem edits_textChanges_of_not_blank (r : RuleSet) (run : TextRun)
    (h : run.content.toList.all isWhiteSpace = false) :
    (r.textChanges run).edits =
      (r.filterEdits run ++ r.clearEdits run).map (.ofEdit run.start) := by
  have hin := Filter.filtersIn_findAll run.content
  rw [textChanges, if_neg (by simp [h]), Changes.edits_append, List.map_append, clearEdits,
    filterEdits]
  simp only [Filter.all_editsOf _ hin (rangesMeet _ _)]
  rw [Filter.editsOf, List.filterMap_map, List.map_filterMap]
  congr 2
  · funext f
    simp [SourceEdit.ofEdit, Function.comp_def]
  · apply List.filter_congr
    intro e _
    simp [List.any_filter, List.any_map, List.not_any_eq_all_not, Function.comp_def, Edit.stop]

theorem edits_textChanges (r : RuleSet) (run : TextRun) :
    (r.textChanges run).edits = [] ∨
      (r.textChanges run).edits =
        (r.filterEdits run ++ r.clearEdits run).map (.ofEdit run.start) := by
  cases hblank : run.content.toList.all isWhiteSpace with
  | true => exact .inl (r.edits_textChanges_of_blank run hblank)
  | false => exact .inr (r.edits_textChanges_of_not_blank run hblank)

/-- The edits of the expression transforms stand inside the expression. -/
theorem laid_migrateExpression (r : RuleSet) (expression : String) (start : Nat) :
    Laid expression.toList 0 (byteLength expression)
      (r.migrateExpression expression start).edits :=
  laid_of_editsIn (r.editsIn_migrateExpression expression start)
    (fun _ he => pos_length_of_mem_migrateExpression he)

/-- A filter that is replaced is not empty. -/
theorem pos_length_of_mem_filterEdits {r : RuleSet} {run : TextRun} {e : Edit}
    (h : e ∈ r.filterEdits run) : 0 < e.length := by
  obtain ⟨f, hf, heq⟩ := List.mem_filterMap.mp h
  obtain ⟨new, -, rfl⟩ := Option.map_eq_some_iff.mp heq
  exact Nat.sub_pos_of_lt (Filter.lt_of_mem_filtersIn (Filter.filtersIn_findAll run.content) hf)

/-- In a run of text the filters are apart from each other, and the transforms stay clear of
them. -/
theorem laid_filterEdits_append (r : RuleSet) (run : TextRun) :
    Laid run.content.toList 0 (byteLength run.content) (r.filterEdits run ++ r.clearEdits run) := by
  have hfilters : Laid run.content.toList 0 (byteLength run.content) (r.filterEdits run) :=
    laid_of_editsIn (Filter.editsIn_editsOf _ (Filter.filtersIn_findAll run.content))
      (fun _ he => pos_length_of_mem_filterEdits he)
  have hclear : Laid run.content.toList 0 (byteLength run.content) (r.clearEdits run) :=
    (r.laid_migrateExpression run.content run.start).sublist List.filter_sublist
  refine hfilters.append_of_clear hclear ?_ ?_ ?_
  · intro e he
    exact pos_length_of_mem_filterEdits he
  · intro e he
    exact pos_length_of_mem_migrateExpression (List.mem_filter.mp he).1
  · intro a ha b hb
    simpa using List.all_eq_true.mp (List.mem_filter.mp hb).2 a ha

/-- The edits of a text run stand inside it. -/
theorem laid_textChanges (r : RuleSet) {run : TextRun} (h : run.Placed text) :
    Laid text run.start (run.start + byteLength run.content) (r.textChanges run).replacements := by
  rw [Changes.replacements]
  cases r.edits_textChanges run with
  | inl hnone =>
      rw [hnone]
      exact .nil
  | inr hedits =>
      rw [hedits, SourceEdit.map_toEdit_ofEdit]
      exact (r.laid_filterEdits_append run).shift h.occurs

end RuleSet

/-! ## Start tags -/

/-- A value starts before its attribute ends. -/
theorem Attribute.Placed.valueStart_lt_stop {text : List Char} {a : Attribute} (h : a.Placed text)
    (hhas : a.hasValue = true) : a.valueStart < a.stop := by
  have hstop := h.stop_eq
  rw [Attribute.hasValue, Bool.or_eq_true] at hhas
  cases hquoted : a.quoted with
  | true =>
      rw [hquoted, if_pos rfl] at hstop
      omega
  | false =>
      have hvalue : byteLength a.value ≠ 0 := by
        rw [byteLength, Ne, byteCount_eq_zero_iff]
        simpa [hquoted] using hhas
      omega

namespace RuleSet

variable {text : List Char}

/-- A value is left alone, replaced as a whole, or edited inside. -/
theorem edits_valueChanges (r : RuleSet) (a : Attribute) :
    (r.valueChanges a).edits = [] ∨
      (a.hasValue = true ∧
        ∃ new, (r.valueChanges a).edits = [.replace a.valueStart (byteLength a.value) new]) ∨
      (r.valueChanges a).edits =
        (r.migrateExpression a.value a.valueStart).edits.map (.ofEdit a.valueStart) := by
  rw [valueChanges]
  split
  · exact .inl rfl
  · next hhas =>
      extract_lets transformed migrated
      split
      · exact .inl rfl
      · split
        · exact .inr (.inl ⟨by simpa using hhas, _, rfl⟩)
        · exact .inr (.inr rfl)

/-- The edits of a value stand inside it. -/
theorem laid_valueChanges (r : RuleSet) {a : Attribute} (h : a.Placed text) :
    Laid text a.valueStart a.stop (r.valueChanges a).replacements := by
  have hstop : a.valueStart + byteLength a.value ≤ a.stop := by
    have := h.stop_eq
    omega
  rw [Changes.replacements]
  obtain hnone | ⟨hhas, new, hedits⟩ | hedits := r.edits_valueChanges a
  · rw [hnone]
    exact .nil
  · rw [hedits]
    exact .single ⟨Nat.le_refl _, h.valueStart_lt_stop hhas, hstop,
      h.value.isBoundary_start, h.value.isBoundary_stop⟩
  · rw [hedits, SourceEdit.map_toEdit_ofEdit]
    exact ((r.laid_migrateExpression a.value a.valueStart).shift h.value).mono (Nat.le_refl _) hstop

/-- The edit of a name covers the name. -/
theorem laid_nameChanges (r : RuleSet) {a : Attribute} (h : a.Placed text) :
    Laid text a.start a.valueStart (r.nameChanges a).replacements := by
  obtain ⟨letters, hletters, hname, hoccurs⟩ := h.name
  have hlength : byteLength a.name = byteCount letters := by rw [hname, byteLength_lowerCase]
  have hpos : byteLength a.name ≠ 0 := by
    rw [hlength, Ne, byteCount_eq_zero_iff]
    exact hletters
  have hle := h.name_le
  rw [nameChanges]
  split
  · exact .nil
  · refine .single ⟨Nat.le_refl _, ?_, hle, hoccurs.isBoundary_start, ?_⟩
    · show a.start < a.valueStart
      omega
    · show IsBoundary text (a.start + byteLength a.name)
      rw [hlength]
      exact hoccurs.isBoundary_stop

/-- The edits of an attribute stand inside it. -/
theorem laid_attributeChanges (r : RuleSet) {a : Attribute} (h : a.Placed text) :
    Laid text a.start a.stop (r.attributeChanges a).replacements := by
  have hstart : a.start ≤ a.valueStart := Nat.le_trans (Nat.le_add_right _ _) h.name_le
  have hstop : a.valueStart ≤ a.stop := by
    have := h.stop_eq
    omega
  have hvalue := r.laid_valueChanges h
  rw [attributeChanges]
  dsimp only
  split
  · exact .nil
  · split
    · exact hvalue.mono hstart (Nat.le_refl _)
    · rw [Changes.replacements_append]
      exact hvalue.append_swap (r.laid_nameChanges h) hstart hstop

/-- The edits of the attributes of a tag are laid between its name and its end. -/
theorem laid_join_attributeChanges (r : RuleSet) {start stop : Nat} {as : List Attribute}
    (h : AttributesIn text start as stop) :
    Laid text start stop (Changes.join (as.map r.attributeChanges)).replacements := by
  induction as generalizing start with
  | nil => exact .nil
  | cons a as ih =>
      obtain ⟨hstart, hplaced, hstop, hrest⟩ := h
      rw [List.map_cons, Changes.replacements_join_cons]
      exact ((r.laid_attributeChanges hplaced).append (ih hrest) hplaced.start_le_stop hstop).mono
        hstart (Nat.le_refl _)

/-- A name is only added after the tag's name, in front of all attributes. -/
theorem laid_modelNameChanges {tag : StartTag} {stop : Nat} (h : tag.Placed text stop) :
    Laid text tag.nameStop (tag.nameStop + 1) (modelNameChanges tag).replacements := by
  obtain ⟨letters, hname, hoccurs⟩ := h.name
  have hboundary : IsBoundary text tag.nameStop := by
    have hstop := hoccurs.isBoundary_stop
    have hlt : ('<').utf8Size = 1 := rfl
    rw [byteCount_cons, hlt, ← Nat.add_assoc] at hstop
    rw [StartTag.nameStop, hname, byteLength_lowerCase]
    exact hstop
  rw [modelNameChanges]
  split
  · exact .single ⟨Nat.le_refl _, Nat.lt_succ_self _, Nat.le_succ _, hboundary, hboundary⟩
  · exact .nil

/-- A name is only added to a tag that has attributes. -/
theorem nameStop_lt_of_modelNameChanges {tag : StartTag} {stop : Nat} (h : tag.Placed text stop)
    (hedits : (modelNameChanges tag).replacements ≠ []) : tag.nameStop + 1 ≤ stop := by
  have hattributes := h.attributes
  cases has : tag.attributes with
  | nil =>
      have hnone : tag.attribute? "ng-model" = none := by rw [StartTag.attribute?, has]; rfl
      rw [modelNameChanges, hnone] at hedits
      contradiction
  | cons a as =>
      rw [has] at hattributes
      have hspan := hattributes.2.1.start_le_stop
      have hfirst := hattributes.1
      have hlast := hattributes.2.2.1
      omega

/-- The edits of a start tag stand behind its name. -/
theorem laid_tagChanges (r : RuleSet) {tag : StartTag} {stop : Nat} (h : tag.Placed text stop) :
    Laid text tag.nameStop stop (r.tagChanges tag).replacements := by
  have hattributes := r.laid_join_attributeChanges h.attributes
  rw [tagChanges, Changes.replacements_append]
  by_cases hnone : (modelNameChanges tag).replacements = []
  · rw [hnone, List.append_nil]
    exact hattributes.mono (Nat.le_succ _) (Nat.le_refl _)
  · exact hattributes.append_swap (laid_modelNameChanges h) (Nat.le_succ _)
      (nameStop_lt_of_modelNameChanges h hnone)

/-! ## Forests -/

/-- What becomes of an item. -/
def itemChanges (r : RuleSet) : Item → Changes
  | .text run => r.textChanges run
  | .tag tag => r.tagChanges tag

/-- The edits of the events of a scan stand one after the other. -/
theorem laid_events (r : RuleSet) {start : Nat} {es : List MarkupEvent}
    (h : EventsIn text start es) :
    Laid text start (byteCount text)
      ((es.flatMap MarkupEvent.items).flatMap fun i => (r.itemChanges i).replacements) := by
  induction es generalizing start with
  | nil => exact .nil
  | cons e es ih =>
      obtain ⟨stop, hstop, hplaced, hrest⟩ := h
      rw [List.flatMap_cons, List.flatMap_append]
      cases e with
      | text run =>
          obtain ⟨hrun, hstart, hle⟩ := hplaced
          have hfirst := (r.laid_textChanges hrun).mono (Nat.le_refl run.start) hle
          have hspan : run.start ≤ stop := by omega
          simpa [MarkupEvent.items, itemChanges] using
            (hfirst.append (ih hrest) hspan hstop).mono hstart (Nat.le_refl _)
      | start tag closed =>
          obtain ⟨htag, hstart⟩ := hplaced
          have hname : start ≤ tag.nameStop := by rw [StartTag.nameStop]; omega
          simpa [MarkupEvent.items, itemChanges] using
            ((r.laid_tagChanges htag).append (ih hrest) htag.nameStop_le hstop).mono hname
              (Nat.le_refl _)
      | stop name =>
          simpa [MarkupEvent.items] using (ih hrest).mono hplaced (Nat.le_refl _)

mutual

/-- The walk visits each item once: children before their tag, instead of after it. -/
theorem perm_replacements_nodeChanges (r : RuleSet) (n : Node) :
    (r.nodeChanges n).replacements.Perm
      (n.items.flatMap fun i => (r.itemChanges i).replacements) := by
  cases n with
  | text run => simp [nodeChanges, itemChanges]
  | element tag children =>
      rw [nodeChanges, Changes.replacements_append, Node.items_element, List.flatMap_cons]
      exact ((r.perm_replacements_forestChanges children).append_right _).trans
        List.perm_append_comm

/-- The edits of a forest are those of its items. -/
theorem perm_replacements_forestChanges (r : RuleSet) (ns : List Node) :
    (r.forestChanges ns).replacements.Perm
      ((Node.contents ns).flatMap fun i => (r.itemChanges i).replacements) := by
  cases ns with
  | nil => simp [forestChanges]
  | cons n ns =>
      rw [forestChanges, Changes.replacements_append, Node.contents_cons, List.flatMap_append]
      exact (r.perm_replacements_nodeChanges n).append (r.perm_replacements_forestChanges ns)

end

/-- The edits of a migration are laid in its source. -/
theorem laid_forestChanges (r : RuleSet) (source : String) :
    Laid source.toList 0 (byteLength source)
      (r.forestChanges (Node.parse source)).replacements := by
  have hevents := r.laid_events (MarkupEvent.eventsIn_scan source)
  rw [← Node.contents_ofEvents] at hevents
  exact hevents.perm (r.perm_replacements_forestChanges (Node.parse source)).symm

end RuleSet

end TemplateMigration
