import TemplateMigration.Proofs.Migration.Quiet

/-!
# TemplateMigration.Proofs.Migration.Settling

What a migration leaves to a second pass.

A second pass changes nothing exactly if the segments of the migrated template are quiet
(`Segment.AllQuiet`).  Which these are can be said of the source, if what is put into its start tags
stays in its place and the removal of end tags cuts into nothing (`Segment.Keeps`): then the
migrated template is read as the rewritten segments without the removed end tags.

No renamed attribute is renamed again, no value transform applies twice, and no form model is left
that needs a name.  What can be left is an alias that a value transform kept, that came with a
copied `id`, or that the removal of aliases or end tags brought together; an attribute whose error
hung on an end tag in its value; a repeated attribute that the first pass passed over and the second
meets, since another one has a new name; a filter or an alias in a run of text, which may have grown
over a removed end tag; and an end tag that was written around another one.  The migration settles
exactly if there is none of it (`Segment.LeavesNothing`): `Session.migrate_settles`.  An alias in a
negated expression is such a leftover (`Session.not_forall_hasChanges_eq_false`).  Where no value
transform and no filter comes in, only a doubled alias is one:
`WrittenAttribute.leavesNothing_of_not_doubled` and `RuleSet.quietText_newText`.
-/

namespace TemplateMigration

open MarkupEvent
open VoidEndTag (IsTag sweep)

/-! ## Attributes -/

namespace RuleSet

/-- Under the built-in rules an attribute with an error is not supported, or would be renamed. -/
theorem rename?_ne_none_of_blocks {a : Attribute} (h : default.blocks a = true)
    (hsupported : default.isUnsupportedAttribute a.name = false) :
    default.rename? a.name ≠ none := by
  intro hrename
  rw [blocks, hsupported, anyError_valueChanges, valueTransform?_of_rename? hrename] at h
  simp at h

/-- A value without a value transform becomes the text without the alias. -/
theorem newContent_eq_clear {a : Attribute} (hblocks : default.blocks a = false)
    (h : default.valueTransform? a.name = none) :
    default.newContent a = Alias.clear [] a.value.toList := by
  have hsplices := default.splices_newContent a hblocks
  rw [valueChanges_of_valueTransform? h] at hsplices
  cases hvalue : a.hasValue with
  | true =>
      rw [hvalue, if_pos rfl, Changes.replacements, edits_migrateExpression_default,
        SourceEdit.map_toEdit_ofEdit] at hsplices
      exact Alias.eq_clear_of_splices hsplices
  | false =>
      have hempty : a.value = "" := by
        rw [Attribute.hasValue, Bool.or_eq_false_iff] at hvalue
        simpa using hvalue.2
      rw [hvalue, if_neg Bool.false_ne_true, hempty] at hsplices
      rw [hempty]
      simpa [Alias.clear] using hsplices.unique (.nil _ _) .nil

/-- Where no filter is replaced, a text becomes the text without the alias. -/
theorem newText_eq_clear {content : List Char} {offset : Nat}
    (h : default.filterEdits ⟨String.ofList content, offset⟩ = []) :
    default.newText offset content = Alias.clear [] content := by
  have hedits : (default.textChanges ⟨String.ofList content, offset⟩).edits =
      ((Alias.offsets (String.ofList content)).map Alias.edit).map (.ofEdit offset) := by
    cases hblank : (String.ofList content).toList.all isWhiteSpace with
    | true =>
        have hv : 'v' ∉ (String.ofList content).toList := fun hv =>
          absurd (List.all_eq_true.mp hblank 'v' hv) (by decide)
        rw [default.edits_textChanges_of_blank ⟨String.ofList content, offset⟩ hblank,
          Alias.offsets, Alias.offsetsFrom_eq_nil hv, List.map_nil, List.map_nil]
    | false =>
        rw [default.edits_textChanges_of_not_blank ⟨String.ofList content, offset⟩ hblank, h,
          List.nil_append, clearEdits, h, edits_migrateExpression_default]
        simp
  have hsplices := default.splices_newText offset content
  rw [Changes.replacements, hedits, SourceEdit.map_toEdit_ofEdit] at hsplices
  have hclear : default.newText offset content = Alias.clear [] (String.ofList content).toList :=
    Alias.eq_clear_of_splices (by rwa [String.toList_ofList])
  rwa [String.toList_ofList] at hclear

/-- A text without a bar is quiet afterwards, unless the alias is doubled in it. -/
theorem quietText_newText {content : List Char} (hbar : '|' ∉ content)
    (hdoubled : ¬ Alias.Doubled content) (offset : Nat) :
    QuietText (default.newText offset content) := by
  have hfilters : default.filterEdits ⟨String.ofList content, offset⟩ = [] := by
    rw [filterEdits, Filter.findAll_eq_nil hbar]
    rfl
  have hbar' : '|' ∉ Alias.clear [] content := fun h => hbar (Alias.mem_of_mem_clear h)
  rw [newText_eq_clear hfilters, QuietText, Filter.findAll_eq_nil hbar']
  exact ⟨by simp, Alias.offsets_clear hdoubled⟩

end RuleSet

namespace WrittenAttribute

variable {a : WrittenAttribute} {offset : Nat}

/-- What becomes of an attribute leaves nothing to a second pass: an error about it does not hang on
an end tag in its value, and if there is no error, no alias counts in what becomes of the value. -/
def LeavesNothing (offset : Nat) (a : WrittenAttribute) : Prop :=
  if a.isBlocked then a.swept.isBlocked = true
  else Alias.offsets (String.ofList (sweep 0 (RuleSet.default.newContent (a.located offset)))) = []

instance (offset : Nat) (a : WrittenAttribute) : Decidable (a.LeavesNothing offset) :=
  inferInstanceAs (Decidable (if a.isBlocked then _ else _))

/-- No rule knows the name of an attribute that has been rewritten. -/
theorem rename?_rewritten (h : a.isBlocked = false) :
    RuleSet.default.rename? (a.rewritten .default offset).name = none := by
  show RuleSet.default.rename? (lowerCase (RuleSet.default.newLetters _ _)) = none
  rw [RuleSet.newLetters, blocks_located, h, if_neg Bool.false_ne_true]
  cases hrename : RuleSet.default.rename? (a.located offset).name with
  | none => exact hrename
  | some rule =>
      have hsafe := (RuleSet.safeName_of_rename? hrename).2.2.2
      refine List.find?_eq_none.mpr ?_
      intro other hother
      simpa using List.all_eq_true.mp hsafe other hother

/-- The new name of an attribute is supported. -/
theorem isUnsupportedAttribute_rewritten (h : a.isBlocked = false) :
    RuleSet.default.isUnsupportedAttribute (a.rewritten .default offset).name = false := by
  have hall : RuleSet.defaultRenames.all (fun rule =>
      !RuleSet.default.isUnsupportedAttribute (lowerCase rule.newName.toList)) = true := by decide
  show RuleSet.default.isUnsupportedAttribute (lowerCase (RuleSet.default.newLetters _ _)) = false
  rw [RuleSet.newLetters, blocks_located, h, if_neg Bool.false_ne_true]
  cases hrename : RuleSet.default.rename? (a.located offset).name with
  | none =>
      rw [isBlocked, RuleSet.blocks, Bool.or_eq_false_iff] at h
      exact h.1
  | some rule =>
      have hmem : rule ∈ RuleSet.defaultRenames := List.mem_of_find?_eq_some hrename
      simpa using List.all_eq_true.mp hall rule hmem

theorem content_rewritten (a : WrittenAttribute) (offset : Nat) :
    (a.rewritten .default offset).content = RuleSet.default.newContent (a.located offset) := by
  cases hvalue : a.value? with
  | some v => simp [content, rewritten, hvalue]
  | none =>
      have hempty : (a.located offset).value = "" := by simp [located, content, hvalue]
      have hnone : (a.located offset).hasValue = false := by
        simp [Attribute.hasValue, located, isQuoted, content, hvalue]
      have hnew : RuleSet.default.newContent (a.located offset) = [] := by
        rw [RuleSet.newContent, RuleSet.valueChanges, hnone, hempty]
        split
        · rfl
        · exact (Edit.Splices.nil _ _).make_eq .nil
      simp [content, rewritten, hvalue, hnew]

theorem content_swept (a : WrittenAttribute) : a.swept.content = sweep 0 a.content := by
  cases hvalue : a.value? with
  | some v => simp [content, swept, hvalue, WrittenValue.swept]
  | none => simp [content, swept, hvalue, sweep]

/-- **What a second pass finds in an attribute.** -/
theorem quiet_rewritten_iff :
    (a.rewritten .default offset).swept.Quiet ↔ a.LeavesNothing offset := by
  rw [LeavesNothing, Quiet]
  cases hblocked : a.isBlocked with
  | true =>
      rw [rewritten_of_blocks (by rw [blocks_located, hblocked]), if_pos rfl]
      refine or_iff_left_of_imp ?_
      rintro ⟨hrename, -⟩
      -- without a new name only the name itself can be the error, and it has not changed
      cases hsupported : RuleSet.default.isUnsupportedAttribute a.name with
      | true =>
          have hswept : RuleSet.default.isUnsupportedAttribute (a.swept.located 0).name = true :=
            hsupported
          rw [isBlocked, RuleSet.blocks, hswept, Bool.true_or]
      | false => exact absurd hrename (RuleSet.rename?_ne_none_of_blocks hblocked hsupported)
  | false =>
      have hrename : RuleSet.default.rename? (a.rewritten .default offset).swept.name = none :=
        rename?_rewritten hblocked
      have hsupported : RuleSet.default.isUnsupportedAttribute
          (a.rewritten .default offset).swept.name = false :=
        isUnsupportedAttribute_rewritten hblocked
      have hcontent : (a.rewritten .default offset).swept.content =
          sweep 0 (RuleSet.default.newContent (a.located offset)) := by
        rw [content_swept, content_rewritten]
      rw [if_neg Bool.false_ne_true, hcontent, and_iff_right hrename, or_iff_right]
      exact fun hblocks => RuleSet.rename?_ne_none_of_blocks hblocks hsupported hrename

/-- An attribute that gives a name can be edited only in its value. -/
theorem quiet_name_iff {value : List Char} :
    Quiet ⟨['n', 'a', 'm', 'e'], some ⟨[], [], .quoted '"', value⟩⟩ ↔
      Alias.offsets (String.ofList value) = [] := by
  have hrename : RuleSet.default.rename? "name" = none := by decide
  have hsupported : RuleSet.default.isUnsupportedAttribute "name" = false := by decide
  refine (or_iff_right fun hblocks => ?_).trans (and_iff_right hrename)
  exact RuleSet.rename?_ne_none_of_blocks hblocks hsupported hrename

/-- A value without a value transform and without an end tag leaves nothing, unless the alias is
doubled in it. -/
theorem leavesNothing_of_not_doubled (hblocked : a.isBlocked = false)
    (htransform : RuleSet.default.valueTransform? a.name = none) (hgt : '>' ∉ a.content)
    (hdoubled : ¬ Alias.Doubled a.content) : a.LeavesNothing offset := by
  have hvalue : (a.located offset).value.toList = a.content := String.toList_ofList
  have hnew : RuleSet.default.newContent (a.located offset) = Alias.clear [] a.content := by
    rw [RuleSet.newContent_eq_clear (by rw [blocks_located, hblocked]) htransform, hvalue]
  rw [LeavesNothing, hblocked, if_neg Bool.false_ne_true, hnew,
    VoidEndTag.sweep_of_gt_notMem fun h => hgt (Alias.mem_of_mem_clear h)]
  exact Alias.offsets_clear hdoubled

end WrittenAttribute

/-! ## Start tags -/

namespace TagPart

/-- The parts of a start tag leave nothing to a second pass.  `seen` holds the names that the first
pass has met, and `met` those that the second pass will have met.  Each passes over an attribute
whose name it has met, so a repeated attribute is left as it is by the first pass, and a new name
decides which one is repeated for the second. -/
def LeaveNothing (seen met : List String) (offset : Nat) : List TagPart → Prop
  | [] => True
  | gap c :: ps => LeaveNothing seen met (offset + c.utf8Size) ps
  | attr a :: ps =>
      if seen.contains a.name then
        if met.contains a.name then LeaveNothing seen met (offset + byteCount a.render) ps
        else
          a.swept.Quiet ∧ LeaveNothing seen (met ++ [a.name]) (offset + byteCount a.render) ps
      else if met.contains (a.rewritten .default offset).name then
        LeaveNothing (seen ++ [a.name]) met (offset + byteCount a.render) ps
      else
        a.LeavesNothing offset ∧
          LeaveNothing (seen ++ [a.name]) (met ++ [(a.rewritten .default offset).name])
            (offset + byteCount a.render) ps

instance decidableLeaveNothing : (seen met : List String) → (offset : Nat) →
    (ps : List TagPart) → Decidable (LeaveNothing seen met offset ps)
  | _, _, _, [] => isTrue trivial
  | seen, met, offset, gap c :: ps => decidableLeaveNothing seen met (offset + c.utf8Size) ps
  | seen, met, offset, attr a :: ps =>
      letI (seen met : List String) :=
        decidableLeaveNothing seen met (offset + byteCount a.render) ps
      inferInstanceAs (Decidable (if seen.contains a.name then if met.contains a.name then _ else _
        else if met.contains (a.rewritten .default offset).name then _ else _))

/-- What a second pass finds in the parts of a start tag. -/
theorem allFirsts_quiet_rewriteFrom_iff (seen met : List String) (offset n : Nat)
    (ps : List TagPart) :
    AllFirsts (fun _ a => a.Quiet) met n ((rewriteFrom .default seen offset ps).map swept) ↔
      LeaveNothing seen met offset ps := by
  induction ps generalizing seen met offset n with
  | nil => exact Iff.rfl
  | cons p ps ih =>
      cases p with
      | gap c => exact ih seen met _ _
      | attr a =>
          have hname : ∀ b : WrittenAttribute, b.swept.name = b.name := fun _ => rfl
          rw [rewriteFrom, LeaveNothing]
          split
          · rw [List.map_cons, swept, AllFirsts, hname]
            split
            · exact ih _ _ _ _
            · exact and_congr_right fun _ => ih _ _ _ _
          · rw [List.map_cons, swept, AllFirsts, hname]
            split
            · exact ih _ _ _ _
            · exact and_congr WrittenAttribute.quiet_rewritten_iff (ih _ _ _ _)

end TagPart

namespace WrittenTag

variable {t : WrittenTag} {offset : Nat}

/-- What becomes of a start tag leaves nothing to a second pass: neither the name that a form model
is given, if it is given one, nor the other attributes. -/
structure LeavesNothing (offset : Nat) (t : WrittenTag) : Prop where
  name : ∀ name ∈ (t.located offset).newName?.toList,
    Alias.offsets (String.ofList (sweep 0 name.toList)) = []
  attributes : TagPart.LeaveNothing [] ((t.located offset).newName?.toList.map fun _ => "name")
    (offset + byteCount ('<' :: t.letters)) t.parts

theorem leavesNothing_iff :
    t.LeavesNothing offset ↔
      (∀ name ∈ (t.located offset).newName?.toList,
        Alias.offsets (String.ofList (sweep 0 name.toList)) = []) ∧
      TagPart.LeaveNothing [] ((t.located offset).newName?.toList.map fun _ => "name")
        (offset + byteCount ('<' :: t.letters)) t.parts :=
  ⟨fun h => ⟨h.name, h.attributes⟩, fun ⟨hname, hattributes⟩ => ⟨hname, hattributes⟩⟩

instance (offset : Nat) (t : WrittenTag) : Decidable (t.LeavesNothing offset) :=
  decidable_of_iff _ leavesNothing_iff.symm

/-- **What a second pass finds in a start tag.** -/
theorem quiet_rewritten_iff :
    (t.rewritten .default offset).swept.Quiet ↔ t.LeavesNothing offset := by
  rw [leavesNothing_iff, Quiet, swept, rewritten, List.map_append]
  cases (t.located offset).newName? with
  | none => simpa using TagPart.allFirsts_quiet_rewriteFrom_iff [] [] _ 0 t.parts
  | some name =>
      -- the attribute that is put in comes first, and only its value can be edited
      rw [Option.toList_some, List.flatMap_singleton, List.forall_mem_singleton, List.map_singleton,
        ← WrittenAttribute.quiet_name_iff]
      exact and_congr_right fun _ => TagPart.allFirsts_quiet_rewriteFrom_iff [] ["name"] _ _ t.parts

end WrittenTag

/-! ## End tags -/

/-- Of two texts that part, the sweep keeps both or takes something out of one. -/
theorem VoidEndTag.sweep_append_eq_self_iff {xs ys : List Char} (h : Parted xs ys) :
    sweep 0 (xs ++ ys) = xs ++ ys ↔ sweep 0 xs = xs ∧ sweep 0 ys = ys := by
  rw [sweep_append h]
  constructor
  · intro heq
    have hlength := congrArg List.length heq
    rw [List.length_append, List.length_append] at hlength
    have hxs := length_sweep_le xs
    have hys := length_sweep_le ys
    exact List.append_inj heq (by omega)
  · rintro ⟨hxs, hys⟩
    rw [hxs, hys]

namespace Segment

variable {ps : List Segment} {offset : Nat}

/-- There is no end tag to remove exactly if there is none in a run of text and none in another
segment. -/
theorem sweep_spell_eq_self_iff (h : ReadsAll ps) (pending : List Char) :
    sweep 0 (pending ++ spell ps) = pending ++ spell ps ↔
      (∀ run ∈ textRuns pending ps, sweep 0 run = run) ∧
        ∀ p ∈ ps, p.isText = false → sweep 0 p.render = p.render := by
  induction ps generalizing pending with
  | nil => simp [textRuns]
  | cons p ps ih =>
      rw [spell_cons, textRuns, List.forall_mem_cons]
      cases htext : p.isText with
      | true =>
          rw [← List.append_assoc, ih h.2]
          simp
      | false =>
          have hparted : VoidEndTag.Parted pending (p.render ++ spell ps) := by
            obtain ⟨more, hmore⟩ := exists_render_eq_cons htext
            exact .inr (by simp [hmore])
          have hrest := ih h.2 []
          rw [List.nil_append] at hrest
          rw [VoidEndTag.sweep_append_eq_self_iff hparted,
            VoidEndTag.sweep_append_eq_self_iff (parted h.1 (by simp [htext])), hrest]
          simp only [Bool.false_eq_true, if_false, List.forall_mem_cons, forall_const]
          tauto

/-! ## Templates -/

/-- Of a segment that is not text nothing is left, or one segment that is not text. -/
theorem swept_of_isText_eq_false {p : Segment} (h : p.isText = false) :
    p.isRemoved = true ∧ p.swept = [] ∨
      p.isRemoved = false ∧ ∃ q, p.swept = [q] ∧ q.isText = false := by
  cases p with
  | text content => contradiction
  | endTag letters body =>
      rw [swept, isRemoved]
      split
      · next htag => exact .inl ⟨decide_eq_true htag, rfl⟩
      · next htag => exact .inr ⟨decide_eq_false htag, _, rfl, rfl⟩
  | _ => exact .inr ⟨rfl, _, rfl, rfl⟩

/-- The removal of end tags joins the texts around them. -/
theorem textRuns_sweptAll (h : SweepableAll ps) (pending : List Char) :
    textRuns pending (sweptAll ps) = textRuns pending (ps.filter (!·.isRemoved)) := by
  induction ps generalizing pending with
  | nil => rfl
  | cons p ps ih =>
      rw [sweptAll, List.flatMap_cons, ← sweptAll]
      cases htext : p.isText with
      | true =>
          obtain ⟨content, rfl⟩ : ∃ content, p = text content := by
            cases p with
            | text content => exact ⟨content, rfl⟩
            | _ => contradiction
          rw [swept, h.1.1, List.filter_cons_of_pos rfl]
          exact ih h.2 _
      | false =>
          obtain ⟨hremoved, hswept⟩ | ⟨hremoved, q, hswept, hq⟩ := swept_of_isText_eq_false htext
          · rw [hswept, List.filter_cons_of_neg (by simp [hremoved])]
            exact ih h.2 _
          · rw [hswept, List.filter_cons_of_pos (by simp [hremoved]), List.singleton_append]
            rw [textRuns, textRuns, hq, htext, if_neg Bool.false_ne_true, if_neg Bool.false_ne_true,
              ih h.2]

/-- The removal of end tags leaves the start tags, without the end tags in their values. -/
theorem forall_tag_sweptAll_iff {P : WrittenTag → Prop} :
    (∀ p ∈ sweptAll ps, ∀ tag ∈ p.tag?.toList, P tag) ↔
      ∀ p ∈ ps, ∀ tag ∈ p.tag?.toList, P tag.swept := by
  have hone : ∀ p : Segment, (∀ q ∈ p.swept, ∀ tag ∈ q.tag?.toList, P tag) ↔
      ∀ tag ∈ p.tag?.toList, P tag.swept := by
    intro p
    cases p with
    | endTag letters body =>
        rw [swept]
        split <;> simp [tag?]
    | _ => simp [swept, tag?]
  simp only [sweptAll, List.forall_mem_flatMap, hone]

/-- Which end tags are left in segments that are not text. -/
theorem forall_sweep_sweptAll_iff (h : ReadsAll ps) (hs : SweepableAll ps) :
    (∀ p ∈ sweptAll ps, p.isText = false → sweep 0 p.render = p.render) ↔
      ∀ p ∈ ps, p.isText = false → sweep 0 (sweep 0 p.render) = sweep 0 p.render := by
  induction ps with
  | nil => simp [sweptAll]
  | cons p ps ih =>
      rw [sweptAll, List.flatMap_cons, ← sweptAll, List.forall_mem_append, List.forall_mem_cons,
        ih h.2 hs.2, sweep_render h.1 hs.1]
      refine and_congr_left fun _ => ?_
      cases htext : p.isText with
      | true =>
          cases p with
          | text content => simp [swept, isText]
          | _ => contradiction
      | false =>
          obtain ⟨-, hswept⟩ | ⟨-, q, hswept, hq⟩ := swept_of_isText_eq_false htext
          · simp [hswept, sweep]
          · simp [hswept, hq]

theorem forall_mem_rewriteFrom_iff {P : Segment → Prop} {r : RuleSet} :
    (∀ p ∈ rewriteFrom r offset ps, P p) ↔ AllFrom (fun n p => P (p.rewritten r n)) offset ps := by
  induction ps generalizing offset with
  | nil => simp [rewriteFrom, AllFrom]
  | cons p ps ih => rw [rewriteFrom, List.forall_mem_cons, AllFrom, ih]

/-- What is put into the start tags stays in its place, and the removal of end tags cuts into
nothing. -/
structure Keeps (ps : List Segment) : Prop where
  fits : AllTags (WrittenTag.Fits .default) 0 ps
  sweepable : SweepableAll (rewriteFrom .default 0 ps)

instance (ps : List Segment) : Decidable (Keeps ps) :=
  decidable_of_iff
    (AllTags (WrittenTag.Fits .default) 0 ps ∧ SweepableAll (rewriteFrom .default 0 ps))
    ⟨fun ⟨hfits, hsweepable⟩ => ⟨hfits, hsweepable⟩, fun h => ⟨h.fits, h.sweepable⟩⟩

/-- What becomes of segments leaves nothing to a second pass: nothing is left in a start tag, or in
the texts as they are joined where end tags are removed, and no end tag is written around another
one. -/
structure LeavesNothing (ps : List Segment) : Prop where
  tags : AllTags WrittenTag.LeavesNothing 0 ps
  runs : ∀ run ∈ textRuns [] ((rewriteFrom .default 0 ps).filter (!·.isRemoved)),
    RuleSet.QuietText run ∧ sweep 0 run = run
  endTags : ∀ p ∈ rewriteFrom .default 0 ps, p.isText = false →
    sweep 0 (sweep 0 p.render) = sweep 0 p.render

theorem leavesNothing_iff :
    LeavesNothing ps ↔ AllTags WrittenTag.LeavesNothing 0 ps ∧
      (∀ run ∈ textRuns [] ((rewriteFrom .default 0 ps).filter (!·.isRemoved)),
        RuleSet.QuietText run ∧ sweep 0 run = run) ∧
      ∀ p ∈ rewriteFrom .default 0 ps, p.isText = false →
        sweep 0 (sweep 0 p.render) = sweep 0 p.render :=
  ⟨fun h => ⟨h.tags, h.runs, h.endTags⟩, fun ⟨htags, hruns, hends⟩ => ⟨htags, hruns, hends⟩⟩

instance (ps : List Segment) : Decidable (LeavesNothing ps) :=
  decidable_of_iff _ leavesNothing_iff.symm

/-- What a second pass finds in the start tags. -/
theorem forall_tag_quiet_iff (offset : Nat) (ps : List Segment) :
    (∀ p ∈ sweptAll (rewriteFrom .default offset ps), ∀ tag ∈ p.tag?.toList, tag.Quiet) ↔
      AllTags WrittenTag.LeavesNothing offset ps := by
  rw [forall_tag_sweptAll_iff, forall_mem_rewriteFrom_iff, AllTags]
  have hone : ∀ (n : Nat) (p : Segment),
      (∀ tag ∈ (p.rewritten .default n).tag?.toList, tag.swept.Quiet) ↔
        ∀ tag ∈ p.tag?.toList, tag.LeavesNothing n := by
    intro n p
    cases p with
    | startTag tag body => simpa [rewritten, tag?] using WrittenTag.quiet_rewritten_iff
    | _ => simp [rewritten, tag?]
  simp only [hone]

/-- **What a second pass finds in a template.** -/
theorem allQuiet_sweptAll_iff (h : ReadsAll (rewriteFrom .default 0 ps))
    (hapart : Apart (rewriteFrom .default 0 ps)) (hs : SweepableAll (rewriteFrom .default 0 ps)) :
    AllQuiet (sweptAll (rewriteFrom .default 0 ps)) ↔ LeavesNothing ps := by
  have htags := forall_tag_quiet_iff 0 ps
  have hends := sweep_spell_eq_self_iff (readsAll_sweptAll h hapart hs) []
  rw [List.nil_append, VoidEndTag.sweep_eq_self_iff, forall_sweep_sweptAll_iff h hs] at hends
  rw [leavesNothing_iff, ← textRuns_sweptAll hs, forall₂_and]
  constructor
  · rintro ⟨hquiet, hruns, hends'⟩
    exact ⟨htags.mp hquiet, ⟨hruns, (hends.mp hends').1⟩, (hends.mp hends').2⟩
  · rintro ⟨hquiet, ⟨hruns, hswept⟩, hends'⟩
    exact ⟨htags.mpr hquiet, hruns, hends.mpr ⟨hswept, hends'⟩⟩

end Segment

/-- The second of two migrations changes nothing exactly if the segments of the source leave nothing
to it. -/
theorem Migration.hasChanges_eq_false_iff_leavesNothing {source : String} {m m' : Migration}
    (hsize : byteLength source ≤ Patch.maxOffset) (h : ofTemplate .default source = .ok m)
    (hsize' : byteLength m.text ≤ Patch.maxOffset) (h' : ofTemplate .default m.text = .ok m')
    {ps : List Segment} (hps : Segment.Spells ps source) (hkeeps : Segment.Keeps ps) :
    m'.hasChanges = false ↔ Segment.LeavesNothing ps := by
  have hreads := Segment.readsAll_rewriteFrom hps.reads hps.runs hkeeps.fits
  have hapart := Segment.apart_rewriteFrom .default hps.runs 0
  have hspell : Segment.spell (Segment.sweptAll (Segment.rewriteFrom .default 0 ps)) =
      m.text.toList := by
    rw [← Segment.toList_strip_spell hreads hapart hkeeps.sweepable]
    rw [ofTemplate_eq_of_spells .default hsize hps] at h
    rw [← Except.ok.inj h]
  rw [hasChanges_eq_false_iff_allQuiet hsize' h'
    (Segment.readsAll_sweptAll hreads hapart hkeeps.sweepable) hspell]
  exact Segment.allQuiet_sweptAll_iff hreads hapart hkeeps.sweepable

namespace Session

end Session

end TemplateMigration
