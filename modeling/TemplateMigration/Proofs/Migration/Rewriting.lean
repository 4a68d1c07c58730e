import Mathlib.Data.List.Sort
import TemplateMigration.Proofs.Markup.Lossless
import TemplateMigration.Proofs.Migration.Parts

/-!
# TemplateMigration.Proofs.Migration.Rewriting

Migrating a template segment by segment.

What becomes of a segment is a segment of the same kind: a run of text with its edits made, a start
tag with other names and values in the same places and perhaps one more attribute, and everything
else as it was (`Segment.rewritten`).  The edits of a migration make the rewritten segments of the
segments of its source: `Segment.splices_rewriteFrom`.
-/

namespace TemplateMigration

open MarkupEvent

/-! ## What edits make -/

namespace Edit

/-- The text that edits make of a part that starts at an offset. -/
def make (offset : Nat) (part : List Char) (es : List Edit) : List Char :=
  (applyFrom? offset part (es.insertionSort fun a b => a.offset ≤ b.offset)).getD part

variable {offset : Nat} {part out : List Char} {es : List Edit}

/-- The edits of a splice, apart from each other, make the same text when put in one by one. -/
theorem Splices.make_eq (h : Splices offset part es out) (hapart : es.Pairwise Apart) :
    make offset part es = out := by
  obtain ⟨sorted, hperm, happly⟩ := h
  have : Std.Total fun a b : Edit => a.offset ≤ b.offset := ⟨fun a b => Nat.le_total _ _⟩
  have : IsTrans Edit fun a b => a.offset ≤ b.offset := ⟨fun _ _ _ => Nat.le_trans⟩
  have hsort : (es.insertionSort fun a b => a.offset ≤ b.offset) = sorted :=
    eq_of_applyFrom? hapart hperm happly (List.perm_insertionSort _ es)
      (List.pairwise_insertionSort _ es)
  rw [make, hsort, happly]
  rfl

/-- Moving a part and its edits moves nothing against each other. -/
theorem applyFrom?_shift (n : Nat) (offset : Nat) (part : List Char) (es : List Edit) :
    applyFrom? (n + offset) part (es.map (shift n)) = applyFrom? offset part es := by
  induction es generalizing offset part with
  | nil => rfl
  | cons e es ih =>
      have hlt : n + e.offset < n + offset ↔ e.offset < offset := Nat.add_lt_add_iff_left
      simp only [List.map_cons, applyFrom?, shift, hlt, Nat.add_sub_add_left, Nat.add_assoc, ← ih]

theorem Splices.shift (h : Splices offset part es out) (n : Nat) :
    Splices (n + offset) part (es.map (Edit.shift n)) out := by
  obtain ⟨sorted, hperm, happly⟩ := h
  exact ⟨sorted.map (Edit.shift n), hperm.map _, by rw [applyFrom?_shift, happly]⟩

theorem apart_shift {n : Nat} {a b : Edit} : (a.shift n).Apart (b.shift n) ↔ a.Apart b := by
  simp [Apart, Before, stop_shift, offset_shift]

end Edit

/-- What the edits laid in a whole part make of it when it stands at an offset. -/
theorem Laid.splices_make {part : List Char} {es : List Edit} (h : Laid part 0 (byteCount part) es)
    (n : Nat) :
    Edit.Splices n part (es.map (Edit.shift n)) (Edit.make n part (es.map (Edit.shift n))) := by
  obtain ⟨out, hout⟩ := h.exists_splices (List.nil_append part).symm rfl
  have hshift := hout.shift n
  rw [Nat.add_zero] at hshift
  have hapart : (es.map (Edit.shift n)).Pairwise Edit.Apart := by
    rw [List.pairwise_map]
    exact h.apart.imp Edit.apart_shift.mpr
  rw [hshift.make_eq hapart]
  exact hshift

/-! ## Text -/

namespace RuleSet

/-- A run of text after the migration. -/
def newText (r : RuleSet) (offset : Nat) (content : List Char) : List Char :=
  Edit.make offset content (r.textChanges ⟨String.ofList content, offset⟩).replacements

/-- The edits of a run of text make its new text. -/
theorem splices_newText (r : RuleSet) (offset : Nat) (content : List Char) :
    Edit.Splices offset content (r.textChanges ⟨String.ofList content, offset⟩).replacements
      (r.newText offset content) := by
  rw [newText, Changes.replacements]
  cases r.edits_textChanges ⟨String.ofList content, offset⟩ with
  | inl hnone =>
      rw [hnone]
      exact .nil _ _
  | inr hedits =>
      have hlaid := r.laid_filterEdits_append ⟨String.ofList content, offset⟩
      rw [byteLength, String.toList_ofList] at hlaid
      rw [hedits, SourceEdit.map_toEdit_ofEdit]
      exact hlaid.splices_make offset

/-! ## Attributes -/

/-- Whether an attribute stays as it is because of an error. -/
def blocks (r : RuleSet) (a : Attribute) : Bool :=
  r.isUnsupportedAttribute a.name || Message.anyError (r.valueChanges a).messages

/-- The letters of an attribute's name after the migration. -/
def newLetters (r : RuleSet) (a : Attribute) (letters : List Char) : List Char :=
  if r.blocks a then letters else ((r.rename? a.name).map (·.newName.toList)).getD letters

/-- The value of an attribute after the migration. -/
def newContent (r : RuleSet) (a : Attribute) : List Char :=
  if r.blocks a then a.value.toList
  else Edit.make a.valueStart a.value.toList (r.valueChanges a).replacements

/-- The edits of a value make its new content. -/
theorem splices_newContent (r : RuleSet) (a : Attribute) (h : r.blocks a = false) :
    Edit.Splices a.valueStart a.value.toList (r.valueChanges a).replacements (r.newContent a) := by
  rw [newContent, h, if_neg (by simp), Changes.replacements]
  obtain hnone | ⟨-, new, hnew⟩ | hedits := r.edits_valueChanges a
  · rw [hnone]
    exact .nil _ _
  · rw [hnew]
    have hreplace := Edit.Splices.replace a.valueStart a.value.toList new
    rwa [← hreplace.make_eq (List.pairwise_singleton _ _)] at hreplace
  · rw [hedits, SourceEdit.map_toEdit_ofEdit]
    exact (r.laid_migrateExpression a.value a.valueStart).splices_make a.valueStart

/-- What expression transforms say is never an error. -/
theorem anyError_migrateExpression (r : RuleSet) (expression : String) (start : Nat) :
    Message.anyError (r.migrateExpression expression start).messages = false := by
  obtain heq | heq := r.migrateExpression_cases expression start
  · rw [heq]
    rfl
  · simp [heq, Message.anyError, Alias.message, Message.isError, Message.info]

/-- A value is left alone when there is an error about it. -/
theorem edits_valueChanges_of_anyError {r : RuleSet} {a : Attribute}
    (h : Message.anyError (r.valueChanges a).messages = true) : (r.valueChanges a).edits = [] := by
  have hexpression := r.anyError_migrateExpression a.value a.valueStart
  rw [valueChanges] at h ⊢
  split
  · rfl
  · next hhas =>
      rw [if_neg hhas] at h
      extract_lets at h ⊢
      split
      · rfl
      · next hnone =>
          rw [if_neg hnone] at h
          rw [Bool.not_eq_true] at hnone
          split at h
          · rw [hnone] at h
            contradiction
          · rw [Message.anyError, List.any_append] at h
            simp only [Message.anyError] at hnone hexpression
            rw [hnone, hexpression] at h
            contradiction

/-- The edits of an attribute are those of its value and of its name, or none. -/
theorem replacements_attributeChanges (r : RuleSet) (a : Attribute) :
    (r.attributeChanges a).replacements =
      if r.blocks a then []
      else (r.valueChanges a).replacements ++ (r.nameChanges a).replacements := by
  rw [attributeChanges, blocks]
  cases hname : r.isUnsupportedAttribute a.name with
  | true => rfl
  | false =>
      cases herror : Message.anyError (r.valueChanges a).messages with
      | true => simp [herror, Changes.replacements, edits_valueChanges_of_anyError herror]
      | false => simp [herror]

end RuleSet

namespace WrittenAttribute

variable {a : WrittenAttribute} {rest : List Char}

/-- What becomes of an attribute at an offset. -/
def rewritten (r : RuleSet) (offset : Nat) (a : WrittenAttribute) : WrittenAttribute :=
  ⟨r.newLetters (a.located offset) a.letters,
    a.value?.map fun v => { v with content := r.newContent (a.located offset) }⟩

/-- A value starts behind the name and the sign. -/
theorem valueStart_located (h : a.Reads rest) {v : WrittenValue} (hv : a.value? = some v)
    (offset : Nat) :
    (a.located offset).valueStart = offset + byteCount (a.letters ++ v.sign) := by
  obtain ⟨-, -, hvalue⟩ := h
  obtain ⟨-, -, hfits⟩ := hvalue v hv
  refine Attribute.valueStart_eq ?_
  have hclosing : byteCount v.style.closing = if v.style.isQuoted then 1 else 0 := by
    cases hstyle : v.style with
    | quoted q =>
        rw [hstyle] at hfits
        obtain rfl | rfl : q = '"' ∨ q = '\'' := by simpa [isQuote] using hfits.1
        · rfl
        · rfl
    | bare => rfl
    | unclosed q => rfl
  have hquoted : (a.located offset).quoted = v.style.isQuoted := by simp [located, isQuoted, hv]
  rw [hquoted, ← hclosing]
  simp [located, content, render, hv, WrittenValue.render, Nat.add_assoc]

/-- The edits of a name make its new letters. -/
theorem splices_newLetters (r : RuleSet) (a : WrittenAttribute) (offset : Nat)
    (h : r.blocks (a.located offset) = false) :
    Edit.Splices offset a.letters (r.nameChanges (a.located offset)).replacements
      (r.newLetters (a.located offset) a.letters) := by
  rw [RuleSet.newLetters, h, if_neg (by simp), RuleSet.nameChanges]
  cases r.rename? (a.located offset).name with
  | none => exact .nil _ _
  | some rule =>
      have hlength : byteLength (a.located offset).name = byteCount a.letters :=
        byteLength_lowerCase a.letters
      have hreplace := Edit.Splices.replace offset a.letters rule.newName
      rwa [← hlength] at hreplace

/-- An attribute with an error stays as it is. -/
theorem rewritten_of_blocks {r : RuleSet} {offset : Nat}
    (h : r.blocks (a.located offset) = true) : a.rewritten r offset = a := by
  have hcontent : r.newContent (a.located offset) = a.content := by
    rw [RuleSet.newContent, h, if_pos rfl]
    simp [located]
  rw [rewritten, RuleSet.newLetters, h, if_pos rfl, hcontent]
  obtain ⟨letters, value?⟩ := a
  cases value? <;> simp [content]

/-- The edits of an attribute make what becomes of it. -/
theorem splices_rewritten (r : RuleSet) (h : a.Reads rest) (offset : Nat) :
    Edit.Splices offset a.render (r.attributeChanges (a.located offset)).replacements
      (a.rewritten r offset).render := by
  rw [RuleSet.replacements_attributeChanges]
  cases hblocks : r.blocks (a.located offset) with
  | true =>
      rw [if_pos rfl, rewritten_of_blocks hblocks]
      exact .nil _ _
  | false =>
      have hletters := splices_newLetters r a offset hblocks
      rw [if_neg (by simp), rewritten, render, render]
      cases hv : a.value? with
      | none =>
          have hnone : (r.valueChanges (a.located offset)).replacements = [] := by
            have hhas : (a.located offset).hasValue = false := by
              simp [Attribute.hasValue, located, isQuoted, content, hv]
            simp [RuleSet.valueChanges, hhas]
          rw [hnone]
          simpa [hv] using hletters
      | some v =>
          have hcontent := r.splices_newContent (a.located offset) hblocks
          have hvalue : (a.located offset).value.toList = v.content := by
            simp [located, content, hv]
          rw [valueStart_located h hv, hvalue, byteCount_append, ← Nat.add_assoc] at hcontent
          have hsign := Edit.Splices.nil (offset + byteCount a.letters) v.sign
          have hclosing := Edit.Splices.nil
            (offset + byteCount a.letters + byteCount v.sign + byteCount v.content) v.style.closing
          have hall := hletters.append (hsign.append (hcontent.append hclosing))
          simp only [Option.map_some, Option.getD_some, WrittenValue.render]
          refine hall.perm ?_
          simp only [List.nil_append, List.append_nil]
          exact List.perm_append_comm

end WrittenAttribute

/-! ## Start tags -/

/-- The name that a form model of a tag is given: the element's `id`, or one made of its offset. -/
def StartTag.newName? (tag : StartTag) : Option String :=
  if (tag.attribute? "ng-model").isSome && (tag.attribute? "name").isNone then
    some (((tag.attribute? "id").map Attribute.value).getD ("modelName" ++ toString tag.start))
  else none

theorem replacements_modelNameChanges (tag : StartTag) :
    (RuleSet.modelNameChanges tag).replacements =
      tag.newName?.toList.map fun name => ⟨tag.nameStop, 0, " name=\"" ++ name ++ "\""⟩ := by
  rw [RuleSet.modelNameChanges, StartTag.newName?]
  cases tag.attribute? "ng-model" with
  | none => rfl
  | some model =>
      cases tag.attribute? "name" with
      | some name => rfl
      | none => cases tag.attribute? "id" <;> rfl

namespace TagPart

/-- What becomes of the parts of a tag when some names have been seen. -/
def rewriteFrom (r : RuleSet) (seen : List String) (offset : Nat) : List TagPart → List TagPart
  | [] => []
  | gap c :: ps => gap c :: rewriteFrom r seen (offset + c.utf8Size) ps
  | attr a :: ps =>
      if seen.contains a.name then attr a :: rewriteFrom r seen (offset + byteCount a.render) ps
      else
        attr (a.rewritten r offset) ::
          rewriteFrom r (seen ++ [a.name]) (offset + byteCount a.render) ps

/-- The parts of an attribute that gives a name. -/
def naming (name : List Char) : List TagPart :=
  [gap ' ', attr ⟨['n', 'a', 'm', 'e'], some ⟨[], [], .quoted '"', name⟩⟩]

theorem spell_cons (p : TagPart) (ps : List TagPart) : spell (p :: ps) = p.render ++ spell ps := rfl

/-- The edits of the attributes of a tag make what becomes of its parts. -/
theorem splices_rewriteFrom (r : RuleSet) {rest : List Char} {ps : List TagPart}
    (h : ReadsAll rest ps) (seen : List String) (offset : Nat) :
    Edit.Splices offset (spell ps)
      (Changes.join ((Attribute.firsts seen (attributesFrom offset ps)).map
        r.attributeChanges)).replacements
      (spell (rewriteFrom r seen offset ps)) := by
  induction ps generalizing seen offset with
  | nil => exact .nil _ _
  | cons p ps ih =>
      obtain ⟨hp, hps⟩ := h
      cases p with
      | gap c =>
          rw [attributesFrom, rewriteFrom, spell_cons, spell_cons]
          have hgap := Edit.Splices.nil offset [c]
          exact hgap.append (ih hps seen (offset + c.utf8Size))
      | attr a =>
          have hname : (a.located offset).name = a.name := rfl
          rw [attributesFrom, Attribute.firsts, rewriteFrom, hname]
          split
          · have hsame := Edit.Splices.nil offset a.render
            exact hsame.append (ih hps seen _)
          · rw [List.map_cons, Changes.replacements_join_cons]
            exact (WrittenAttribute.splices_rewritten r hp offset).append (ih hps _ _)

end TagPart

namespace WrittenTag

/-- What becomes of a start tag at an offset. -/
def rewritten (r : RuleSet) (offset : Nat) (t : WrittenTag) : WrittenTag :=
  ⟨t.letters,
    (t.located offset).newName?.toList.flatMap (fun name => TagPart.naming name.toList) ++
      TagPart.rewriteFrom r [] (offset + byteCount ('<' :: t.letters)) t.parts,
    t.ending⟩

/-- The name of a start tag ends behind its letters. -/
theorem nameStop_located (t : WrittenTag) (offset : Nat) :
    (t.located offset).nameStop = offset + byteCount ('<' :: t.letters) := by
  have hlt : ('<').utf8Size = 1 := rfl
  have hlength : byteLength (t.located offset).name = byteCount t.letters :=
    byteLength_lowerCase t.letters
  rw [StartTag.nameStop, hlength, byteCount_cons, hlt, ← Nat.add_assoc]
  rfl

/-- The edits of a start tag make what becomes of it. -/
theorem splices_rewritten (r : RuleSet) {t : WrittenTag} {rest : List Char} (h : t.Reads rest)
    (offset : Nat) :
    Edit.Splices offset t.render (r.tagChanges (t.located offset)).replacements
      (t.rewritten r offset).render := by
  have hparts := TagPart.splices_rewriteFrom r h.parts [] (offset + byteCount ('<' :: t.letters))
  rw [← attributes_located] at hparts
  have hname : Edit.Splices (offset + byteCount ('<' :: t.letters)) []
      (RuleSet.modelNameChanges (t.located offset)).replacements
      (TagPart.spell ((t.located offset).newName?.toList.flatMap
        fun name => TagPart.naming name.toList)) := by
    rw [replacements_modelNameChanges, nameStop_located]
    cases (t.located offset).newName? with
    | none => exact .nil _ _
    | some name =>
        have hinsert := Edit.Splices.insert (offset + byteCount ('<' :: t.letters)) []
          (" name=\"" ++ name ++ "\"")
        simpa [TagPart.naming, TagPart.spell, TagPart.render, WrittenAttribute.render,
          WrittenValue.render, WrittenValue.sign, ValueStyle.opening, ValueStyle.closing]
          using hinsert
  have hletters := Edit.Splices.nil offset ('<' :: t.letters)
  have hending := Edit.Splices.nil
    (offset + byteCount ('<' :: t.letters) + byteCount (TagPart.spell t.parts)) t.ending
  have hall := hletters.append (hname.append (hparts.append hending))
  have hrender : (t.rewritten r offset).render = '<' :: t.letters ++
      (TagPart.spell ((t.located offset).newName?.toList.flatMap
          fun name => TagPart.naming name.toList) ++
        (TagPart.spell (TagPart.rewriteFrom r [] (offset + byteCount ('<' :: t.letters)) t.parts) ++
          t.ending)) := by
    simp [render, rewritten, TagPart.spell]
  rw [hrender, RuleSet.tagChanges, Changes.replacements_append]
  refine hall.perm ?_
  simp only [List.nil_append, List.append_nil]
  exact List.perm_append_comm

end WrittenTag

/-! ## Segments -/

namespace Segment

/-- What becomes of a segment at an offset. -/
def rewritten (r : RuleSet) (offset : Nat) : Segment → Segment
  | text content => text (r.newText offset content)
  | startTag tag body => startTag (tag.rewritten r offset) body
  | p => p

/-- What becomes of segments from an offset on. -/
def rewriteFrom (r : RuleSet) (offset : Nat) : List Segment → List Segment
  | [] => []
  | p :: ps => p.rewritten r offset :: rewriteFrom r (offset + byteCount p.render) ps

/-- The edits of a segment make what becomes of it. -/
theorem splices_rewritten (r : RuleSet) {p : Segment} {rest : List Char} (h : p.Reads rest)
    (offset : Nat) :
    Edit.Splices offset p.render
      ((p.items offset).flatMap fun i => (r.itemChanges i).replacements)
      (p.rewritten r offset).render := by
  cases p with
  | text content =>
      simpa [items, RuleSet.itemChanges, render, rewritten] using r.splices_newText offset content
  | startTag tag body =>
      have htag := WrittenTag.splices_rewritten r h.1 offset
      have hbody := Edit.Splices.nil (offset + byteCount tag.render) body
      simpa [items, RuleSet.itemChanges, render, rewritten] using htag.append hbody
  | comment body => exact .nil _ _
  | declaration mark body => exact .nil _ _
  | endTag letters body => exact .nil _ _

/-- The edits of segments make what becomes of them. -/
theorem splices_rewriteFrom (r : RuleSet) {ps : List Segment} (h : ReadsAll ps) (offset : Nat) :
    Edit.Splices offset (spell ps)
      ((itemsFrom offset ps).flatMap fun i => (r.itemChanges i).replacements)
      (spell (rewriteFrom r offset ps)) := by
  induction ps generalizing offset with
  | nil => exact .nil _ _
  | cons p ps ih =>
      rw [itemsFrom, List.flatMap_append, rewriteFrom, spell_cons, spell_cons]
      exact (splices_rewritten r h.1 offset).append (ih h.2 _)

end Segment

/-- **Templates are migrated segment by segment.** -/
theorem Migration.ofTemplate_eq_of_spells (rules : RuleSet) {source : String} {ps : List Segment}
    (hsize : byteLength source ≤ Patch.maxOffset) (h : Segment.Spells ps source) :
    ofTemplate rules source =
      .ok ⟨source,
        VoidEndTag.strip (String.ofList (Segment.spell (Segment.rewriteFrom rules 0 ps))),
        (Message.errorsFirst (rules.forestChanges (Node.parse source)).messages).map
          (·.place source)⟩ := by
  have hsplices := Segment.splices_rewriteFrom rules h.reads 0
  rw [h.spell_eq, ← h.contents_parse] at hsplices
  exact ofTemplate_eq_of_splices rules hsize
    (hsplices.perm (rules.perm_replacements_forestChanges (Node.parse source)).symm)

end TemplateMigration
