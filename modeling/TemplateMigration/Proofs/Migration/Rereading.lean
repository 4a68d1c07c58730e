import TemplateMigration.Proofs.Expression.RepeatText
import TemplateMigration.Proofs.Markup.Sweeping
import TemplateMigration.Proofs.Migration.FilterChain
import TemplateMigration.Proofs.Migration.PlainText

/-!
# TemplateMigration.Proofs.Migration.Rereading

Rewritten segments are read as they are written.

No rule brings a double quote into a value (`RuleSet.quote_notMem_newContent`), and the built-in
names are names (`RuleSet.safeName_of_rename?`).  So a double-quoted value never breaks out of its
quotes; for the other ways to write a value, and for the `id` that becomes a name, this has to be
asked for (`WrittenTag.Fits`).  Then every rewritten segment is read as it is written:
`Segment.readsAll_rewriteFrom`.
-/

namespace TemplateMigration

open MarkupEvent

/-! ## Double quotes -/

namespace RuleSet

variable {r : RuleSet}

theorem quote_notMem_repeatToFor {value : String} (start : Nat) (h : '"' ∉ value.toList) :
    '"' ∉ (r.repeatToFor value start).value.toList := by
  rw [repeatToFor]
  dsimp only
  split
  · exact h
  · next e he =>
      split
      · exact h
      · next item hitem =>
          split
          · exact h
          · have hname : '"' ∉ item.valueName := fun hmem =>
              h (e.mem_of_parse? he (.inl (RepeatItem.mem_of_parse? hitem hmem)))
            have hcollection : '"' ∉ (String.ofList e.collection).toList := by
              rw [String.toList_ofList]
              exact fun hmem => h (e.mem_of_parse? he (.inr hmem))
            have hchain := r.notMem_migrateFilterChain (by decide) (by decide) start
              (byteLength value) hcollection
            simp only [String.toList_append, String.toList_ofList, List.mem_append, not_or]
            exact ⟨⟨⟨by decide, hname⟩, by decide⟩, hchain⟩

/-- What is put into a value has no double quote that the value does not have. -/
theorem quote_notMem_of_mem_valueChanges {a : Attribute} (h : '"' ∉ a.value.toList) {e : Edit}
    (he : e ∈ (r.valueChanges a).replacements) : '"' ∉ e.replacement.toList := by
  rw [Changes.replacements, valueChanges] at he
  split at he
  · contradiction
  · extract_lets transformed migrated at he
    split at he
    · contradiction
    · split at he
      · obtain rfl := List.mem_singleton.mp he
        show '"' ∉ transformed.value.toList
        simp only [transformed]
        split
        · next t ht =>
            cases t with
            | hiddenNegation =>
                simp only [ValueTransform.apply, String.toList_append, List.mem_append, not_or]
                exact ⟨⟨by decide, h⟩, by decide⟩
            | repeatToFor => exact quote_notMem_repeatToFor _ h
        · exact h
      · rw [SourceEdit.map_toEdit_ofEdit] at he
        obtain ⟨d, hd, rfl⟩ := List.mem_map.mp he
        cases r.edits_migrateExpression a.value a.valueStart with
        | inl hnone =>
            rw [hnone] at hd
            contradiction
        | inr hedits =>
            rw [hedits] at hd
            obtain ⟨n, -, rfl⟩ := List.mem_map.mp hd
            exact List.not_mem_nil

/-- **No rule brings a double quote into a value.** -/
theorem quote_notMem_newContent {a : Attribute} (h : '"' ∉ a.value.toList) :
    '"' ∉ r.newContent a := by
  cases hblocks : r.blocks a with
  | true => simpa [newContent, hblocks] using h
  | false =>
      obtain ⟨sorted, hperm, happly⟩ := r.splices_newContent a hblocks
      intro hmem
      obtain hold | ⟨e, he, hnew⟩ := Edit.mem_of_applyFrom? happly hmem
      · exact h hold
      · exact quote_notMem_of_mem_valueChanges h (hperm.mem_iff.mp he) hnew

/-! ## Names -/

/-- What makes a new name safe: it is a name, does not start with an equals sign, is not `name`, and
no rule knows it. -/
def SafeName (name : String) : Prop :=
  WrittenAttribute.IsName name.toList ∧ name.toList.head? ≠ some '=' ∧
    lowerCase name.toList ≠ "name" ∧ defaultRenames.all (·.oldName != lowerCase name.toList) = true

instance (name : String) : Decidable (SafeName name) := inferInstanceAs (Decidable (_ ∧ _ ∧ _ ∧ _))

theorem safeName_of_rename? {name : String} {rule : Rename} (h : default.rename? name = some rule) :
    SafeName rule.newName := by
  have hall : defaultRenames.all (fun rule => decide (SafeName rule.newName)) = true := by decide
  have hmem : rule ∈ defaultRenames := List.mem_of_find?_eq_some h
  exact of_decide_eq_true (List.all_eq_true.mp hall rule hmem)

end RuleSet

/-! ## Attributes -/

theorem ValueStyle.eq_of_opening {s : ValueStyle} (h : s.opening = ['"']) :
    s = .quoted '"' ∨ s = .unclosed '"' := by
  cases s with
  | bare => contradiction
  | quoted q => exact .inl (congrArg _ (List.singleton_inj.mp h))
  | unclosed q => exact .inr (congrArg _ (List.singleton_inj.mp h))

namespace WrittenAttribute

variable {a : WrittenAttribute} {rest : List Char}

/-- What becomes of the value of an attribute does not break out of its quotes, or out of its place
if it has none; for double quotes there is nothing to ask. -/
def Holds (r : RuleSet) (offset : Nat) (a : WrittenAttribute) : Prop :=
  ∀ v ∈ a.value?, v.style.opening = ['"'] ∨ r.newContent (a.located offset) = v.content ∨
    v.style.Admits (r.newContent (a.located offset))

instance (r : RuleSet) (offset : Nat) (a : WrittenAttribute) : Decidable (a.Holds r offset) :=
  match h : a.value? with
  | none => isTrue (by simp [Holds, h])
  | some v =>
      decidable_of_iff (v.style.opening = ['"'] ∨ r.newContent (a.located offset) = v.content ∨
        v.style.Admits (r.newContent (a.located offset))) (by simp [Holds, h])

theorem Becomes.refl (h : a.Reads rest) : a.Becomes a := by
  refine ⟨h.1, .inl rfl, WrittenValue.content, ?_, fun _ _ => .inl rfl⟩
  cases a.value? <;> rfl

/-- An attribute makes room for what becomes of it. -/
theorem becomes_rewritten {offset : Nat} (h : a.Reads rest) (hholds : a.Holds .default offset) :
    a.Becomes (a.rewritten .default offset) := by
  have hletters : RuleSet.default.newLetters (a.located offset) a.letters = a.letters ∨
      ∃ rule, RuleSet.default.rename? (a.located offset).name = some rule ∧
        RuleSet.default.newLetters (a.located offset) a.letters = rule.newName.toList := by
    rw [RuleSet.newLetters]
    split
    · exact .inl rfl
    · cases hrename : RuleSet.default.rename? (a.located offset).name with
      | none => exact .inl rfl
      | some rule => exact .inr ⟨rule, rfl, rfl⟩
  refine ⟨?_, ?_, fun _ => RuleSet.default.newContent (a.located offset), rfl, ?_⟩
  · show IsName (RuleSet.default.newLetters _ _)
    obtain hsame | ⟨rule, hrule, hnew⟩ := hletters
    · rw [hsame]
      exact h.1
    · rw [hnew]
      exact (RuleSet.safeName_of_rename? hrule).1
  · obtain hsame | ⟨rule, hrule, hnew⟩ := hletters
    · exact .inl hsame
    · refine .inr ?_
      show (RuleSet.default.newLetters _ _).head? ≠ _
      rw [hnew]
      exact (RuleSet.safeName_of_rename? hrule).2.1
  · intro v hv
    obtain hquote | hsame | hadmits := hholds v hv
    · -- a double quote in the new value would be one in the old value
      refine .inr ?_
      have hvalue : (a.located offset).value.toList = v.content := by
        rw [Option.mem_def] at hv
        simp [located, content, hv]
      have hfits := (h.2.2 v hv).2.2
      obtain hstyle | hstyle := ValueStyle.eq_of_opening hquote
      · rw [hstyle] at hfits ⊢
        exact RuleSet.quote_notMem_newContent (hvalue ▸ hfits.2)
      · rw [hstyle] at hfits ⊢
        exact RuleSet.quote_notMem_newContent (hvalue ▸ hfits.2.1)
    · exact .inl hsame
    · exact .inr hadmits

end WrittenAttribute

/-! ## Start tags -/

namespace TagPart

/-- The attributes whose names have not come before, among the parts from an offset on, have a
property. -/
def AllFirsts (P : Nat → WrittenAttribute → Prop) (seen : List String) (offset : Nat) :
    List TagPart → Prop
  | [] => True
  | gap c :: ps => AllFirsts P seen (offset + c.utf8Size) ps
  | attr a :: ps =>
      if seen.contains a.name then AllFirsts P seen (offset + byteCount a.render) ps
      else P offset a ∧ AllFirsts P (seen ++ [a.name]) (offset + byteCount a.render) ps

instance decidableAllFirsts (P : Nat → WrittenAttribute → Prop) [∀ n a, Decidable (P n a)] :
    (seen : List String) → (offset : Nat) → (ps : List TagPart) →
      Decidable (AllFirsts P seen offset ps)
  | _, _, [] => isTrue trivial
  | seen, offset, gap c :: ps => decidableAllFirsts P seen (offset + c.utf8Size) ps
  | seen, offset, attr a :: ps =>
      letI := decidableAllFirsts P seen (offset + byteCount a.render) ps
      letI := decidableAllFirsts P (seen ++ [a.name]) (offset + byteCount a.render) ps
      inferInstanceAs (Decidable (if seen.contains a.name then _ else _))

/-- The parts of a tag make room for what becomes of them. -/
theorem becomes_rewriteFrom {rest : List Char} {ps : List TagPart} {seen : List String}
    {offset : Nat} (h : ReadsAll rest ps)
    (hholds : AllFirsts (WrittenAttribute.Holds .default) seen offset ps) :
    List.Forall₂ Becomes ps (rewriteFrom .default seen offset ps) := by
  induction ps generalizing seen offset with
  | nil => exact .nil
  | cons p ps ih =>
      obtain ⟨hp, hps⟩ := h
      cases p with
      | gap c => exact .cons (.gap c) (ih hps hholds)
      | attr a =>
          rw [AllFirsts] at hholds
          rw [rewriteFrom]
          split
          · next hseen =>
              rw [if_pos hseen] at hholds
              exact .cons (.attr (.refl hp)) (ih hps hholds)
          · next hseen =>
              rw [if_neg hseen] at hholds
              exact .cons (.attr (WrittenAttribute.becomes_rewritten hp hholds.1)) (ih hps hholds.2)

/-- The names of the attributes among the parts, in order. -/
def names : List TagPart → List String
  | [] => []
  | gap _ :: ps => names ps
  | attr a :: ps => a.name :: names ps

end TagPart

namespace WrittenTag

variable {t : WrittenTag} {rest rest' : List Char} {offset : Nat}

/-- What is put into a start tag stays in its place: values stay where they are, and an `id` that
becomes a name has no double quote. -/
structure Fits (r : RuleSet) (offset : Nat) (t : WrittenTag) : Prop where
  values : TagPart.AllFirsts (WrittenAttribute.Holds r) []
    (offset + byteCount ('<' :: t.letters)) t.parts
  id : ∀ name ∈ (t.located offset).newName?.toList, '"' ∉ name.toList

instance (r : RuleSet) (offset : Nat) (t : WrittenTag) : Decidable (t.Fits r offset) :=
  decidable_of_iff
    (TagPart.AllFirsts (WrittenAttribute.Holds r) []
        (offset + byteCount ('<' :: t.letters)) t.parts ∧
      ∀ name ∈ (t.located offset).newName?.toList, '"' ∉ name.toList)
    ⟨fun ⟨hvalues, hid⟩ => ⟨hvalues, hid⟩, fun h => ⟨h.values, h.id⟩⟩

/-- A rewritten start tag keeps its attributes: what is put into it stays in its place, and two
attributes have one name afterwards exactly if they had one before. -/
structure Holds (r : RuleSet) (offset : Nat) (t : WrittenTag) : Prop extends t.Fits r offset where
  names : ((TagPart.names t.parts).zip (TagPart.names
      (TagPart.rewriteFrom r [] (offset + byteCount ('<' :: t.letters)) t.parts))).Pairwise
    fun p q => p.1 = q.1 ↔ p.2 = q.2

instance (r : RuleSet) (offset : Nat) (t : WrittenTag) : Decidable (t.Holds r offset) :=
  decidable_of_iff
    (t.Fits r offset ∧
      ((TagPart.names t.parts).zip (TagPart.names
          (TagPart.rewriteFrom r [] (offset + byteCount ('<' :: t.letters)) t.parts))).Pairwise
        fun p q => p.1 = q.1 ↔ p.2 = q.2)
    ⟨fun ⟨hfits, hnames⟩ => ⟨hfits, hnames⟩, fun h => ⟨h.toFits, h.names⟩⟩

/-- One more attribute right behind the name of a tag. -/
theorem Reads.naming (h : t.Reads rest) {name : List Char} (hname : '"' ∉ name) :
    ({ t with parts := TagPart.naming name ++ t.parts } : WrittenTag).Reads rest := by
  refine ⟨h.name, rfl, ⟨.inl rfl, ⟨⟨rfl, rfl⟩, ?_, ?_⟩, h.parts⟩, h.ending⟩
  · intro hnone
    contradiction
  · intro v hv
    obtain rfl := Option.some.inj hv
    exact ⟨rfl, rfl, rfl, hname⟩

/-- A rewritten start tag is read as it is written. -/
theorem reads_rewritten (h : t.Reads rest) (hfits : t.Fits .default offset)
    (hrest : rest = [] → rest' = []) : (t.rewritten .default offset).Reads rest' := by
  have hparts := h.exchange (TagPart.becomes_rewriteFrom h.parts hfits.values) hrest
  rw [rewritten]
  cases hname : (t.located offset).newName? with
  | none => exact hparts
  | some name => simpa using hparts.naming (hfits.id name (by simp [hname]))

end WrittenTag

/-! ## Segments -/

namespace Segment

variable {ps : List Segment} {offset : Nat}

/-- The start tag of a segment. -/
def tag? : Segment → Option WrittenTag
  | startTag tag _ => some tag
  | _ => none

/-- Segments from an offset on have a property. -/
def AllFrom (P : Nat → Segment → Prop) (offset : Nat) : List Segment → Prop
  | [] => True
  | p :: ps => P offset p ∧ AllFrom P (offset + byteCount p.render) ps

instance decidableAllFrom (P : Nat → Segment → Prop) [∀ n p, Decidable (P n p)] :
    (offset : Nat) → (ps : List Segment) → Decidable (AllFrom P offset ps)
  | _, [] => isTrue trivial
  | offset, p :: ps =>
      letI := decidableAllFrom P (offset + byteCount p.render) ps
      inferInstanceAs (Decidable (P offset p ∧ _))

/-- The start tags of segments from an offset on have a property. -/
def AllTags (P : Nat → WrittenTag → Prop) : Nat → List Segment → Prop :=
  AllFrom fun n p => ∀ tag ∈ p.tag?.toList, P n tag

instance (P : Nat → WrittenTag → Prop) [∀ n t, Decidable (P n t)] (offset : Nat)
    (ps : List Segment) : Decidable (AllTags P offset ps) :=
  inferInstanceAs (Decidable (AllFrom _ offset ps))

theorem AllTags.imp {P Q : Nat → WrittenTag → Prop} (hPQ : ∀ n t, P n t → Q n t)
    (h : AllTags P offset ps) : AllTags Q offset ps := by
  induction ps generalizing offset with
  | nil => trivial
  | cons p ps ih => exact ⟨fun tag htag => hPQ _ _ (h.1 tag htag), ih h.2⟩

theorem isText_rewritten (r : RuleSet) (offset : Nat) (p : Segment) :
    (p.rewritten r offset).isText = p.isText := by
  cases p <;> rfl

/-- Texts stay apart. -/
theorem apart_rewriteFrom (r : RuleSet) (h : Runs ps) (offset : Nat) :
    Apart (rewriteFrom r offset ps) := by
  induction ps generalizing offset with
  | nil => exact .nil
  | cons p ps ih =>
      have hrest := ih h.2 (offset + byteCount p.render)
      cases ps with
      | nil => exact .singleton _
      | cons q ps =>
          refine .cons_cons ?_ hrest
          rw [isText_rewritten, isText_rewritten]
          intro hp
          simpa using (h.1 hp).2

/-- What ends a script is an end tag, and so it stays. -/
theorem rawEnd_isPrefixOf_rewriteFrom {name : String} (hname : isRawTextElement name = true)
    (h : ReadsAll ps) (hruns : Runs ps) (r : RuleSet)
    (hend : (rawEnd name).isPrefixOf ((spell ps).map Char.toLower) = true) :
    (rawEnd name).isPrefixOf ((spell (rewriteFrom r offset ps)).map Char.toLower) = true := by
  obtain ⟨letters, more, body, rest, rfl, hletters⟩ := exists_endTag_of_rawEnd hname h hruns hend
  have hspell := rawEnd_isPrefixOf hletters (more ++ (body ++ spell (rewriteFrom r
    (offset + byteCount (endTag (letters ++ more) body).render) rest)))
  simpa [rewriteFrom, rewritten, render] using hspell

/-- **Rewritten segments are read as they are written.** -/
theorem readsAll_rewriteFrom (h : ReadsAll ps) (hruns : Runs ps)
    (hfits : AllTags (WrittenTag.Fits .default) offset ps) :
    ReadsAll (rewriteFrom .default offset ps) := by
  induction ps generalizing offset with
  | nil => trivial
  | cons p ps ih =>
      obtain ⟨hp, hps⟩ := h
      refine ⟨?_, ih hps hruns.2 hfits.2⟩
      have hnil : spell ps = [] →
          spell (rewriteFrom .default (offset + byteCount p.render) ps) = [] := by
        intro hnil
        rw [eq_nil_of_spell_eq_nil hruns.2 hnil]
        rfl
      cases p with
      | text content =>
          refine TextReads.of_head (RuleSet.textReads_newText hp offset) ?_
          have hnext := (hruns.1 rfl).2
          cases ps with
          | nil => rfl
          | cons q ps =>
              have hq : (q.rewritten .default (offset + byteCount content)).isText = false := by
                rw [isText_rewritten]
                simpa using hnext
              obtain ⟨more, hmore⟩ := exists_render_eq_cons hq
              show (render _ ++ _).head?.all (· == '<') = true
              rw [render, hmore]
              rfl
      | comment body => exact Closes.of_rest hp hnil
      | declaration mark body => exact ⟨hp.1, hp.2.of_rest hnil⟩
      | endTag letters body => exact ⟨hp.1, hp.2.1, hp.2.2.of_rest hnil⟩
      | startTag tag body =>
          obtain ⟨htag, hbody⟩ := hp
          refine ⟨WrittenTag.reads_rewritten htag (hfits.1 tag (by simp [tag?])) ?_, ?_⟩
          · intro hempty
            obtain ⟨rfl, hempty⟩ := List.append_eq_nil_iff.mp hempty
            exact hnil hempty
          · show if tag.hasRawBody then RawReads tag.name _ _ else _
            split
            · next hraw =>
                have hname : isRawTextElement tag.name = true := by
                  rw [WrittenTag.hasRawBody, Bool.and_eq_true] at hraw
                  exact hraw.2
                rw [if_pos hraw] at hbody
                exact ⟨hbody.1, hbody.2.imp hnil
                  (rawEnd_isPrefixOf_rewriteFrom hname hps hruns.2 .default)⟩
            · next hraw =>
                rw [if_neg hraw] at hbody
                exact hbody

end Segment

end TemplateMigration
