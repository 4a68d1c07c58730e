import Mathlib.Data.List.Forall2
import TemplateMigration.Proofs.Markup.Lossless

/-!
# TemplateMigration.Proofs.Markup.Exchange

Other texts, names and values in the same places.

A `<` of a text is no markup because of the one or two characters behind it, so text that ends in no
`<` or `</` is text before anything (`EndsOpen`).  Where a part of a tag ends depends on the text
behind it only through the blanks that come next and the character behind these (`LooksLike`).  So
when attributes get other names and values, each of which its quotes still hold
(`ValueStyle.Admits`), the tag is read as it is written then: `WrittenTag.Reads.exchange`.
-/

namespace TemplateMigration

open MarkupEvent

/-! ## Texts behind a part -/

theorem isAttributeNameStart_iff {c : Char} :
    isAttributeNameStart c = true ↔ isTagBlank c = false ∧ c ≠ '/' ∧ c ≠ '>' := by
  simp [isAttributeNameStart, and_assoc]

/-- Two texts look alike to a part of a tag before them: after the same blanks they go on with the
same character, or with a name each. -/
inductive LooksLike : List Char → List Char → Prop
  | nil : LooksLike [] []
  | blank {c : Char} {xs ys : List Char} (hc : isTagBlank c = true) (h : LooksLike xs ys) :
      LooksLike (c :: xs) (c :: ys)
  | same {c : Char} (xs ys : List Char) (hc : isTagBlank c = false) : LooksLike (c :: xs) (c :: ys)
  | name {c d : Char} (xs ys : List Char) (hc : isAttributeNameStart c = true)
      (hd : isAttributeNameStart d = true) (hsign : d ≠ '=') : LooksLike (c :: xs) (d :: ys)

namespace LooksLike

variable {xs ys : List Char}

/-- Texts with the same first character look alike. -/
theorem cons (h : LooksLike xs ys) (c : Char) : LooksLike (c :: xs) (c :: ys) := by
  cases hc : isTagBlank c with
  | true => exact .blank hc h
  | false => exact .same xs ys hc

theorem refl (xs : List Char) : LooksLike xs xs := by
  induction xs with
  | nil => exact .nil
  | cons c xs ih => exact ih.cons c

theorem eq_nil (h : LooksLike [] ys) : ys = [] := by
  cases h
  rfl

/-- A text that looks like another starts with a `>` only if the other does. -/
theorem head?_ne_gt (h : LooksLike xs ys) (hxs : xs.head? ≠ some '>') : ys.head? ≠ some '>' := by
  cases h with
  | nil => exact hxs
  | blank hc h => exact hxs
  | same xs ys hc => exact hxs
  | name xs ys hc hd hsign =>
      intro heq
      obtain rfl := Option.some.inj heq
      contradiction

/-- A name that ends before one of the texts ends before the other. -/
theorem takeWhile_isTagNamePart (h : LooksLike xs ys) (hxs : xs.takeWhile isTagNamePart = []) :
    ys.takeWhile isTagNamePart = [] := by
  cases h with
  | nil => rfl
  | blank hc h => simp [isTagNamePart, hc]
  | same xs ys hc => simpa [List.takeWhile_cons] using hxs
  | name xs ys hc hd hsign => simp [isTagNamePart, isAttributeNameStart_iff.mp hc] at hxs

/-- What stands behind the blanks is an equals sign only if it was. -/
theorem head?_dropWhile_ne (h : LooksLike xs ys)
    (hxs : (xs.dropWhile isTagBlank).head? ≠ some '=') :
    (ys.dropWhile isTagBlank).head? ≠ some '=' := by
  induction h with
  | nil => exact hxs
  | blank hc h ih =>
      rw [List.dropWhile_cons_of_pos hc] at hxs ⊢
      exact ih hxs
  | same xs ys hc =>
      rw [List.dropWhile_cons_of_neg (by simp [hc])] at hxs ⊢
      exact hxs
  | name xs ys hc hd hsign =>
      rw [List.dropWhile_cons_of_neg (by simp [isAttributeNameStart_iff.mp hd])]
      simpa using hsign

/-- What can follow an attribute without a value can be exchanged for what looks like it. -/
theorem flagReads (h : LooksLike xs ys) (hxs : FlagReads xs) : FlagReads ys := by
  refine ⟨?_, h.head?_dropWhile_ne hxs.2⟩
  cases h with
  | nil => rfl
  | blank hc h => simp [isAttributeNamePart, hc]
  | same xs ys hc => simpa [List.takeWhile_cons] using hxs.1
  | @name c d xs ys hc hd hsign =>
      obtain ⟨hstops, hequals⟩ := hxs
      have hstart := isAttributeNameStart_iff.mp hc
      rw [List.dropWhile_cons_of_neg (by simp [hstart])] at hequals
      have hne : c ≠ '=' := by simpa using hequals
      simp [isAttributeNamePart, hstart, hne] at hstops

end LooksLike

/-! ## Values -/

namespace ValueStyle

/-- A value can be written in this way, whatever stands behind it. -/
def Admits (content : List Char) : ValueStyle → Prop
  | quoted q | unclosed q => q ∉ content
  | bare =>
      content ≠ [] ∧ content.all isBareValuePart = true ∧ content.head?.all (!isQuote ·) = true

instance (s : ValueStyle) (content : List Char) : Decidable (s.Admits content) :=
  match s with
  | quoted _ => inferInstanceAs (Decidable (¬ _))
  | unclosed _ => inferInstanceAs (Decidable (¬ _))
  | bare => inferInstanceAs (Decidable (_ ∧ _ ∧ _))

/-- A bare value ends before a text that looks like the one it ended before. -/
theorem takeWhile_isBareValuePart {xs ys : List Char} (h : LooksLike xs ys)
    (hxs : xs.takeWhile isBareValuePart = []) : ys.takeWhile isBareValuePart = [] := by
  cases h with
  | nil => rfl
  | blank hc h => simp [isBareValuePart, hc]
  | same xs ys hc => simpa [List.takeWhile_cons] using hxs
  | name xs ys hc hd hsign => simp [isBareValuePart, isAttributeNameStart_iff.mp hc] at hxs

/-- A value that is admitted, or the old one, fits in the place of the old one. -/
theorem Fits.exchange {s : ValueStyle} {content new rest rest' : List Char}
    (h : s.Fits content rest) (hlike : LooksLike rest rest') (hnew : new = content ∨ s.Admits new) :
    s.Fits new rest' := by
  cases s with
  | quoted q =>
      obtain rfl | hnew := hnew
      · exact h
      · exact ⟨h.1, hnew⟩
  | unclosed q =>
      obtain ⟨hq, hcontent, rfl⟩ := h
      obtain rfl | hnew := hnew
      · exact ⟨hq, hcontent, hlike.eq_nil⟩
      · exact ⟨hq, hnew, hlike.eq_nil⟩
  | bare =>
      obtain ⟨hall, hstops, hhead⟩ := h
      have hstops' := takeWhile_isBareValuePart hlike hstops
      obtain rfl | ⟨hne, hall', hquote⟩ := hnew
      · refine ⟨hall, hstops', ?_⟩
        cases new with
        | cons c cs => exact hhead
        | nil =>
            cases hlike with
            | nil => exact hhead
            | blank hc h => exact hhead
            | same xs ys hc => exact hhead
            | name xs ys hc hd hsign =>
                simp [isBareValuePart, isAttributeNameStart_iff.mp hc] at hstops
      · refine ⟨hall', hstops', ?_⟩
        cases new with
        | nil => contradiction
        | cons c cs =>
            rw [List.all_cons, Bool.and_eq_true, isBareValuePart, Bool.and_eq_true] at hall'
            simpa [hall'.1.1] using hquote

end ValueStyle

/-! ## Attributes -/

/-- One attribute can stand in the place of another: its name is one, and its value is the old one
or is admitted. -/
structure WrittenAttribute.Becomes (a b : WrittenAttribute) : Prop where
  name : IsName b.letters
  sign : b.letters = a.letters ∨ b.letters.head? ≠ some '='
  value : ∃ new : WrittenValue → List Char,
    b.value? = a.value?.map (fun v => { v with content := new v }) ∧
      ∀ v ∈ a.value?, new v = v.content ∨ v.style.Admits (new v)

/-- A name starts with a character that can start one. -/
theorem WrittenAttribute.IsName.exists_start {letters : List Char} (h : IsName letters) :
    ∃ c cs, letters = c :: cs ∧ isAttributeNameStart c = true := by
  cases letters with
  | nil => exact absurd h.1 (by simp)
  | cons c cs => exact ⟨c, cs, rfl, by simpa using h.1⟩

/-- An attribute can be exchanged for what it becomes. -/
theorem WrittenAttribute.Reads.exchange {a b : WrittenAttribute} {rest rest' : List Char}
    (h : a.Reads rest) (hbecomes : a.Becomes b) (hlike : LooksLike rest rest') : b.Reads rest' := by
  obtain ⟨-, hflag, hvalue⟩ := h
  obtain ⟨new, hb, hnew⟩ := hbecomes.value
  refine ⟨hbecomes.name, ?_, ?_⟩
  · intro hnone
    rw [hb, Option.map_eq_none_iff] at hnone
    exact hlike.flagReads (hflag hnone)
  · intro w hw
    rw [hb] at hw
    obtain ⟨v, hv, rfl⟩ := Option.map_eq_some_iff.mp hw
    obtain ⟨hbefore, hafter, hfits⟩ := hvalue v hv
    exact ⟨hbefore, hafter, hfits.exchange hlike (hnew v hv)⟩

/-- What an attribute becomes looks like the attribute. -/
theorem WrittenAttribute.looksLike_render {a b : WrittenAttribute} (ha : IsName a.letters)
    (h : a.Becomes b) (rest rest' : List Char) :
    LooksLike (a.render ++ rest) (b.render ++ rest') := by
  obtain ⟨c, cs, hc, hstart⟩ := ha.exists_start
  obtain ⟨d, ds, hd, hstart'⟩ := h.name.exists_start
  rw [render, render, hc, hd]
  obtain heq | hsign := h.sign
  · rw [hc, hd] at heq
    obtain ⟨rfl, rfl⟩ := List.cons.inj heq
    exact .same _ _ (isAttributeNameStart_iff.mp hstart).1
  · refine .name _ _ hstart hstart' ?_
    rw [hd] at hsign
    simpa using hsign

/-! ## Tags -/

/-- One part of a tag can stand in the place of another. -/
inductive TagPart.Becomes : TagPart → TagPart → Prop
  | gap (c : Char) : Becomes (gap c) (gap c)
  | attr {a b : WrittenAttribute} (h : a.Becomes b) : Becomes (attr a) (attr b)

/-- Parts with others in their places are read as they are written. -/
theorem TagPart.ReadsAll.exchange {ps qs : List TagPart} {rest rest' : List Char}
    (h : ReadsAll rest ps) (hall : List.Forall₂ Becomes ps qs) (hlike : LooksLike rest rest') :
    ReadsAll rest' qs ∧ LooksLike (spell ps ++ rest) (spell qs ++ rest') := by
  induction hall with
  | nil => exact ⟨trivial, hlike⟩
  | @cons p q ps qs hpq hall ih =>
      obtain ⟨hp, hps⟩ := h
      obtain ⟨hqs, hmore⟩ := ih hps
      cases hpq with
      | gap c =>
          refine ⟨⟨?_, hqs⟩, hmore.cons c⟩
          exact hp.imp_right fun ⟨hslash, hgt⟩ => ⟨hslash, hmore.head?_ne_gt hgt⟩
      | attr hab =>
          refine ⟨⟨WrittenAttribute.Reads.exchange hp hab hmore, hqs⟩, ?_⟩
          have hlike' := WrittenAttribute.looksLike_render hp.1 hab (spell ps ++ rest)
            (spell qs ++ rest')
          simpa [spell, render] using hlike'

/-- **A tag with other names and values** in the same places is read as it is written. -/
theorem WrittenTag.Reads.exchange {t : WrittenTag} {parts : List TagPart} {rest rest' : List Char}
    (h : t.Reads rest) (hall : List.Forall₂ TagPart.Becomes t.parts parts)
    (hrest : rest = [] → rest' = []) : ({ t with parts } : WrittenTag).Reads rest' := by
  have hlike : LooksLike (t.ending ++ rest) (t.ending ++ rest') := by
    obtain hending | hending | ⟨hending, hnil⟩ := h.ending
    · rw [hending]
      exact .same _ _ (by decide)
    · rw [hending]
      exact .same _ _ (by decide)
    · rw [hending, hnil, hrest hnil]
      exact .nil
  obtain ⟨hparts, hmore⟩ := h.parts.exchange hall hlike
  refine ⟨h.name, hmore.takeWhile_isTagNamePart h.name_stops, hparts, ?_⟩
  exact h.ending.imp_right (·.imp_right fun ⟨hending, hnil⟩ => ⟨hending, hrest hnil⟩)

/-! ## Text and what follows it -/

/-- A text that ends in `<` or `</`, so that what follows may make markup of it. -/
def EndsOpen (cs : List Char) : Prop := ['<'] <:+ cs ∨ ['<', '/'] <:+ cs

instance (cs : List Char) : Decidable (EndsOpen cs) := inferInstanceAs (Decidable (_ ∨ _))

/-- A text that ends with neither a `<` nor a `/` does not end open. -/
theorem not_endsOpen_of_getLast? {cs : List Char} {c : Char} (h : cs.getLast? = some c)
    (hlt : c ≠ '<') (hslash : c ≠ '/') : ¬ EndsOpen cs := by
  rintro (⟨front, rfl⟩ | ⟨front, rfl⟩)
  · exact hlt (by simpa using h.symm)
  · exact hslash (by simpa using h.symm)

theorem EndsOpen.cons {cs : List Char} (h : EndsOpen cs) (c : Char) : EndsOpen (c :: cs) :=
  h.imp (·.trans (List.suffix_cons c cs)) (·.trans (List.suffix_cons c cs))

namespace TextReads

variable {rest rest' cs : List Char}

/-- Text with a letter behind it does not end openly. -/
theorem not_endsOpen {c : Char} (h : TextReads (c :: rest) cs) (hc : c.isAlpha = true) :
    ¬ EndsOpen cs := by
  rintro (⟨front, rfl⟩ | ⟨front, rfl⟩)
  · have hlast := (textReads_append.mp h).2.1 rfl
    simp [opensMarkup, hc] at hlast
  · have hlast := (textReads_append.mp h).2.1 rfl
    simp [opensMarkup, hc] at hlast

/-- Text that does not end openly is text before anything. -/
theorem of_not_endsOpen (h : TextReads rest cs) (hopen : ¬ EndsOpen cs) (rest' : List Char) :
    TextReads rest' cs := by
  induction cs with
  | nil => trivial
  | cons c cs ih =>
      obtain ⟨hc, hcs⟩ := h
      refine ⟨?_, ih hcs fun hends => hopen (hends.cons c)⟩
      rintro rfl
      have hread := hc rfl
      cases cs with
      | nil => exact absurd (.inl (List.suffix_refl _)) hopen
      | cons x cs =>
          cases cs with
          | nil =>
              have hslash : x ≠ '/' := by
                rintro rfl
                exact hopen (.inr (List.suffix_refl _))
              simpa [opensMarkup, hslash] using hread
          | cons y cs => simpa [opensMarkup] using hread

/-- Text is text at the end of the template and before a `<`. -/
theorem of_head (h : TextReads rest cs) (hrest : rest'.head?.all (· == '<') = true) :
    TextReads rest' cs := by
  induction cs with
  | nil => trivial
  | cons c cs ih =>
      obtain ⟨hc, hcs⟩ := h
      refine ⟨?_, ih hcs⟩
      intro hlt
      have hread := hc hlt
      have hhead : ∀ x xs, rest' = x :: xs → x = '<' := by
        rintro x xs rfl
        simpa using hrest
      cases cs with
      | nil =>
          cases rest' with
          | nil => rfl
          | cons x xs =>
              obtain rfl := hhead x xs rfl
              rfl
      | cons x cs =>
          cases cs with
          | nil =>
              simp only [List.cons_append, List.nil_append, opensMarkup,
                Bool.or_eq_false_iff] at hread ⊢
              refine ⟨hread.1, ?_⟩
              cases rest' with
              | nil => simp
              | cons y ys =>
                  obtain rfl := hhead y ys rfl
                  have hlt : ('<').isAlpha = false := rfl
                  simp [hlt]
          | cons y cs => simpa [opensMarkup] using hread

/-- A part of a text is text. -/
theorem of_infix {part : List Char} (h : TextReads rest cs) (hpart : part <:+: cs) :
    TextReads [] part := by
  obtain ⟨before, after, rfl⟩ := hpart
  rw [List.append_assoc, textReads_append, textReads_append] at h
  exact h.2.1.of_head rfl

end TextReads

end TemplateMigration
