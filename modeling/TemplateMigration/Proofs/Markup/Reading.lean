import TemplateMigration.Proofs.Markup.RoundTrip
import TemplateMigration.Proofs.Markup.Written

/-!
# TemplateMigration.Proofs.Markup.Reading

Templates are read as they are written.

Each reader is followed over a written part with an arbitrary text behind it: values
(`readValue_of_fits`), attributes (`readAttribute_of_reads`), what follows a tag's name
(`readAttributes_spell`), tags, comments and declarations (`readMarkup?_of_reads`) and text
(`scanFrom_of_textReads`).  The main statement is `scanFrom_spell`: segments that read have the
events that `Segment.eventsFrom` gives, however their texts are divided.
-/

namespace TemplateMigration

open MarkupEvent

/-! ## Reading attributes -/

/-- A value starts behind all blanks. -/
theorem ValueStyle.Fits.takeWhile_isTagBlank {s : ValueStyle} {content rest : List Char}
    (h : s.Fits content rest) :
    (s.opening ++ (content ++ s.closing) ++ rest).takeWhile isTagBlank = [] := by
  have hquote : ∀ {q}, isQuote q = true → isTagBlank q = false := by
    intro q hq
    obtain rfl | rfl : q = '"' ∨ q = '\'' := by simpa [isQuote] using hq
    · rfl
    · rfl
  cases s with
  | quoted q => simp [opening, hquote h.1]
  | bare =>
      have hhead := h.2.2
      simp only [opening, closing, List.nil_append, List.append_nil]
      cases hcs : content ++ rest with
      | nil => rfl
      | cons c cs =>
          rw [hcs] at hhead
          simp_all
  | unclosed q => simp [opening, hquote h.1]

/-- A name that reads starts with a character that ends nothing. -/
theorem WrittenAttribute.Reads.exists_render_eq_cons {a : WrittenAttribute} {rest : List Char}
    (h : a.Reads rest) :
    ∃ c cs, a.render = c :: cs ∧ isTagBlank c = false ∧ c ≠ '/' ∧ c ≠ '>' := by
  obtain ⟨⟨hstart, -⟩, -⟩ := h
  cases hletters : a.letters with
  | nil =>
      rw [hletters] at hstart
      contradiction
  | cons c cs =>
      rw [hletters] at hstart
      have hc : isTagBlank c = false ∧ c ≠ '/' ∧ c ≠ '>' := by
        simpa [isAttributeNameStart, and_assoc] using hstart
      exact ⟨c, cs ++ (a.value?.map WrittenValue.render).getD [], by rw [render, hletters]; rfl, hc⟩

namespace MarkupEvent

theorem indexOf?_of_notMem {x : Char} {body : List Char} (h : x ∉ body) :
    indexOf? [x] body = none := by
  induction body with
  | nil => rfl
  | cons c body ih =>
      simp only [List.mem_cons, not_or] at h
      simp [indexOf?, List.isPrefixOf, h.1, ih h.2]

/-- A value is read as it is written. -/
theorem readValue_of_fits {s : ValueStyle} {content rest : List Char} (h : s.Fits content rest)
    (offset : Nat) :
    readValue ⟨offset, s.opening ++ (content ++ s.closing) ++ rest⟩ =
      ⟨content, s.isQuoted, ⟨offset + byteCount (s.opening ++ (content ++ s.closing)), rest⟩⟩ := by
  cases s with
  | quoted q =>
      obtain ⟨hq, hcontent⟩ := h
      have hskip : (Cursor.mk offset (q :: (content ++ q :: rest))).skip (content.length + 2) =
          ⟨offset + byteCount (q :: (content ++ [q])), rest⟩ := by
        simpa using Cursor.skip_append offset (q :: (content ++ [q])) rest
      have hquote : (q == '"' || q == '\'') = true := hq
      simp [ValueStyle.opening, ValueStyle.closing, ValueStyle.isQuoted, readValue, hquote,
        indexOf?_append rest hcontent, hskip]
  | bare =>
      obtain ⟨hcontent, hrest, hhead⟩ := h
      have hbare : readBareValue ⟨offset, content ++ rest⟩ =
          ⟨content, false, ⟨offset + byteCount content, rest⟩⟩ := by
        rw [List.all_eq_true] at hcontent
        rw [readBareValue, Cursor.skipWhile_append offset hcontent hrest,
          List.takeWhile_append_of_pos hcontent, hrest, List.append_nil]
      simp only [ValueStyle.opening, ValueStyle.closing, ValueStyle.isQuoted, List.nil_append,
        List.append_nil]
      rw [readValue]
      split
      · exact hbare
      · next quote body hbody =>
          dsimp only at hbody
          rw [hbody] at hhead
          have hquote : (quote == '"' || quote == '\'') = false := by
            simp only [List.head?_cons, Option.all_some, Bool.and_eq_true, Bool.not_eq_true']
              at hhead
            exact hhead.2
          rw [hquote]
          exact hbare
  | unclosed q =>
      obtain ⟨hq, hcontent, rfl⟩ := h
      have hquote : (q == '"' || q == '\'') = true := hq
      simp [ValueStyle.opening, ValueStyle.closing, ValueStyle.isQuoted, readValue, hquote,
        indexOf?_of_notMem hcontent, Cursor.skipAll, Cursor.skip]

/-- A name ends where it is written to end. -/
theorem nameLength_of_isName {letters rest : List Char} (h : WrittenAttribute.IsName letters)
    (hrest : rest.takeWhile isAttributeNamePart = []) (offset : Nat) :
    nameLength ⟨offset, letters ++ rest⟩ = letters.length := by
  obtain ⟨hstart, hparts⟩ := h
  cases letters with
  | nil => contradiction
  | cons c cs =>
      rw [List.tail_cons, List.all_eq_true] at hparts
      simp [nameLength, List.takeWhile_append_of_pos hparts, hrest]

/-- An attribute is read as it is written. -/
theorem readAttribute_of_reads {a : WrittenAttribute} {rest : List Char} (h : a.Reads rest)
    (offset : Nat) :
    readAttribute ⟨offset, a.render ++ rest⟩ =
      (a.located offset, ⟨offset + byteCount a.render, rest⟩) := by
  obtain ⟨letters, value?⟩ := a
  obtain ⟨hname, hflag, hvalue⟩ := h
  cases value? with
  | none =>
      obtain ⟨hstops, hsign⟩ := hflag rfl
      have hskip := Cursor.skip_append offset letters rest
      have hnext : ((Cursor.mk (offset + byteCount letters) rest).skipWhile isTagBlank).rest.head? ≠
          some '=' := by
        rw [Cursor.rest_skipWhile]
        exact hsign
      simp only [readAttribute, WrittenAttribute.render, Option.map_none, Option.getD_none,
        List.append_nil, nameLength_of_isName hname hstops, List.take_left, hskip, hnext, if_false]
      simp [WrittenAttribute.located, WrittenAttribute.name, WrittenAttribute.content,
        WrittenAttribute.isQuoted, WrittenAttribute.render]
  | some v =>
      obtain ⟨hbefore, hafter, hfits⟩ := hvalue v rfl
      rw [List.all_eq_true] at hbefore hafter
      generalize hX : v.style.opening ++ (v.content ++ v.style.closing) ++ rest = X
      have hrender : letters ++ v.render ++ rest =
          letters ++ (v.before ++ '=' :: (v.after ++ X)) := by
        simp [WrittenValue.render, WrittenValue.sign, ← hX]
      have hstops : (v.before ++ '=' :: (v.after ++ X)).takeWhile isAttributeNamePart = [] := by
        cases hcs : v.before with
        | nil => rfl
        | cons c cs => simp [isAttributeNamePart, hbefore c (by simp [hcs])]
      have hsign : (Cursor.mk (offset + byteCount letters)
          (v.before ++ '=' :: (v.after ++ X))).skipWhile isTagBlank =
          ⟨offset + byteCount letters + byteCount v.before, '=' :: (v.after ++ X)⟩ :=
        Cursor.skipWhile_append _ hbefore rfl
      have hvalue : ∀ o, (Cursor.mk o (v.after ++ X)).skipWhile isTagBlank =
          ⟨o + byteCount v.after, X⟩ := by
        intro o
        refine Cursor.skipWhile_append _ hafter ?_
        rw [← hX]
        exact hfits.takeWhile_isTagBlank
      have hread := readValue_of_fits hfits
      rw [hX] at hread
      simp only [readAttribute, WrittenAttribute.render, Option.map_some, Option.getD_some, hrender,
        nameLength_of_isName hname hstops, List.take_left, Cursor.skip_append, hsign,
        List.head?_cons, if_true, Cursor.skip_one, hvalue, hread]
      simp [WrittenAttribute.located, WrittenAttribute.name, WrittenAttribute.content,
        WrittenAttribute.isQuoted, WrittenAttribute.render, WrittenValue.render, WrittenValue.sign,
        Nat.add_assoc]

/-- Blanks between attributes are passed over. -/
theorem readAttributes_blank (found : List Attribute) (offset : Nat) {c : Char} (rest : List Char)
    (hc : isTagBlank c = true) :
    readAttributes found ⟨offset, c :: rest⟩ =
      readAttributes found ⟨offset + c.utf8Size, rest⟩ := by
  have hskip : (Cursor.mk offset (c :: rest)).skipWhile isTagBlank =
      (Cursor.mk (offset + c.utf8Size) rest).skipWhile isTagBlank := by
    simp [Cursor.skipWhile, Cursor.skip, hc, Nat.add_assoc]
  conv => lhs; rw [readAttributes]
  conv => rhs; rw [readAttributes]
  rw [hskip]

/-- The end of the template ends a tag. -/
theorem readAttributes_nil (found : List Attribute) (offset : Nat) :
    readAttributes found ⟨offset, []⟩ = ⟨found, false, ⟨offset, []⟩⟩ := by
  rw [readAttributes]
  rfl

/-- A slash that does not end the tag is passed over. -/
theorem readAttributes_slash (found : List Attribute) (offset : Nat) {rest : List Char}
    (hrest : rest.head? ≠ some '>') :
    readAttributes found ⟨offset, '/' :: rest⟩ = readAttributes found ⟨offset + 1, rest⟩ := by
  have hblank : isTagBlank '/' = false := rfl
  have hskip := Cursor.skipWhile_cons_of_neg offset rest hblank
  rw [readAttributes]
  split
  · next h => rw [hskip] at h; contradiction
  · next x xs h =>
      rw [hskip] at h
      obtain ⟨rfl, rfl⟩ := List.cons.inj h
      rw [if_neg (by decide), if_pos rfl, if_neg hrest, hskip, Cursor.skip_one]
      rfl

/-- A slash and a bracket end a tag. -/
theorem readAttributes_selfClosing (found : List Attribute) (offset : Nat) (rest : List Char) :
    readAttributes found ⟨offset, '/' :: '>' :: rest⟩ = ⟨found, true, ⟨offset + 2, rest⟩⟩ := by
  have hblank : isTagBlank '/' = false := rfl
  have hskip := Cursor.skipWhile_cons_of_neg offset ('>' :: rest) hblank
  rw [readAttributes]
  split
  · next h => rw [hskip] at h; contradiction
  · next x xs h =>
      rw [hskip] at h
      obtain ⟨rfl, rfl⟩ := List.cons.inj h
      rw [if_neg (by decide), if_pos rfl, List.head?_cons, if_pos rfl, hskip]
      rfl

/-- An attribute is taken in unless its name was met before. -/
theorem readAttributes_of_reads {a : WrittenAttribute} {rest : List Char} (h : a.Reads rest)
    (found : List Attribute) (offset : Nat) :
    readAttributes found ⟨offset, a.render ++ rest⟩ =
      readAttributes (Attribute.keepFirst found (a.located offset))
        ⟨offset + byteCount a.render, rest⟩ := by
  have hread := readAttribute_of_reads h offset
  obtain ⟨x, xs, hx, hblank, hslash, hclose⟩ := h.exists_render_eq_cons
  have hskip : (Cursor.mk offset (a.render ++ rest)).skipWhile isTagBlank =
      ⟨offset, a.render ++ rest⟩ := by
    rw [hx, List.cons_append]
    exact Cursor.skipWhile_cons_of_neg offset _ hblank
  rw [readAttributes]
  split
  · next hnil =>
      rw [hskip, hx] at hnil
      contradiction
  · next y ys hy =>
      rw [hskip, hx] at hy
      obtain ⟨rfl, -⟩ := List.cons.inj hy
      rw [if_neg hclose, if_neg hslash]
      simp only [hskip, hread, Attribute.keepFirst]

/-- What follows a tag's name is read as it is written. -/
theorem readAttributes_spell {ps : List TagPart} {ending rest : List Char}
    (h : TagPart.ReadsAll (ending ++ rest) ps)
    (hending : ending = ['>'] ∨ ending = ['/', '>'] ∨ ending = [] ∧ rest = [])
    (found : List Attribute) (offset : Nat) :
    readAttributes found ⟨offset, TagPart.spell ps ++ (ending ++ rest)⟩ =
      ⟨(TagPart.attributesFrom offset ps).foldl Attribute.keepFirst found, ending == ['/', '>'],
        ⟨offset + byteCount (TagPart.spell ps ++ ending), rest⟩⟩ := by
  induction ps generalizing found offset with
  | nil =>
      obtain rfl | rfl | ⟨rfl, rfl⟩ := hending
      · exact readAttributes_close found offset rest
      · exact readAttributes_selfClosing found offset rest
      · exact readAttributes_nil found offset
  | cons p ps ih =>
      obtain ⟨hp, hps⟩ := h
      have hspell : TagPart.spell (p :: ps) = p.render ++ TagPart.spell ps := rfl
      rw [hspell, List.append_assoc]
      cases p with
      | gap c =>
          obtain hc | ⟨rfl, hc⟩ := hp
          · rw [TagPart.render, List.singleton_append, readAttributes_blank _ _ _ hc, ih hps]
            simp [TagPart.attributesFrom, Nat.add_assoc]
          · have hsize : ('/').utf8Size = 1 := rfl
            rw [TagPart.render, List.singleton_append, readAttributes_slash _ _ hc, ih hps]
            simp [TagPart.attributesFrom, Nat.add_assoc, hsize]
      | attr a =>
          rw [TagPart.render, readAttributes_of_reads hp, ih hps]
          simp [TagPart.attributesFrom, Nat.add_assoc]

end MarkupEvent

/-! ## Words that end something -/

/-- A word found in a part is found there whatever follows the part. -/
theorem indexOf?_append_of_eq_some {word body : List Char} {n : Nat}
    (h : indexOf? word body = some n) (rest : List Char) :
    indexOf? word (body ++ rest) = some n := by
  induction body generalizing n with
  | nil =>
      obtain ⟨before, after, hbody, hn⟩ := eq_append_of_indexOf? h
      obtain ⟨rfl, rfl, rfl⟩ : before = [] ∧ word = [] ∧ after = [] := by simpa using hbody
      cases rest <;> simp [indexOf?, ← hn]
  | cons c body ih =>
      obtain ⟨before, after, hbody, hn⟩ := eq_append_of_indexOf? h
      rw [indexOf?] at h
      rw [List.cons_append, indexOf?]
      split at h
      · next hword =>
          have hlonger : word.isPrefixOf (c :: (body ++ rest)) = true := by
            rw [List.isPrefixOf_iff_prefix] at hword ⊢
            exact hword.trans (List.prefix_append (c :: body) rest)
          rw [if_pos hlonger, h]
      · next hword =>
          obtain ⟨k, hk, rfl⟩ := Option.map_eq_some_iff.mp h
          -- the word stands further inside, so there is room for it at the front too
          have hlonger : ¬ word.isPrefixOf (c :: (body ++ rest)) = true := by
            rw [List.isPrefixOf_iff_prefix] at hword ⊢
            intro hfront
            refine hword
              (List.prefix_of_prefix_length_le hfront (List.prefix_append (c :: body) rest) ?_)
            rw [hbody]
            simp
            omega
          rw [if_neg hlonger, ih hk]
          rfl

/-- A word whose first character does not come again is first found where it stands, if it does not
stand in the part before. -/
theorem indexOf?_append_of_startsWith {x : Char} {word body rest : List Char}
    (hnone : indexOf? (x :: word) body = none) (hx : x ∉ word) (hrest : x :: word <+: rest) :
    indexOf? (x :: word) (body ++ rest) = some body.length := by
  induction body with
  | nil =>
      obtain ⟨more, rfl⟩ := hrest
      simp [indexOf?]
  | cons c body ih =>
      rw [indexOf?] at hnone
      split at hnone
      · contradiction
      · next hword =>
          have hbody : indexOf? (x :: word) body = none := by simpa using hnone
          have hlonger : ¬ (x :: word).isPrefixOf (c :: (body ++ rest)) = true := by
            rw [List.isPrefixOf_iff_prefix] at hword ⊢
            intro hfront
            rw [List.cons_prefix_cons] at hfront hword
            obtain ⟨rfl, more, hmore⟩ := hfront
            obtain ⟨spare, hspare, -⟩ | ⟨tail, htail, hrest'⟩ := List.append_eq_append_iff.mp hmore
            · exact hword ⟨rfl, spare, hspare.symm⟩
            · cases tail with
              | nil => exact hword ⟨rfl, [], by simp [htail]⟩
              | cons y ys =>
                  rw [hrest', List.cons_append, List.cons_prefix_cons] at hrest
                  exact hx (by simp [htail, hrest.1])
          rw [List.cons_append, indexOf?, if_neg hlonger, ih hbody]
          rfl

namespace Closes

variable {word body rest : List Char}

theorem skipPast (h : Closes word body rest) (offset : Nat) :
    (Cursor.mk offset (body ++ rest)).skipPast word = ⟨offset + byteCount body, rest⟩ := by
  rw [Cursor.skipPast]
  obtain hfound | ⟨hnone, rfl⟩ := h
  · obtain ⟨before, after, hbody, hlength⟩ := eq_append_of_indexOf? hfound
    have hle : word.length ≤ body.length := by
      rw [hbody]
      simp
      omega
    simp only [indexOf?_append_of_eq_some hfound rest]
    rw [Nat.sub_add_cancel hle, Cursor.skip_append]
  · simp [hnone, Cursor.skipAll, Cursor.skip]

/-- What closes a body does not depend on what follows, as long as the template does not go on
behind a body that is not closed. -/
theorem of_rest {rest' : List Char} (h : Closes word body rest) (hrest : rest = [] → rest' = []) :
    Closes word body rest' := by
  obtain hfound | ⟨hnone, hnil⟩ := h
  · exact .inl hfound
  · exact .inr ⟨hnone, hrest hnil⟩

/-- Two dashes at the start of a text stand in the body that starts there. -/
theorem isPrefixOf_dashes (h : Closes ['>'] body rest)
    (hbody : ['-', '-'].isPrefixOf body = false) :
    ['-', '-'].isPrefixOf (body ++ rest) = false := by
  obtain hfound | ⟨-, rfl⟩ := h
  · cases body with
    | nil => contradiction
    | cons c body =>
        cases body with
        | nil =>
            obtain ⟨before, after, hc, -⟩ := eq_append_of_indexOf? hfound
            obtain ⟨-, rfl, -⟩ : before = [] ∧ '>' = c ∧ after = [] := by
              simpa [List.append_eq_singleton_iff] using hc.symm
            simp [List.isPrefixOf]
        | cons d body => simpa [List.isPrefixOf] using hbody
  · rwa [List.append_nil]

/-- A name that ends before a body ends there. -/
theorem takeWhile_isTagNamePart (h : Closes ['>'] body rest)
    (hbody : body.takeWhile isTagNamePart = []) :
    (body ++ rest).takeWhile isTagNamePart = [] := by
  cases body with
  | nil =>
      obtain hfound | ⟨-, rfl⟩ := h
      · contradiction
      · rfl
  | cons c body =>
      rw [List.takeWhile_cons] at hbody
      rw [List.cons_append, List.takeWhile_cons]
      split at hbody
      · contradiction
      · next hc => rw [if_neg hc]

end Closes

theorem WrittenTag.IsName.exists_eq_cons {letters : List Char} (h : IsName letters) :
    ∃ c cs, letters = c :: cs ∧ c.isAlpha = true := by
  cases letters with
  | nil => exact absurd h.1 (by simp)
  | cons c cs => exact ⟨c, cs, rfl, by simpa using h.1⟩

namespace RawReads

variable {name : String} {body rest : List Char}

/-- A raw body is skipped up to the end tag of its element. -/
theorem skipRawText (h : RawReads name body rest) (hname : '<' ∉ name.toList) (offset : Nat) :
    MarkupEvent.skipRawText name ⟨offset, body ++ rest⟩ = ⟨offset + byteCount body, rest⟩ := by
  obtain ⟨hbody, hrest⟩ := h
  rw [rawEnd] at hbody hrest
  rw [MarkupEvent.skipRawText]
  simp only [List.map_append]
  obtain rfl | hfront := hrest
  · simp [hbody, Cursor.skipAll, Cursor.skip]
  · have hslash : '<' ∉ '/' :: name.toList := by simp [hname]
    rw [List.isPrefixOf_iff_prefix] at hfront
    simp only [indexOf?_append_of_startsWith hbody hslash hfront, List.length_map]
    exact Cursor.skip_append offset body rest

end RawReads

/-! ## Reading segments -/

namespace MarkupEvent

theorem lt_notMem_of_isRawTextElement {name : String} (h : isRawTextElement name = true) :
    '<' ∉ name.toList := by
  rw [isRawTextElement, Bool.or_eq_true, beq_iff_eq, beq_iff_eq] at h
  obtain rfl | rfl := h <;> decide

/-- A tag's name ends where it is written to end. -/
theorem takeWhile_of_isName {letters rest : List Char} (h : WrittenTag.IsName letters)
    (hrest : rest.takeWhile isTagNamePart = []) :
    (letters ++ rest).takeWhile isTagNamePart = letters := by
  rw [List.takeWhile_append_of_pos (List.all_eq_true.mp h.2), hrest, List.append_nil]

/-- A start tag is read as it is written, with its body if that is plain text. -/
theorem readStartTag_of_reads {t : WrittenTag} {body rest : List Char}
    (h : (Segment.startTag t body).Reads rest) (offset : Nat) :
    readStartTag ⟨offset, (Segment.startTag t body).render ++ rest⟩ =
      (.start (t.located offset) t.isLeaf,
        ⟨offset + byteCount (Segment.startTag t body).render, rest⟩) := by
  obtain ⟨htag, hbody⟩ := h
  have hrender : (Segment.startTag t body).render ++ rest =
      ('<' :: t.letters) ++ (TagPart.spell t.parts ++ (t.ending ++ (body ++ rest))) := by
    simp [Segment.render, WrittenTag.render]
  have hletters : (((Segment.startTag t body).render ++ rest).drop 1).takeWhile isTagNamePart =
      t.letters := by
    rw [hrender, List.cons_append, List.drop_one, List.tail_cons]
    exact takeWhile_of_isName htag.name htag.name_stops
  have hskip := Cursor.skip_append offset ('<' :: t.letters)
    (TagPart.spell t.parts ++ (t.ending ++ (body ++ rest)))
  rw [← hrender, List.length_cons] at hskip
  have hread :=
    readAttributes_spell htag.parts htag.ending [] (offset + byteCount ('<' :: t.letters))
  simp only [readStartTag, hletters, hskip, hread]
  have hleaf : (t.ending == ['/', '>'] || isVoidElement (lowerCase t.letters)) = t.isLeaf := rfl
  have hraw : (!t.isLeaf && isRawTextElement (lowerCase t.letters)) = t.hasRawBody := rfl
  rw [hleaf, hraw]
  cases hhas : t.hasRawBody with
  | true =>
      rw [hhas, if_pos rfl] at hbody
      have hname : isRawTextElement t.name = true := by
        rw [WrittenTag.hasRawBody, Bool.and_eq_true] at hhas
        exact hhas.2
      have hskip' := hbody.skipRawText (lt_notMem_of_isRawTextElement hname)
      rw [WrittenTag.name] at hskip'
      simp [hskip', WrittenTag.located, WrittenTag.name, Segment.render, WrittenTag.render,
        Nat.add_assoc]
  | false =>
      obtain rfl : body = [] := by simpa [hhas] using hbody
      simp [WrittenTag.located, WrittenTag.name, Segment.render, WrittenTag.render, Nat.add_assoc]

/-- A segment that is not text starts with a `<`. -/
theorem exists_render_eq_cons {p : Segment} (hp : p.isText = false) :
    ∃ more, p.render = '<' :: more := by
  cases p with
  | text content => contradiction
  | _ => exact ⟨_, rfl⟩

/-- A segment that is not text is read as it is written. -/
theorem readMarkup?_of_reads {p : Segment} {rest : List Char} (h : p.Reads rest)
    (hp : p.isText = false) (offset : Nat) :
    readMarkup? ⟨offset, p.render ++ rest⟩ =
      some (p.event? offset, ⟨offset + byteCount p.render, rest⟩) := by
  cases p with
  | text content => contradiction
  | comment body =>
      have hclosed : Closes ['-', '-', '>'] body rest := h
      have hskip := Cursor.skip_append offset ['<', '!', '-', '-'] (body ++ rest)
      simp only [List.length_cons, List.length_nil, List.cons_append, List.nil_append] at hskip
      simp only [readMarkup?, Segment.render, List.cons_append, List.drop_one, List.tail_cons,
        hskip, hclosed.skipPast]
      simp [Segment.event?, Nat.add_assoc]
  | declaration mark body =>
      obtain ⟨hmark, hclosed⟩ := h
      have hskip := Cursor.skip_append offset ['<', mark] (body ++ rest)
      simp only [List.length_cons, List.length_nil, List.cons_append, List.nil_append] at hskip
      have hplain : ¬ (mark = '!' ∧ ['-', '-'].isPrefixOf (body ++ rest) = true) := by
        rintro ⟨rfl, hdashes⟩
        obtain ⟨-, hbody⟩ | hmark := hmark
        · rw [hclosed.isPrefixOf_dashes hbody] at hdashes
          contradiction
        · contradiction
      have hmark' : mark = '!' ∨ mark = '?' := hmark.imp_left And.left
      simp only [readMarkup?, Segment.render, List.cons_append, List.drop_one, List.tail_cons,
        if_neg hplain, if_pos hmark', hskip, hclosed.skipPast]
      simp [Segment.event?, Nat.add_assoc]
  | endTag letters body =>
      obtain ⟨hname, hstops, hclosed⟩ := h
      obtain ⟨c, cs, rfl, hc⟩ := hname.exists_eq_cons
      have hrender : (Segment.endTag (c :: cs) body).render ++ rest =
          '<' :: '/' :: c :: (cs ++ (body ++ rest)) := by simp [Segment.render]
      have hletters : (c :: (cs ++ (body ++ rest))).takeWhile isTagNamePart = c :: cs :=
        takeWhile_of_isName hname (hclosed.takeWhile_isTagNamePart hstops)
      have hskip := Cursor.skip_append offset ('<' :: '/' :: c :: cs) (body ++ rest)
      simp only [List.length_cons, List.cons_append] at hskip
      rw [hrender, readMarkup?_endTag _ _ hc]
      simp only [readEndTag, List.drop_succ_cons, List.drop_zero, hletters, List.length_cons, hskip,
        hclosed.skipPast]
      simp [Segment.event?, Segment.render, Nat.add_assoc]
  | startTag tag body =>
      obtain ⟨c, cs, hcs, hc⟩ := h.1.name.exists_eq_cons
      have hread := readStartTag_of_reads h offset
      have hrender : (Segment.startTag tag body).render ++ rest =
          '<' :: c :: (cs ++ (TagPart.spell tag.parts ++ tag.ending) ++ body ++ rest) := by
        simp [Segment.render, WrittenTag.render, hcs]
      rw [hrender] at hread ⊢
      rw [readMarkup?_startTag _ _ hc, hread]
      rfl

/-- A `<` is markup exactly if what follows opens it. -/
theorem isSome_readMarkup? (offset : Nat) (rest : List Char) :
    (readMarkup? ⟨offset, '<' :: rest⟩).isSome = opensMarkup rest := by
  cases rest with
  | nil => rfl
  | cons x xs =>
      simp only [readMarkup?, opensMarkup, List.drop_one, List.tail_cons]
      split
      · next h => simp [h.1]
      · split
        · next h => obtain rfl | rfl := h <;> simp
        · next hmark =>
            rw [not_or] at hmark
            split
            · next hslash =>
                subst hslash
                split
                · next halpha => simp [halpha]
                · next halpha => simp [halpha]
            · next hslash =>
                split
                · next halpha => simp [halpha]
                · next halpha => simp [hmark.1, hmark.2, hslash, halpha]

/-- Text is read as it is written. -/
theorem scanFrom_of_textReads {content rest : List Char} (h : TextReads rest content)
    (start offset : Nat) (pending : List Char) :
    scanFrom start pending ⟨offset, content ++ rest⟩ =
      scanFrom start (pending ++ content) ⟨offset + byteCount content, rest⟩ := by
  induction content generalizing offset pending with
  | nil => simp
  | cons c content ih =>
      obtain ⟨hc, hcontent⟩ := h
      have hstep : scanFrom start pending ⟨offset, c :: (content ++ rest)⟩ =
          scanFrom start (pending ++ [c]) ⟨offset + c.utf8Size, content ++ rest⟩ := by
        by_cases hlt : c = '<'
        · subst hlt
          have hnone : readMarkup? ⟨offset, '<' :: (content ++ rest)⟩ = none := by
            rw [← Option.not_isSome_iff_eq_none, isSome_readMarkup?, hc rfl]
            simp
          exact scanFrom_of_readMarkup?_eq_none hnone
        · exact scanFrom_cons_of_ne hlt _ _ _ _
      rw [List.cons_append, hstep, ih hcontent]
      simp [Nat.add_assoc]

/-- **Templates are read as they are written.** -/
theorem scanFrom_spell {ps : List Segment} (h : Segment.ReadsAll ps) (start offset : Nat)
    (pending : List Char) :
    scanFrom start pending ⟨offset, Segment.spell ps⟩ =
      Segment.eventsFrom start pending offset ps := by
  induction ps generalizing start offset pending with
  | nil =>
      rw [scanFrom]
      rfl
  | cons p ps ih =>
      obtain ⟨hp, hps⟩ := h
      rw [Segment.spell_cons, Segment.eventsFrom]
      split
      · next htext =>
          cases p with
          | text content => rw [Segment.render, scanFrom_of_textReads hp, ih hps]
          | _ => contradiction
      · next htext =>
          rw [Bool.not_eq_true] at htext
          have hread := readMarkup?_of_reads hp htext offset
          obtain ⟨more, hmore⟩ := exists_render_eq_cons htext
          rw [hmore, List.cons_append] at hread ⊢
          rw [scanFrom_of_readMarkup? hread, ih hps]

end MarkupEvent

end TemplateMigration
