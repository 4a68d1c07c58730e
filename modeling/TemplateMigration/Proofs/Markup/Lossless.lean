import TemplateMigration.Proofs.Markup.Preorder
import TemplateMigration.Proofs.Markup.Reading

/-!
# TemplateMigration.Proofs.Markup.Lossless

Every template is written in segments.

A scan of any text takes one segment after the other, and leaves nothing out.  Each reader is
followed once more, now from the text to a written part: `exists_value`, `exists_attribute`,
`exists_parts`, `exists_segment`.  The main statement is `Segment.exists_spells`.  What the forest
of a template holds can then be read off its segments (`Segment.Spells.contents_parse`), and a tag
of the forest is a tag as it is written (`exists_writtenTag_of_mem_contents`).
-/

namespace TemplateMigration

open MarkupEvent

/-! ## Attributes -/

/-- Before the first occurrence of a character there is none. -/
theorem notMem_take_of_indexOf? {x : Char} {body : List Char} {n : Nat}
    (h : indexOf? [x] body = some n) : x ∉ body.take n := by
  induction body generalizing n with
  | nil => simp
  | cons c body ih =>
      rw [indexOf?] at h
      split at h
      · obtain rfl : 0 = n := Option.some.inj h
        simp
      · next hc =>
          obtain ⟨k, hk, rfl⟩ := Option.map_eq_some_iff.mp h
          have hne : x ≠ c := by simpa [List.isPrefixOf] using hc
          simp [hne, ih hk]

theorem notMem_of_indexOf?_eq_none {x : Char} {body : List Char} (h : indexOf? [x] body = none) :
    x ∉ body := by
  induction body with
  | nil => simp
  | cons c body ih =>
      rw [indexOf?] at h
      split at h
      · contradiction
      · next hc =>
          have hne : x ≠ c := by simpa [List.isPrefixOf] using hc
          simp [hne, ih (by simpa using h)]

theorem takeWhile_dropWhile (p : Char → Bool) (cs : List Char) :
    (cs.dropWhile p).takeWhile p = [] := by
  induction cs with
  | nil => rfl
  | cons c cs ih =>
      rw [List.dropWhile_cons]
      split
      · exact ih
      · next hc => simp [hc]

/-- What follows a sign and its blanks is a value. -/
theorem exists_value {c : Cursor} (hc : c.rest.takeWhile isTagBlank = []) :
    ∃ (s : ValueStyle) (content : List Char),
      c.rest = s.opening ++ (content ++ s.closing) ++ (readValue c).after.rest ∧
        s.Fits content (readValue c).after.rest := by
  have hbare : c.rest.head?.all (fun x => !isQuote x) = true →
      c.rest = (readBareValue c).value ++ (readBareValue c).after.rest ∧
        ValueStyle.bare.Fits (readBareValue c).value (readBareValue c).after.rest := by
    intro hquote
    have hafter : (readBareValue c).after.rest = c.rest.dropWhile isBareValuePart :=
      Cursor.rest_skipWhile _ c
    have hsplit : c.rest = (readBareValue c).value ++ (readBareValue c).after.rest := by
      rw [hafter]
      exact List.takeWhile_append_dropWhile.symm
    refine ⟨hsplit, ?_, ?_, ?_⟩
    · exact List.all_takeWhile
    · rw [hafter, takeWhile_dropWhile]
    · rw [← hsplit]
      cases hrest : c.rest with
      | nil => rfl
      | cons x xs =>
          have hblank : isTagBlank x = false := by
            rw [hrest, List.takeWhile_cons] at hc
            split at hc
            · contradiction
            · next hx => simpa using hx
          have hmark : isQuote x = false := by simpa [hrest] using hquote
          simp [hblank, hmark]
  rw [readValue]
  split
  · next hrest =>
      obtain ⟨hsplit, hfits⟩ := hbare (by simp [hrest])
      exact ⟨.bare, _, by simpa [ValueStyle.opening, ValueStyle.closing] using hsplit, hfits⟩
  · next quote body hrest =>
      split
      · next hquote =>
          split
          · next n hindex =>
              obtain ⟨before, after, rfl, rfl⟩ := eq_append_of_indexOf? hindex
              have hnotMem := notMem_take_of_indexOf? hindex
              refine ⟨.quoted quote, before, ?_, hquote, by simpa using hnotMem⟩
              simp [hrest, Cursor.skip, ValueStyle.opening, ValueStyle.closing]
          · next hindex =>
              refine ⟨.unclosed quote, body, ?_, hquote, notMem_of_indexOf?_eq_none hindex, ?_⟩
              · simp [hrest, Cursor.skipAll, Cursor.skip, ValueStyle.opening, ValueStyle.closing]
              · simp [Cursor.skipAll, Cursor.skip]
      · next hquote =>
          have hhead : c.rest.head?.all (fun x => !isQuote x) = true := by
            simpa [hrest, isQuote] using hquote
          obtain ⟨hsplit, hfits⟩ := hbare hhead
          exact ⟨.bare, _, by simpa [ValueStyle.opening, ValueStyle.closing] using hsplit, hfits⟩

theorem Cursor.rest_skip (n : Nat) (c : Cursor) : (c.skip n).rest = c.rest.drop n := rfl

/-- The letters that a name takes. -/
theorem take_nameLength {c : Cursor} {x : Char} {xs : List Char} (hrest : c.rest = x :: xs) :
    c.rest.take (nameLength c) = x :: xs.takeWhile isAttributeNamePart ∧
      (c.skip (nameLength c)).rest = xs.dropWhile isAttributeNamePart := by
  have hsplit : c.rest = (x :: xs.takeWhile isAttributeNamePart) ++
      xs.dropWhile isAttributeNamePart := by
    rw [hrest, List.cons_append, List.takeWhile_append_dropWhile]
  have hlength : nameLength c = (x :: xs.takeWhile isAttributeNamePart).length := by
    simp [nameLength, hrest]
  rw [Cursor.rest_skip, hlength, hsplit, List.take_left, List.drop_left]
  exact ⟨rfl, rfl⟩

/-- What is read as an attribute is written as one. -/
theorem exists_attribute {c : Cursor} {x : Char} {xs : List Char} (hrest : c.rest = x :: xs)
    (hx : isAttributeNameStart x = true) :
    ∃ a : WrittenAttribute, c.rest = a.render ++ (readAttribute c).2.rest ∧
      a.Reads (readAttribute c).2.rest := by
  obtain ⟨hletters, hafter⟩ := take_nameLength hrest
  have hname : WrittenAttribute.IsName (x :: xs.takeWhile isAttributeNamePart) :=
    ⟨by simpa using hx, by simp [List.all_takeWhile]⟩
  have hsplit : c.rest = (x :: xs.takeWhile isAttributeNamePart) ++
      (c.skip (nameLength c)).rest := by
    rw [hafter, hrest, List.cons_append, List.takeWhile_append_dropWhile]
  generalize hnext : c.skip (nameLength c) = after at hsplit hafter
  have hstops : after.rest.takeWhile isAttributeNamePart = [] := by
    rw [hafter, takeWhile_dropWhile]
  simp only [readAttribute, hnext]
  split
  · next hsign =>
      rw [Cursor.rest_skipWhile] at hsign
      obtain ⟨more, hmore⟩ : ∃ more, after.rest.dropWhile isTagBlank = '=' :: more := by
        cases hdrop : after.rest.dropWhile isTagBlank with
        | nil => simp [hdrop] at hsign
        | cons y ys => exact ⟨ys, by simpa [hdrop] using hsign⟩
      have hcursor : ((after.skipWhile isTagBlank).skip 1).rest = more := by
        rw [Cursor.rest_skip, Cursor.rest_skipWhile, hmore]
        rfl
      generalize hvalue : ((after.skipWhile isTagBlank).skip 1).skipWhile isTagBlank = value
      have hvalueRest : value.rest = more.dropWhile isTagBlank := by
        rw [← hvalue, Cursor.rest_skipWhile, hcursor]
      obtain ⟨s, content, hread, hfits⟩ := exists_value
        (show value.rest.takeWhile isTagBlank = [] by rw [hvalueRest, takeWhile_dropWhile])
      refine ⟨⟨_, some ⟨after.rest.takeWhile isTagBlank, more.takeWhile isTagBlank, s, content⟩⟩,
        ?_, hname, by simp, ?_⟩
      · rw [hsplit, WrittenAttribute.render]
        have hblanks : after.rest = after.rest.takeWhile isTagBlank ++
            '=' :: (more.takeWhile isTagBlank ++ value.rest) := by
          rw [hvalueRest, List.takeWhile_append_dropWhile, ← hmore,
            List.takeWhile_append_dropWhile]
        conv => lhs; rw [hblanks, hread]
        simp [WrittenValue.render, WrittenValue.sign]
      · intro v hv
        obtain rfl : _ = v := Option.some.inj hv
        exact ⟨List.all_takeWhile, List.all_takeWhile, hfits⟩
  · next hsign =>
      rw [Cursor.rest_skipWhile] at hsign
      refine ⟨⟨_, none⟩, by simpa [WrittenAttribute.render] using hsplit, hname, ?_, by simp⟩
      intro _
      exact ⟨hstops, hsign⟩

/-! ## Tags -/

namespace TagPart

theorem spell_append (ps qs : List TagPart) : spell (ps ++ qs) = spell ps ++ spell qs :=
  List.flatMap_append

theorem spell_map_gap (cs : List Char) : spell (cs.map gap) = cs := by
  induction cs with
  | nil => rfl
  | cons c cs ih => rw [List.map_cons, spell, List.flatMap_cons, ← spell, ih]; rfl

/-- Blanks can stand before any parts. -/
theorem ReadsAll.blanks_append {rest : List Char} {ps : List TagPart} (h : ReadsAll rest ps)
    {cs : List Char} (hcs : cs.all isTagBlank = true) : ReadsAll rest (cs.map gap ++ ps) := by
  induction cs with
  | nil => exact h
  | cons c cs ih =>
      rw [List.all_cons, Bool.and_eq_true] at hcs
      exact ⟨.inl hcs.1, ih hcs.2⟩

end TagPart

/-- What stands in a tag behind its name is written as parts and an ending. -/
theorem exists_parts (found : List Attribute) (c : Cursor) :
    ∃ (ps : List TagPart) (ending : List Char),
      c.rest = TagPart.spell ps ++ (ending ++ (readAttributes found c).after.rest) ∧
        TagPart.ReadsAll (ending ++ (readAttributes found c).after.rest) ps ∧
        (ending = ['>'] ∨ ending = ['/', '>'] ∨
          ending = [] ∧ (readAttributes found c).after.rest = []) := by
  have hblanks : ∀ cursor : Cursor, cursor.rest =
      TagPart.spell ((cursor.rest.takeWhile isTagBlank).map .gap) ++
        (cursor.skipWhile isTagBlank).rest := by
    intro cursor
    rw [TagPart.spell_map_gap, Cursor.rest_skipWhile, List.takeWhile_append_dropWhile]
  have hgaps : ∀ {rest ps} (cursor : Cursor), TagPart.ReadsAll rest ps →
      TagPart.ReadsAll rest ((cursor.rest.takeWhile isTagBlank).map .gap ++ ps) :=
    fun cursor h => h.blanks_append List.all_takeWhile
  have hnone : ∀ {rest} (cursor : Cursor),
      TagPart.ReadsAll rest ((cursor.rest.takeWhile isTagBlank).map .gap) := by
    intro rest cursor
    have hnil : TagPart.ReadsAll rest [] := trivial
    simpa using hgaps cursor hnil
  fun_induction readAttributes found c with
  | case1 found cursor c h =>
      refine ⟨(cursor.rest.takeWhile isTagBlank).map .gap, [], ?_, hnone cursor,
        .inr (.inr ⟨rfl, h⟩)⟩
      simpa using hblanks cursor
  | case2 found cursor c xs h =>
      refine ⟨(cursor.rest.takeWhile isTagBlank).map .gap, ['>'], ?_, hnone cursor, .inl rfl⟩
      conv => lhs; rw [hblanks cursor, h]
      rw [Cursor.rest_skip, h]
      rfl
  | case3 found cursor c xs hclose h =>
      refine ⟨(cursor.rest.takeWhile isTagBlank).map .gap, ['/', '>'], ?_, hnone cursor,
        .inr (.inl rfl)⟩
      obtain ⟨more, rfl⟩ : ∃ more, xs = '>' :: more := by
        cases xs with
        | nil => simp at hclose
        | cons y ys => exact ⟨ys, by simpa using hclose⟩
      conv => lhs; rw [hblanks cursor, h]
      rw [Cursor.rest_skip, h]
      rfl
  | case4 found cursor c xs hopen h _ ih =>
      obtain ⟨ps, ending, hrest, hps, hending⟩ := ih
      have hskip : (c.skip 1).rest = xs := by
        rw [Cursor.rest_skip, h]
        rfl
      rw [hskip] at hrest
      have hparts : TagPart.ReadsAll (ending ++ _) (.gap '/' :: ps) :=
        ⟨.inr ⟨rfl, by rwa [← hrest]⟩, hps⟩
      refine ⟨(cursor.rest.takeWhile isTagBlank).map .gap ++ .gap '/' :: ps, ending, ?_,
        hgaps cursor hparts, hending⟩
      conv => lhs; rw [hblanks cursor, h, hrest]
      rw [TagPart.spell_append, List.append_assoc]
      rfl
  | case5 found cursor c x xs h hclose hslash read found' ih =>
      obtain ⟨ps, ending, hrest, hps, hending⟩ := ih
      have hblank : isTagBlank x = false := by
        have hhead : c.rest.takeWhile isTagBlank = [] := by
          rw [Cursor.rest_skipWhile, takeWhile_dropWhile]
        rw [h, List.takeWhile_cons] at hhead
        split at hhead
        · contradiction
        · next hx => simpa using hx
      have hstart : isAttributeNameStart x = true := by
        simp [isAttributeNameStart, hblank, hclose, hslash]
      obtain ⟨a, ha, hreads⟩ := exists_attribute h hstart
      have hread : (readAttribute c).2.rest = TagPart.spell ps ++ (ending ++ _) := hrest
      rw [hread] at ha hreads
      have hparts : TagPart.ReadsAll (ending ++ _) (.attr a :: ps) := ⟨hreads, hps⟩
      refine ⟨(cursor.rest.takeWhile isTagBlank).map .gap ++ .attr a :: ps, ending, ?_,
        hgaps cursor hparts, hending⟩
      conv => lhs; rw [hblanks cursor, ha]
      rw [TagPart.spell_append, List.append_assoc]
      simp [TagPart.spell, TagPart.render]

/-! ## Segments -/

/-- A word found inside a part is found when the part stands alone. -/
theorem indexOf?_of_append {word body rest : List Char} {n : Nat}
    (h : indexOf? word (body ++ rest) = some n) (hn : n + word.length ≤ body.length) :
    indexOf? word body = some n := by
  induction body generalizing n with
  | nil =>
      obtain ⟨rfl, rfl⟩ : n = 0 ∧ word = [] := by simpa using hn
      rfl
  | cons c body ih =>
      rw [List.cons_append, indexOf?] at h
      rw [indexOf?]
      split at h
      · next hword =>
          obtain rfl : 0 = n := Option.some.inj h
          rw [List.isPrefixOf_iff_prefix] at hword
          have hshorter : word.isPrefixOf (c :: body) = true := by
            rw [List.isPrefixOf_iff_prefix]
            exact List.prefix_of_prefix_length_le hword (List.prefix_append (c :: body) rest)
              (by simpa using hn)
          rw [if_pos hshorter]
      · next hword =>
          obtain ⟨k, hk, rfl⟩ := Option.map_eq_some_iff.mp h
          have hshorter : ¬ word.isPrefixOf (c :: body) = true := by
            rw [List.isPrefixOf_iff_prefix] at hword ⊢
            exact fun hfront => hword (hfront.trans (List.prefix_append (c :: body) rest))
          rw [List.length_cons] at hn
          rw [if_neg hshorter, ih hk (by omega)]
          rfl

/-- What is skipped up to a word is closed by it. -/
theorem exists_closes (word : List Char) (c : Cursor) :
    ∃ body, c.rest = body ++ (c.skipPast word).rest ∧ Closes word body (c.skipPast word).rest := by
  rw [Cursor.skipPast]
  split
  · next n hfound =>
      obtain ⟨before, after, hrest, rfl⟩ := eq_append_of_indexOf? hfound
      have hskip : (c.skip (before.length + word.length)).rest = after := by
        rw [Cursor.rest_skip, hrest, ← List.length_append, List.drop_left]
      refine ⟨before ++ word, by rw [hskip, hrest], .inl ?_⟩
      rw [hrest] at hfound
      simpa using indexOf?_of_append hfound (by simp)
  · next hnone =>
      have hall : c.skipAll.rest = [] := by simp [Cursor.skipAll, Cursor.skip]
      exact ⟨c.rest, by rw [hall, List.append_nil], .inr ⟨hnone, hall⟩⟩

/-- What is skipped of a raw text element is its body. -/
theorem exists_rawReads (name : String) (c : Cursor) :
    ∃ body, c.rest = body ++ (skipRawText name c).rest ∧
      RawReads name body (skipRawText name c).rest := by
  rw [skipRawText]
  split
  · next n hfound =>
      obtain ⟨before, after, hrest, hlength⟩ := eq_append_of_indexOf? hfound
      have htake : (c.rest.take n).map Char.toLower = before := by
        rw [List.map_take, hrest, List.append_assoc, ← hlength, List.take_left]
      have hdrop : (c.rest.drop n).map Char.toLower = rawEnd name ++ after := by
        rw [List.map_drop, hrest, List.append_assoc, ← hlength, List.drop_left]
        rfl
      refine ⟨c.rest.take n, (List.take_append_drop n c.rest).symm, ?_, .inr ?_⟩
      · rw [htake]
        cases hindex : indexOf? (rawEnd name) before with
        | none => rfl
        | some k =>
            -- an occurrence inside the body would have been found first
            have hearlier := indexOf?_append_of_eq_some hindex (rawEnd name ++ after)
            rw [← List.append_assoc] at hearlier
            rw [hrest] at hfound
            obtain rfl : k = n := Option.some.inj (hearlier.symm.trans hfound)
            obtain ⟨front, back, hbefore, rfl⟩ := eq_append_of_indexOf? hindex
            rw [hbefore] at hlength
            simp [rawEnd] at hlength
      · rw [Cursor.rest_skip, hdrop, List.isPrefixOf_iff_prefix]
        exact List.prefix_append _ _
  · next hnone =>
      have hall : c.skipAll.rest = [] := by simp [Cursor.skipAll, Cursor.skip]
      exact ⟨c.rest, by rw [hall, List.append_nil], hnone, .inl hall⟩

theorem isTagNamePart_of_isAlpha {c : Char} (h : c.isAlpha = true) : isTagNamePart c = true := by
  have hne : ∀ d : Char, d.isAlpha = false → c ≠ d := by
    rintro d hd rfl
    rw [h] at hd
    contradiction
  simp [isTagNamePart, isTagBlank, hne ' ' rfl, hne '\t' rfl, hne '\n' rfl, hne '\x0c' rfl,
    hne '\r' rfl, hne '>' rfl, hne '/' rfl]

/-- The letters that a tag's name takes. -/
theorem isName_takeWhile {x : Char} (xs : List Char) (hx : x.isAlpha = true) :
    WrittenTag.IsName ((x :: xs).takeWhile isTagNamePart) := by
  refine ⟨?_, List.all_takeWhile⟩
  rw [List.takeWhile_cons_of_pos (isTagNamePart_of_isAlpha hx)]
  simpa using hx

/-- What is read as a start tag is written as one. -/
theorem exists_startTag {c : Cursor} {x : Char} {xs : List Char} (hrest : c.rest = '<' :: x :: xs)
    (hx : x.isAlpha = true) :
    ∃ (t : WrittenTag) (body : List Char),
      c.rest = (Segment.startTag t body).render ++ (readStartTag c).2.rest ∧
        (Segment.startTag t body).Reads (readStartTag c).2.rest := by
  have hletters : (c.rest.drop 1).takeWhile isTagNamePart = (x :: xs).takeWhile isTagNamePart := by
    rw [hrest]
    rfl
  have hname := isName_takeWhile xs hx
  have hsplit : c.rest = ('<' :: (x :: xs).takeWhile isTagNamePart) ++
      (x :: xs).dropWhile isTagNamePart := by
    rw [hrest, List.cons_append, List.takeWhile_append_dropWhile]
  generalize (x :: xs).takeWhile isTagNamePart = letters at hletters hname hsplit
  generalize hafter : c.skip (letters.length + 1) = after
  have hafterRest : after.rest = (x :: xs).dropWhile isTagNamePart := by
    have hlength : letters.length + 1 = ('<' :: letters).length := rfl
    rw [← hafter, Cursor.rest_skip, hlength, hsplit, List.drop_left]
  obtain ⟨ps, ending, hparts, hreads, hending⟩ := exists_parts [] after
  have hself : (readAttributes [] after).selfClosing = (ending == ['/', '>']) := by
    have hread := readAttributes_spell hreads hending [] after.offset
    rw [← hparts] at hread
    exact congrArg TagTail.selfClosing hread
  generalize htail : readAttributes [] after = tail at hparts hreads hending hself
  have hstops : (TagPart.spell ps ++ (ending ++ tail.after.rest)).takeWhile isTagNamePart = [] := by
    rw [← hparts, hafterRest, takeWhile_dropWhile]
  have htag : WrittenTag.Reads ⟨letters, ps, ending⟩ tail.after.rest :=
    ⟨hname, hstops, hreads, hending⟩
  have hspell : c.rest = (WrittenTag.mk letters ps ending).render ++ tail.after.rest := by
    rw [hsplit, ← hafterRest, hparts]
    simp [WrittenTag.render]
  have hraw : (!(tail.selfClosing || isVoidElement (lowerCase letters)) &&
      isRawTextElement (lowerCase letters)) =
      (WrittenTag.mk letters ps ending).hasRawBody := by
    rw [hself]
    rfl
  simp only [readStartTag, hletters, hafter, htail, hraw]
  refine ⟨⟨letters, ps, ending⟩, ?_⟩
  cases hhas : (WrittenTag.mk letters ps ending).hasRawBody with
  | true =>
      obtain ⟨body, hbody, hrawReads⟩ := exists_rawReads (lowerCase letters) tail.after
      refine ⟨body, ?_, ?_, ?_⟩
      · rw [if_pos rfl, Segment.render, List.append_assoc, ← hbody, hspell]
      · rw [if_pos rfl, ← hbody]
        exact htag
      · rw [if_pos rfl, hhas, if_pos rfl]
        exact hrawReads
  | false =>
      refine ⟨[], ?_, ?_, ?_⟩
      · rw [if_neg (by simp), Segment.render, List.append_nil, hspell]
      · rw [if_neg (by simp), List.nil_append]
        exact htag
      · rw [hhas, if_neg (by simp)]

/-- What is read as an end tag is written as one. -/
theorem exists_endTag {c : Cursor} {x : Char} {xs : List Char}
    (hrest : c.rest = '<' :: '/' :: x :: xs) (hx : x.isAlpha = true) :
    ∃ letters body, c.rest = (Segment.endTag letters body).render ++ (readEndTag c).2.rest ∧
      (Segment.endTag letters body).Reads (readEndTag c).2.rest := by
  have hletters : (c.rest.drop 2).takeWhile isTagNamePart = (x :: xs).takeWhile isTagNamePart := by
    rw [hrest]
    rfl
  have hname := isName_takeWhile xs hx
  have hsplit : c.rest = ('<' :: '/' :: (x :: xs).takeWhile isTagNamePart) ++
      (x :: xs).dropWhile isTagNamePart := by
    rw [hrest, List.cons_append, List.cons_append, List.takeWhile_append_dropWhile]
  generalize (x :: xs).takeWhile isTagNamePart = letters at hletters hname hsplit
  generalize hafter : c.skip (letters.length + 2) = after
  have hafterRest : after.rest = (x :: xs).dropWhile isTagNamePart := by
    have hlength : letters.length + 2 = ('<' :: '/' :: letters).length := rfl
    rw [← hafter, Cursor.rest_skip, hlength, hsplit, List.drop_left]
  obtain ⟨body, hbody, hcloses⟩ := exists_closes ['>'] after
  simp only [readEndTag, hletters, hafter]
  refine ⟨letters, body, ?_, hname, ?_, hcloses⟩
  · rw [hsplit, ← hafterRest, hbody]
    simp [Segment.render]
  · have hstops := takeWhile_dropWhile isTagNamePart (x :: xs)
    rw [← hafterRest, hbody] at hstops
    cases body with
    | nil => rfl
    | cons y ys =>
        rw [List.cons_append, List.takeWhile_cons] at hstops
        rw [List.takeWhile_cons]
        split at hstops
        · contradiction
        · next hy => rw [if_neg hy]

/-- What a `<` starts is written as a segment. -/
theorem exists_segment {c after : Cursor} {xs : List Char} {event : Option MarkupEvent}
    (hrest : c.rest = '<' :: xs) (hread : readMarkup? c = some (event, after)) :
    ∃ p : Segment, p.isText = false ∧ c.rest = p.render ++ after.rest ∧ p.Reads after.rest := by
  have hdrop : c.rest.drop 1 = xs := by rw [hrest]; rfl
  rw [readMarkup?, hdrop] at hread
  cases xs with
  | nil => contradiction
  | cons x xs =>
      simp only at hread
      split at hread
      · next hcomment =>
          obtain ⟨rfl, hdashes⟩ := hcomment
          obtain ⟨more, rfl⟩ := List.isPrefixOf_iff_prefix.mp hdashes
          cases hread
          obtain ⟨body, hbody, hcloses⟩ := exists_closes ['-', '-', '>'] (c.skip 4)
          refine ⟨.comment body, rfl, ?_, hcloses⟩
          have hskip : (c.skip 4).rest = more := by
            rw [Cursor.rest_skip, hrest]
            rfl
          rw [Segment.render, hrest, ← hskip, hbody]
          rfl
      · next hcomment =>
          split at hread
          · next hmark =>
              cases hread
              obtain ⟨body, hbody, hcloses⟩ := exists_closes ['>'] (c.skip 2)
              have hskip : (c.skip 2).rest = xs := by
                rw [Cursor.rest_skip, hrest]
                rfl
              rw [hskip] at hbody
              refine ⟨.declaration x body, rfl, ?_, ?_, hcloses⟩
              · rw [Segment.render, hrest, hbody]
                rfl
              · obtain rfl | hquestion := hmark
                · refine .inl ⟨rfl, ?_⟩
                  cases hdashes : ['-', '-'].isPrefixOf body with
                  | false => rfl
                  | true =>
                      refine absurd ⟨rfl, ?_⟩ hcomment
                      rw [List.isPrefixOf_iff_prefix] at hdashes ⊢
                      rw [hbody]
                      exact hdashes.trans (List.prefix_append _ _)
                · exact .inr hquestion
          · split at hread
            · next hslash =>
                subst hslash
                split at hread
                · next halpha =>
                    cases hread
                    cases xs with
                    | nil => simp at halpha
                    | cons y ys =>
                        obtain ⟨letters, body, hspell, hreads⟩ :=
                          exists_endTag hrest (by simpa using halpha)
                        exact ⟨.endTag letters body, rfl, hspell, hreads⟩
                · contradiction
            · split at hread
              · next halpha =>
                  cases hread
                  obtain ⟨t, body, hspell, hreads⟩ := exists_startTag hrest halpha
                  exact ⟨.startTag t body, rfl, hspell, hreads⟩
              · contradiction

/-! ## Templates -/

/-- A text can be read in two parts. -/
theorem textReads_append {rest xs ys : List Char} :
    TextReads rest (xs ++ ys) ↔ TextReads (ys ++ rest) xs ∧ TextReads rest ys := by
  induction xs with
  | nil => simp [TextReads]
  | cons x xs ih =>
      simp only [List.cons_append, TextReads, ih, List.append_assoc]
      exact and_assoc.symm

namespace Segment

/-- A text in front of segments, unless it is empty. -/
def withText (content : List Char) (ps : List Segment) : List Segment :=
  if content = [] then ps else text content :: ps

/-- Text in front of segments is spelled in front of them. -/
theorem spell_withText (content : List Char) (ps : List Segment) :
    spell (withText content ps) = content ++ spell ps := by
  rw [withText]
  split
  · next h => simp [h]
  · rfl

/-- Text in front of segments is read as it is written. -/
theorem readsAll_withText {content : List Char} {ps : List Segment}
    (hcontent : TextReads (spell ps) content) (hps : ReadsAll ps) :
    ReadsAll (withText content ps) := by
  rw [withText]
  split
  · exact hps
  · exact ⟨hcontent, hps⟩

/-- Text in front of segments that start with markup is a run of its own. -/
theorem runs_withText {content : List Char} {ps : List Segment}
    (hhead : ps.head?.all (!·.isText) = true) (hps : Runs ps) : Runs (withText content ps) := by
  rw [withText]
  split
  · exact hps
  · next h => exact ⟨fun _ => ⟨h, hhead⟩, hps⟩

/-- One more character of text. -/
theorem textReads_concat {pending xs : List Char} {x : Char} {c : Cursor} (hrest : c.rest = x :: xs)
    (hpending : TextReads c.rest pending) (hx : x = '<' → opensMarkup xs = false) :
    TextReads (c.skip 1).rest (pending ++ [x]) := by
  have hskip : (c.skip 1).rest = xs := by
    rw [Cursor.rest_skip, hrest]
    rfl
  rw [hskip, textReads_append]
  rw [hrest] at hpending
  exact ⟨hpending, hx, trivial⟩

/-- What is scanned with some text pending is more text, and then segments of which the first is not
text. -/
theorem exists_of_scanFrom (start : Nat) (pending : List Char) (c : Cursor)
    (h : TextReads c.rest pending) :
    ∃ content ps, c.rest = content ++ spell ps ∧ TextReads (spell ps) (pending ++ content) ∧
      ReadsAll ps ∧ Runs ps ∧ ps.head?.all (!·.isText) = true := by
  fun_induction scanFrom start pending c with
  | case1 start pending c hrest =>
      rw [hrest] at h
      exact ⟨[], [], by simpa using hrest, by simpa using h, trivial, trivial, rfl⟩
  | case2 start pending c xs event after hread hrest ih =>
      obtain ⟨p, hp, hspell, hreads⟩ := exists_segment hrest hread
      obtain ⟨content, ps, hafter, htext, hps, hruns, hhead⟩ := ih trivial
      rw [← spell_withText] at hafter
      rw [hafter] at hspell hreads
      refine ⟨[], p :: withText content ps, hspell, ?_, ⟨hreads, readsAll_withText htext hps⟩,
        ⟨by simp [hp], runs_withText hhead hruns⟩, by simp [hp]⟩
      rwa [List.append_nil, spell_cons, ← hspell]
  | case3 start pending c xs hnone hrest ih =>
      have hopens : opensMarkup xs = false := by
        have hc : c = ⟨c.offset, '<' :: xs⟩ := by rw [← hrest]
        rw [← isSome_readMarkup? c.offset xs, ← hc, hnone]
        rfl
      obtain ⟨content, ps, hskip, htext, hps⟩ := ih (textReads_concat hrest h fun _ => hopens)
      rw [List.append_assoc] at htext
      rw [Cursor.rest_skip, hrest, List.drop_one, List.tail_cons] at hskip
      exact ⟨'<' :: content, ps, by rw [hrest, hskip]; rfl, htext, hps⟩
  | case4 start pending c x xs hrest hx ih =>
      obtain ⟨content, ps, hskip, htext, hps⟩ :=
        ih (textReads_concat hrest h fun heq => absurd heq hx)
      rw [List.append_assoc] at htext
      rw [Cursor.rest_skip, hrest, List.drop_one, List.tail_cons] at hskip
      exact ⟨x :: content, ps, by rw [hrest, hskip]; rfl, htext, hps⟩

/-- **Every template is written in segments.** -/
theorem exists_spells (template : String) : ∃ ps, Spells ps template := by
  obtain ⟨content, ps, hspell, htext, hps, hruns, hhead⟩ :=
    exists_of_scanFrom 0 [] (.ofText template.toList) trivial
  refine ⟨withText content ps, ?_, readsAll_withText htext hps, runs_withText hhead hruns⟩
  rw [spell_withText, ← hspell]
  rfl

/-! ## What segments hold -/

/-- Segments that read are scanned in one way. -/
theorem scan_eq_eventsFrom {ps : List Segment} {template : String} (h : ReadsAll ps)
    (hspell : spell ps = template.toList) : scan template = eventsFrom 0 [] 0 ps := by
  rw [scan, Cursor.ofText, ← hspell, scanFrom_spell h]

/-- What a segment at an offset holds. -/
def items (offset : Nat) : Segment → List Item
  | text content => [.text ⟨String.ofList content, offset⟩]
  | startTag tag _ => [.tag (tag.located offset)]
  | comment _ | declaration _ _ | endTag _ _ => []

/-- What segments hold from an offset on. -/
def itemsFrom (offset : Nat) : List Segment → List Item
  | [] => []
  | p :: ps => p.items offset ++ itemsFrom (offset + byteCount p.render) ps

/-- Pending text is an event of its own if no text follows. -/
theorem eventsFrom_of_head {ps : List Segment} (h : ps.head?.all (!·.isText) = true)
    (start offset : Nat) (pending : List Char) :
    eventsFrom start pending offset ps =
      ofText start pending ++ eventsFrom offset [] offset ps := by
  cases ps with
  | nil => simp [eventsFrom, ofText]
  | cons p ps =>
      have hp : p.isText = false := by simpa using h
      simp [eventsFrom, hp, ofText]

/-- Whole runs of text are the texts of the events. -/
theorem items_eventsFrom {ps : List Segment} (h : Runs ps) (offset : Nat) :
    (eventsFrom offset [] offset ps).flatMap MarkupEvent.items = itemsFrom offset ps := by
  induction ps generalizing offset with
  | nil => rfl
  | cons p ps ih =>
      obtain ⟨hp, hps⟩ := h
      have hrest := ih hps (offset + byteCount p.render)
      rw [itemsFrom, ← hrest, eventsFrom]
      cases p with
      | text content =>
          obtain ⟨hcontent, hhead⟩ := hp rfl
          have hempty : content ≠ [] := hcontent
          rw [isText, if_pos rfl, eventsFrom_of_head hhead]
          simp [ofText, hempty, items, render, MarkupEvent.items]
      | _ => simp [isText, ofText, items, event?, MarkupEvent.items]

/-- The forest of a template holds what its segments hold, in order. -/
theorem Spells.contents_parse {ps : List Segment} {template : String} (h : Spells ps template) :
    Node.contents (Node.parse template) = itemsFrom 0 ps := by
  rw [Node.parse, Node.contents_ofEvents, scan_eq_eventsFrom h.reads h.spell_eq,
    items_eventsFrom h.runs]

/-- What a template holds is written in one of its segments. -/
theorem exists_of_mem_itemsFrom {ps : List Segment} {offset : Nat} {i : Item}
    (h : ReadsAll ps) (hi : i ∈ itemsFrom offset ps) :
    ∃ p ∈ ps, ∃ before rest, spell ps = before ++ p.render ++ rest ∧ p.Reads rest ∧
      i ∈ p.items (offset + byteCount before) := by
  induction ps generalizing offset with
  | nil => contradiction
  | cons p ps ih =>
      obtain hp | hmore := List.mem_append.mp hi
      · exact ⟨p, by simp, [], spell ps, by simp, h.1, by simpa using hp⟩
      · obtain ⟨q, hq, before, rest, hspell, hreads, hi⟩ := ih h.2 hmore
        refine ⟨q, by simp [hq], p.render ++ before, rest, by simp [hspell], hreads, ?_⟩
        rwa [byteCount_append, ← Nat.add_assoc]

end Segment

/-- A start tag of a template is written where it starts. -/
theorem exists_writtenTag_of_mem_contents {source : String} {tag : StartTag}
    (h : .tag tag ∈ Node.contents (Node.parse source)) :
    ∃ before, ∃ t : WrittenTag, ∃ rest, source.toList = before ++ (t.render ++ rest) ∧
      t.Reads rest ∧ tag = t.located (byteCount before) := by
  obtain ⟨ps, hps⟩ := Segment.exists_spells source
  rw [hps.contents_parse] at h
  obtain ⟨p, -, before, rest, hsource, hp, hi⟩ := Segment.exists_of_mem_itemsFrom hps.reads h
  cases p with
  | startTag t body =>
      have heq : tag = t.located (0 + byteCount before) := by simpa [Segment.items] using hi
      refine ⟨before, t, body ++ rest, ?_, hp.1, by simpa using heq⟩
      rw [← hps.spell_eq, hsource]
      simp [Segment.render]
  | text content => simp [Segment.items] at hi
  | comment body => simp [Segment.items] at hi
  | declaration mark body => simp [Segment.items] at hi
  | endTag letters body => simp [Segment.items] at hi

/-- The attributes whose names are not among those seen and have not come before. -/
def Attribute.firsts (seen : List String) : List Attribute → List Attribute
  | [] => []
  | a :: as =>
      if seen.contains a.name then firsts seen as else a :: firsts (seen ++ [a.name]) as

/-- Keeping the first attribute of each name, one by one. -/
theorem Attribute.foldl_keepFirst (as found : List Attribute) :
    as.foldl keepFirst found = found ++ firsts (found.map Attribute.name) as := by
  induction as generalizing found with
  | nil => simp [firsts]
  | cons a as ih =>
      have hmet : found.any (·.name == a.name) = (found.map Attribute.name).contains a.name := by
        rw [List.contains_eq_any_beq, List.any_map]
        congr 1
        funext b
        exact Bool.beq_comm
      rw [List.foldl_cons, keepFirst, hmet, firsts]
      split
      · exact ih found
      · rw [ih]
        simp

/-- A tag as it is read has the first attributes of each name among those written in it. -/
theorem WrittenTag.attributes_located (t : WrittenTag) (offset : Nat) :
    (t.located offset).attributes =
      Attribute.firsts []
        (TagPart.attributesFrom (offset + byteCount ('<' :: t.letters)) t.parts) :=
  Attribute.foldl_keepFirst _ []

end TemplateMigration
