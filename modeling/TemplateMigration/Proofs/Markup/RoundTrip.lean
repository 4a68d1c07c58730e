import TemplateMigration.Markup.Forest
import TemplateMigration.Proofs.Markup.Placement
import TemplateMigration.Proofs.Markup.Printer

/-!
# TemplateMigration.Proofs.Markup.RoundTrip

Printed forests are read back.

The readers are followed over a print with an arbitrary text after it: attributes
(`readAttribute_print`, `readAttributes_print`), tags (`readStartTag_print`, `readEndTag_print`),
and then nodes and forests (`scanFrom_node`, `scanFrom_forest`), by induction on the tree.  Text is
the one thing whose end is decided by what follows it (`BreaksText`).  The scan of a print gives
the events of the printed forest, and building a forest from its own events gives the forest back
(`ofEvents_events`).
-/

namespace TemplateMigration

/-! ## Cursors over a known text -/

namespace Cursor

/-- A cursor is moved over a part. -/
theorem skip_append (offset : Nat) (part rest : List Char) :
    (Cursor.mk offset (part ++ rest)).skip part.length = ⟨offset + byteCount part, rest⟩ := by
  simp [skip]

/-- Skipping stops behind a part whose characters satisfy the test if the next one does not. -/
theorem skipWhile_append {p : Char → Bool} (offset : Nat) {part rest : List Char}
    (hpart : ∀ c ∈ part, p c = true) (hrest : rest.takeWhile p = []) :
    (Cursor.mk offset (part ++ rest)).skipWhile p = ⟨offset + byteCount part, rest⟩ := by
  have htake : (part ++ rest).takeWhile p = part := by
    rw [List.takeWhile_append_of_pos hpart, hrest, List.append_nil]
  rw [skipWhile, htake, skip_append]

theorem skip_one (offset : Nat) (x : Char) (rest : List Char) :
    (Cursor.mk offset (x :: rest)).skip 1 = ⟨offset + x.utf8Size, rest⟩ := by
  simp [skip]

theorem skipWhile_cons_of_neg {p : Char → Bool} {x : Char} (offset : Nat) (rest : List Char)
    (hx : p x = false) :
    (Cursor.mk offset (x :: rest)).skipWhile p = ⟨offset, x :: rest⟩ := by
  simp [skipWhile, skip, hx]

end Cursor

/-- The first occurrence of a character is behind a part without it. -/
theorem indexOf?_append {x : Char} {part : List Char} (rest : List Char) (hx : x ∉ part) :
    indexOf? [x] (part ++ x :: rest) = some part.length := by
  induction part with
  | nil => simp [indexOf?, List.isPrefixOf]
  | cons c part ih =>
      simp only [List.mem_cons, not_or] at hx
      simp [indexOf?, List.isPrefixOf, hx.1, ih hx.2]

namespace MarkupEvent

/-- A text without upper case letters is its own lower case. -/
theorem lowerCase_toList {s : String} (h : ∀ c ∈ s.toList, c.isUpper = false) :
    lowerCase s.toList = s := by
  have hmap : s.toList.map Char.toLower = s.toList.map id := by
    apply List.map_congr_left
    intro c hc
    have hupper : ¬ (c.val ≥ 'A'.val ∧ c.val ≤ 'Z'.val) := of_decide_eq_false (h c hc)
    exact dif_neg hupper
  rw [lowerCase, hmap, List.map_id, String.ofList_toList]

/-! ## Attributes -/

variable {a : Attribute} {t : StartTag}

/-- A value between double quotes is read back. -/
theorem readValue_quoted (offset : Nat) {value : List Char} (rest : List Char)
    (h : '"' ∉ value) :
    readValue ⟨offset, '"' :: (value ++ '"' :: rest)⟩ =
      ⟨value, true, ⟨offset + byteCount ('"' :: (value ++ ['"'])), rest⟩⟩ := by
  have hskip : (Cursor.mk offset ('"' :: (value ++ '"' :: rest))).skip (value.length + 2) =
      ⟨offset + byteCount ('"' :: (value ++ ['"'])), rest⟩ := by
    simpa using Cursor.skip_append offset ('"' :: (value ++ ['"'])) rest
  simp [readValue, indexOf?_append rest h, hskip]

/-- The name of a printed attribute ends before the sign. -/
theorem nameLength_print (offset : Nat) (rest : List Char) (h : a.Printable) :
    nameLength ⟨offset, a.name.toList ++ '=' :: rest⟩ = a.name.toList.length := by
  cases hname : a.name.toList with
  | nil => exact absurd hname h.nonempty
  | cons c cs =>
      have hpart : ∀ x ∈ cs, isAttributeNamePart x = true := by
        intro x hx
        obtain ⟨hblank, hslash, hclose, hsign, -⟩ := h.name x (by simp [hname, hx])
        simp [isAttributeNamePart, hblank, hslash, hclose, hsign]
      have hsign : isAttributeNamePart '=' = false := rfl
      simp [nameLength, List.takeWhile_append_of_pos hpart, hsign]

/-- A printed attribute is read back, without the blank before it. -/
theorem readAttribute_print (offset : Nat) (rest : List Char) (h : a.Printable) :
    readAttribute ⟨offset + 1, a.print.tail ++ rest⟩ =
      (a.located offset, ⟨offset + byteCount a.print, rest⟩) := by
  have hprint : a.print.tail ++ rest =
      a.name.toList ++ '=' :: '"' :: (a.value.toList ++ '"' :: rest) := by
    simp [Attribute.print]
  have hname : lowerCase a.name.toList = a.name :=
    lowerCase_toList fun c hc => (h.name c hc).2.2.2.2
  have hskip := Cursor.skip_append (offset + 1) a.name.toList
    ('=' :: '"' :: (a.value.toList ++ '"' :: rest))
  have hvalue := readValue_quoted (offset + 1 + byteCount a.name.toList + '='.utf8Size) rest h.value
  have hblank : isTagBlank '=' = false := rfl
  have hblank' : isTagBlank '"' = false := rfl
  have hstop : offset + 1 + byteCount a.name.toList + '='.utf8Size +
      byteCount ('"' :: (a.value.toList ++ ['"'])) = offset + byteCount a.print := by
    have hsize : ' '.utf8Size = 1 := rfl
    simp [Attribute.print, hsize]
    omega
  simp only [readAttribute, hprint, nameLength_print _ _ h, List.take_left, hname, hskip,
    Cursor.skipWhile_cons_of_neg _ _ hblank, List.head?_cons, if_true, Cursor.skip_one,
    Cursor.skipWhile_cons_of_neg _ _ hblank', hvalue, String.ofList_toList, hstop]
  rfl

/-- The closing bracket ends a tag. -/
theorem readAttributes_close (found : List Attribute) (offset : Nat) (rest : List Char) :
    readAttributes found ⟨offset, '>' :: rest⟩ = ⟨found, false, ⟨offset + 1, rest⟩⟩ := by
  have hblank : isTagBlank '>' = false := rfl
  have hskip := Cursor.skipWhile_cons_of_neg offset rest hblank
  rw [readAttributes]
  split
  · next h => rw [hskip] at h; contradiction
  · next x xs h =>
      rw [hskip] at h
      obtain rfl : '>' = x := (List.cons.inj h).1
      rw [if_pos rfl, hskip, Cursor.skip_one]
      rfl

/-- One attribute whose name has not been met. -/
theorem readAttributes_print_append (found : List Attribute) (offset : Nat) (rest : List Char)
    (h : a.Printable) (hnew : a.name ∉ found.map Attribute.name) :
    readAttributes found ⟨offset, a.print ++ rest⟩ =
      readAttributes (found ++ [a.located offset]) ⟨offset + byteCount a.print, rest⟩ := by
  obtain ⟨c, cs, hname⟩ : ∃ c cs, a.name.toList = c :: cs := List.exists_cons_of_ne_nil h.nonempty
  obtain ⟨hblank, hslash, hclose, -, -⟩ := h.name c (by simp [hname])
  have hskip : (Cursor.mk offset (a.print ++ rest)).skipWhile isTagBlank =
      ⟨offset + 1, a.print.tail ++ rest⟩ := by
    have hone : ∀ x ∈ [' '], isTagBlank x = true := by simp [isTagBlank]
    have hnext : (a.print.tail ++ rest).takeWhile isTagBlank = [] := by
      simp [Attribute.print, hname, hblank]
    exact Cursor.skipWhile_append offset hone hnext
  have hunmet : (found.any fun b => b.name == (a.located offset).name) = false := by
    simpa [Attribute.located] using hnew
  rw [readAttributes]
  split
  · next hrest =>
      rw [hskip] at hrest
      simp [Attribute.print, hname] at hrest
  · next x xs hrest =>
      rw [hskip] at hrest
      obtain rfl : c = x := by
        simp only [Attribute.print, hname, List.tail_cons, List.cons_append] at hrest
        exact (List.cons.inj hrest).1
      rw [if_neg hclose, if_neg hslash]
      simp only [hskip, readAttribute_print offset rest h, hunmet, Bool.false_eq_true, if_false]

/-- Printed attributes are read back, with their offsets. -/
theorem readAttributes_print (as found : List Attribute) (offset : Nat) (rest : List Char)
    (h : ∀ a ∈ as, a.Printable) (hnew : ((found ++ as).map Attribute.name).Nodup) :
    readAttributes found ⟨offset, as.flatMap Attribute.print ++ '>' :: rest⟩ =
      ⟨found ++ Attribute.locatedFrom offset as, false,
        ⟨offset + byteCount (as.flatMap Attribute.print) + 1, rest⟩⟩ := by
  induction as generalizing found offset with
  | nil => simp [readAttributes_close, Attribute.locatedFrom]
  | cons a as ih =>
      have hunmet : a.name ∉ found.map Attribute.name := by
        rw [List.map_append, List.nodup_append] at hnew
        intro hmem
        exact hnew.2.2 a.name hmem a.name (by simp) rfl
      have hlocated : ((found ++ [a.located offset] ++ as).map Attribute.name).Nodup := by
        simpa [Attribute.located] using hnew
      rw [List.flatMap_cons, List.append_assoc,
        readAttributes_print_append _ _ _ (h a (by simp)) hunmet,
        ih _ _ (fun b hb => h b (by simp [hb])) hlocated]
      simp [Attribute.locatedFrom, Nat.add_assoc]

/-! ## Tags -/

/-- The name of a printed tag ends where no part of a name follows. -/
theorem takeWhile_tagName {rest : List Char} (h : t.Printable)
    (hrest : rest.takeWhile isTagNamePart = []) :
    (t.name.toList ++ rest).takeWhile isTagNamePart = t.name.toList := by
  have hpart : ∀ x ∈ t.name.toList, isTagNamePart x = true := by
    intro x hx
    obtain ⟨hblank, hclose, hslash, -⟩ := h.name x hx
    simp [isTagNamePart, hblank, hclose, hslash]
  rw [List.takeWhile_append_of_pos hpart, hrest, List.append_nil]

theorem lowerCase_tagName (h : t.Printable) : lowerCase t.name.toList = t.name :=
  lowerCase_toList fun c hc => (h.name c hc).2.2.2

/-- A printed start tag is read back, with its offsets. -/
theorem readStartTag_print (offset : Nat) (rest : List Char) (h : t.Printable) :
    readStartTag ⟨offset, t.print ++ rest⟩ =
      (.start (t.located offset) (isVoidElement t.name), ⟨offset + byteCount t.print, rest⟩) := by
  have hbracket : '<'.utf8Size = 1 := rfl
  have hletters : ((t.print ++ rest).drop 1).takeWhile isTagNamePart = t.name.toList := by
    have hnext : (t.attributes.flatMap Attribute.print ++ '>' :: rest).takeWhile isTagNamePart =
        [] := by
      cases t.attributes <;> simp [Attribute.print, isTagNamePart, isTagBlank]
    simpa [StartTag.print] using takeWhile_tagName h hnext
  have hskip : (Cursor.mk offset (t.print ++ rest)).skip (t.name.toList.length + 1) =
      ⟨offset + 1 + byteLength t.name, t.attributes.flatMap Attribute.print ++ '>' :: rest⟩ := by
    simpa [StartTag.print, byteLength, hbracket, Nat.add_assoc] using
      Cursor.skip_append offset ('<' :: t.name.toList)
        (t.attributes.flatMap Attribute.print ++ '>' :: rest)
  have hattributes := readAttributes_print t.attributes [] (offset + 1 + byteLength t.name) rest
    h.attributes (by simpa using h.distinct)
  have hstop : offset + 1 + byteLength t.name + byteCount (t.attributes.flatMap Attribute.print) +
      1 = offset + byteCount t.print := by
    have hclose : '>'.utf8Size = 1 := rfl
    simp [StartTag.print, byteLength, hbracket, hclose]
    omega
  simp only [readStartTag, hletters, lowerCase_tagName h, hskip, hattributes, hstop, h.notRawText]
  simp [StartTag.located]

/-- A printed end tag is read back. -/
theorem readEndTag_print (offset : Nat) (rest : List Char) (h : t.Printable) :
    readEndTag ⟨offset, t.printEnd ++ rest⟩ =
      (.stop t.name, ⟨offset + byteCount t.printEnd, rest⟩) := by
  have hletters : ((t.printEnd ++ rest).drop 2).takeWhile isTagNamePart = t.name.toList := by
    have hnext : ('>' :: rest).takeWhile isTagNamePart = [] := by simp [isTagNamePart]
    simpa [StartTag.printEnd] using takeWhile_tagName h hnext
  have hskip : (Cursor.mk offset (t.printEnd ++ rest)).skip (t.name.toList.length + 2) =
      ⟨offset + byteCount ('<' :: '/' :: t.name.toList), '>' :: rest⟩ := by
    simpa [StartTag.printEnd] using
      Cursor.skip_append offset ('<' :: '/' :: t.name.toList) ('>' :: rest)
  have hpast : ∀ o, (Cursor.mk o ('>' :: rest)).skipPast ['>'] = ⟨o + '>'.utf8Size, rest⟩ := by
    intro o
    simp [Cursor.skipPast, indexOf?, List.isPrefixOf, Cursor.skip_one]
  simp only [readEndTag, hletters, lowerCase_tagName h, hskip, hpast]
  simp [StartTag.printEnd, Nat.add_assoc]

/-! ## Text and what ends it -/

/-- What ends a run of text: the end of the source, a start tag or an end tag. -/
inductive BreaksText : List Char → Prop where
  | nil : BreaksText []
  | startTag {c : Char} (rest : List Char) (hc : c.isAlpha = true) : BreaksText ('<' :: c :: rest)
  | endTag {c : Char} (rest : List Char) (hc : c.isAlpha = true) :
      BreaksText ('<' :: '/' :: c :: rest)

/-- A letter is none of the characters that make something else of a `<`. -/
theorem ne_of_isAlpha {c : Char} (h : c.isAlpha = true) : c ≠ '!' ∧ c ≠ '?' ∧ c ≠ '/' := by
  refine ⟨?_, ?_, ?_⟩ <;> (rintro rfl; contradiction)

/-- A `<` before a letter starts a start tag. -/
theorem readMarkup?_startTag {c : Char} (offset : Nat) (rest : List Char)
    (hc : c.isAlpha = true) :
    readMarkup? ⟨offset, '<' :: c :: rest⟩ =
      some (some (readStartTag ⟨offset, '<' :: c :: rest⟩).1,
        (readStartTag ⟨offset, '<' :: c :: rest⟩).2) := by
  obtain ⟨hbang, hquestion, hslash⟩ := ne_of_isAlpha hc
  simp [readMarkup?, hbang, hquestion, hslash, hc]

/-- A `</` before a letter starts an end tag. -/
theorem readMarkup?_endTag {c : Char} (offset : Nat) (rest : List Char) (hc : c.isAlpha = true) :
    readMarkup? ⟨offset, '<' :: '/' :: c :: rest⟩ =
      some (some (readEndTag ⟨offset, '<' :: '/' :: c :: rest⟩).1,
        (readEndTag ⟨offset, '<' :: '/' :: c :: rest⟩).2) := by
  simp [readMarkup?, hc]

/-- Markup ends the pending text, and the scan goes on behind it. -/
theorem scanFrom_of_readMarkup? {start offset : Nat} {pending rest : List Char}
    {event : Option MarkupEvent} {after : Cursor}
    (h : readMarkup? ⟨offset, '<' :: rest⟩ = some (event, after)) :
    scanFrom start pending ⟨offset, '<' :: rest⟩ =
      ofText start pending ++ event.toList ++ scanFrom after.offset [] after := by
  rw [scanFrom]
  simp only [if_true]
  split
  · next event' after' hread =>
      rw [h] at hread
      cases hread
      rfl
  · next hread =>
      rw [h] at hread
      contradiction

/-- A `<` that starts nothing is text. -/
theorem scanFrom_of_readMarkup?_eq_none {start offset : Nat} {pending rest : List Char}
    (h : readMarkup? ⟨offset, '<' :: rest⟩ = none) :
    scanFrom start pending ⟨offset, '<' :: rest⟩ =
      scanFrom start (pending ++ ['<']) ⟨offset + '<'.utf8Size, rest⟩ := by
  rw [scanFrom]
  simp only [if_true]
  split
  · next event after hread =>
      rw [h] at hread
      contradiction
  · rw [Cursor.skip_one]

/-- Text that is pending where a run of text ends becomes an event of its own. -/
theorem scanFrom_of_breaksText {rest : List Char} (h : BreaksText rest) (start offset : Nat)
    (pending : List Char) :
    scanFrom start pending ⟨offset, rest⟩ =
      ofText start pending ++ scanFrom offset [] ⟨offset, rest⟩ := by
  cases h with
  | nil => simp [scanFrom, ofText]
  | startTag rest hc =>
      have hread := readMarkup?_startTag offset rest hc
      rw [scanFrom_of_readMarkup? hread, scanFrom_of_readMarkup? hread]
      simp [ofText]
  | endTag rest hc =>
      have hread := readMarkup?_endTag offset rest hc
      rw [scanFrom_of_readMarkup? hread, scanFrom_of_readMarkup? hread]
      simp [ofText]

/-- Any other character joins the pending text. -/
theorem scanFrom_cons_of_ne {x : Char} (hx : x ≠ '<') (start offset : Nat)
    (pending rest : List Char) :
    scanFrom start pending ⟨offset, x :: rest⟩ =
      scanFrom start (pending ++ [x]) ⟨offset + x.utf8Size, rest⟩ := by
  rw [scanFrom]
  simp [hx, Cursor.skip_one]

/-- Characters that are no `<` are text. -/
theorem scanFrom_append {content : List Char} (h : '<' ∉ content) (start offset : Nat)
    (pending rest : List Char) :
    scanFrom start pending ⟨offset, content ++ rest⟩ =
      scanFrom start (pending ++ content) ⟨offset + byteCount content, rest⟩ := by
  induction content generalizing offset pending with
  | nil => simp
  | cons x content ih =>
      simp only [List.mem_cons, not_or] at h
      rw [List.cons_append, scanFrom_cons_of_ne (Ne.symm h.1), ih h.2]
      simp [Nat.add_assoc]

end MarkupEvent

/-! ## Events of a forest -/

namespace Node

mutual

/-- The events of a node: a void element has no end tag. -/
def nodeEvents : Node → List MarkupEvent
  | text run => [.text run]
  | element tag children =>
      .start tag (isVoidElement tag.name) ::
        if isVoidElement tag.name then [] else events children ++ [.stop tag.name]

/-- The events of a forest. -/
def events : List Node → List MarkupEvent
  | [] => []
  | n :: ns => n.nodeEvents ++ events ns

end

end Node

namespace MarkupEvent

variable {t : StartTag}

/-- A name starts with a letter. -/
theorem exists_name_eq_cons (h : t.Printable) :
    ∃ c cs, t.name.toList = c :: cs ∧ c.isAlpha = true := by
  have hhead := h.head
  cases hname : t.name.toList with
  | nil => simp [hname] at hhead
  | cons c cs =>
      have hlower : c.isLower = true := by simpa [hname] using hhead
      exact ⟨c, cs, rfl, (Bool.or_eq_true _ _).mpr (.inr hlower)⟩

/-- A printed start tag ends a text. -/
theorem breaksText_print (h : t.Printable) (rest : List Char) : BreaksText (t.print ++ rest) := by
  obtain ⟨c, cs, hname, hc⟩ := exists_name_eq_cons h
  simpa [StartTag.print, hname] using
    BreaksText.startTag (cs ++ (t.attributes.flatMap Attribute.print ++ '>' :: rest)) hc

/-- A printed end tag ends a text. -/
theorem breaksText_printEnd (h : t.Printable) (rest : List Char) :
    BreaksText (t.printEnd ++ rest) := by
  obtain ⟨c, cs, hname, hc⟩ := exists_name_eq_cons h
  simpa [StartTag.printEnd, hname] using BreaksText.endTag (cs ++ '>' :: rest) hc

/-- A printed start tag is one event. -/
theorem scanFrom_print (h : t.Printable) (offset : Nat) (rest : List Char) :
    scanFrom offset [] ⟨offset, t.print ++ rest⟩ =
      .start (t.located offset) (isVoidElement t.name) ::
        scanFrom (offset + byteCount t.print) [] ⟨offset + byteCount t.print, rest⟩ := by
  obtain ⟨c, cs, hname, hc⟩ := exists_name_eq_cons h
  have hprint : t.print ++ rest =
      '<' :: c :: (cs ++ (t.attributes.flatMap Attribute.print ++ '>' :: rest)) := by
    simp [StartTag.print, hname]
  have hread := readMarkup?_startTag offset
    (cs ++ (t.attributes.flatMap Attribute.print ++ '>' :: rest)) hc
  rw [hprint, scanFrom_of_readMarkup? hread, ← hprint, readStartTag_print offset rest h]
  simp [ofText]

/-- A printed end tag is one event. -/
theorem scanFrom_printEnd (h : t.Printable) (offset : Nat) (rest : List Char) :
    scanFrom offset [] ⟨offset, t.printEnd ++ rest⟩ =
      .stop t.name ::
        scanFrom (offset + byteCount t.printEnd) [] ⟨offset + byteCount t.printEnd, rest⟩ := by
  obtain ⟨c, cs, hname, hc⟩ := exists_name_eq_cons h
  have hprint : t.printEnd ++ rest = '<' :: '/' :: c :: (cs ++ '>' :: rest) := by
    simp [StartTag.printEnd, hname]
  have hread := readMarkup?_endTag offset (cs ++ '>' :: rest) hc
  rw [hprint, scanFrom_of_readMarkup? hread, ← hprint, readEndTag_print offset rest h]
  simp [ofText]

/-- Where one node of a printable forest ends, a run of text ends. -/
theorem breaksText_of_head {ns : List Node} {rest : List Char} (h : Node.Printable ns)
    (hhead : ∀ m ∈ ns.head?, m.isText = false) (hrest : BreaksText rest) :
    BreaksText (Node.print ns ++ rest) := by
  cases ns with
  | nil => simpa [Node.print] using hrest
  | cons m ns =>
      cases m with
      | text run => simp [Node.isText] at hhead
      | element tag children =>
          have htag : tag.Printable := by
            rw [Node.Printable, Node.PrintableNode] at h
            exact h.1.1
          simpa [Node.print, Node.printNode] using breaksText_print htag _

mutual

/-- A printed node is scanned into its events, whatever follows; a run of text has to be ended. -/
theorem scanFrom_node (n : Node) (h : n.PrintableNode) (offset : Nat) (rest : List Char)
    (hrest : n.isText = true → BreaksText rest) :
    scanFrom offset [] ⟨offset, n.printNode ++ rest⟩ =
      (n.locatedNode offset).nodeEvents ++
        scanFrom (offset + byteCount n.printNode) [] ⟨offset + byteCount n.printNode, rest⟩ := by
  cases n with
  | text run =>
      rw [Node.PrintableNode] at h
      have hempty : run.content.toList.isEmpty = false := by simpa using h.1
      rw [Node.printNode, Node.locatedNode, Node.nodeEvents, scanFrom_append h.2,
        scanFrom_of_breaksText (hrest rfl), List.nil_append, ofText, hempty]
      simp
  | element tag children =>
      rw [Node.PrintableNode] at h
      obtain ⟨htag, hvoid, hchildren⟩ := h
      cases hname : isVoidElement tag.name with
      | true =>
          simp [Node.printNode, Node.locatedNode, Node.nodeEvents, hname, scanFrom_print htag,
            StartTag.located]
      | false =>
          have hbody := scanFrom_forest children hchildren (offset + byteCount tag.print)
            (tag.printEnd ++ rest) (breaksText_printEnd htag rest)
          simp [Node.printNode, Node.locatedNode, Node.nodeEvents, hname, scanFrom_print htag,
            hbody, scanFrom_printEnd htag, StartTag.located, Nat.add_assoc]

/-- A printed forest is scanned into its events. -/
theorem scanFrom_forest (ns : List Node) (h : Node.Printable ns) (offset : Nat)
    (rest : List Char) (hrest : BreaksText rest) :
    scanFrom offset [] ⟨offset, Node.print ns ++ rest⟩ =
      Node.events (Node.located offset ns) ++
        scanFrom (offset + byteCount (Node.print ns)) []
          ⟨offset + byteCount (Node.print ns), rest⟩ := by
  cases ns with
  | nil => simp [Node.print, Node.located, Node.events]
  | cons n ns =>
      rw [Node.Printable] at h
      obtain ⟨hn, hnext, hns⟩ := h
      have hbreak := fun htext => breaksText_of_head hns (hnext htext) hrest
      rw [Node.print, List.append_assoc, scanFrom_node n hn offset _ hbreak,
        scanFrom_forest ns hns _ rest hrest]
      simp [Node.located, Node.events, Nat.add_assoc]

end

/-- The events of a printed forest are those of the forest at the offsets of the print. -/
theorem scan_print {forest : List Node} (h : Node.Printable forest) :
    scan (String.ofList (Node.print forest)) = Node.events (Node.located 0 forest) := by
  have hend : ∀ offset, scanFrom offset [] ⟨offset, []⟩ = [] := by
    intro offset
    rw [scanFrom]
    rfl
  have hscan := scanFrom_forest forest h 0 [] .nil
  rw [hend, List.append_nil, List.append_nil] at hscan
  rw [scan, String.toList_ofList, Cursor.ofText, hscan]

end MarkupEvent

/-! ## Building a forest from its events -/

namespace ForestBuilder

/-- Nodes added inside an open element become its children. -/
theorem foldl_add_cons (ns : List Node) (roots children : List Node) (tag : StartTag)
    (opened : List OpenElement) :
    ns.foldl add ⟨roots, ⟨tag, children⟩ :: opened⟩ =
      ⟨roots, ⟨tag, children ++ ns⟩ :: opened⟩ := by
  induction ns generalizing children with
  | nil => simp
  | cons n ns ih => simp [add, ih]

/-- Nodes that are added outside all elements become roots. -/
theorem foldl_add_empty (ns : List Node) (roots : List Node) :
    ns.foldl add ⟨roots, []⟩ = ⟨roots ++ ns, []⟩ := by
  induction ns generalizing roots with
  | nil => simp
  | cons n ns ih => simp [add, ih]

/-- The end tag of the innermost open element closes that element alone. -/
theorem step_stop_cons (roots children : List Node) (tag : StartTag) (opened : List OpenElement) :
    step ⟨roots, ⟨tag, children⟩ :: opened⟩ (.stop tag.name) =
      add ⟨roots, opened⟩ (.element tag children) := by
  simp [step, List.findIdx?_cons, closeMany, close]

end ForestBuilder

namespace Node

mutual

/-- Void elements have no children. -/
def VoidsEmptyNode : Node → Prop
  | text _ => True
  | element tag children => (isVoidElement tag.name → children.isEmpty) ∧ VoidsEmpty children

/-- No void element of a forest has children. -/
def VoidsEmpty : List Node → Prop
  | [] => True
  | n :: ns => n.VoidsEmptyNode ∧ VoidsEmpty ns

end

mutual

/-- The events of a node add the node. -/
theorem foldl_step_nodeEvents (n : Node) (h : n.VoidsEmptyNode) (b : ForestBuilder) :
    n.nodeEvents.foldl ForestBuilder.step b = b.add n := by
  cases n with
  | text run => simp [nodeEvents, ForestBuilder.step]
  | element tag children =>
      rw [VoidsEmptyNode] at h
      cases hname : isVoidElement tag.name with
      | true =>
          obtain rfl : children = [] := by simpa using h.1 hname
          simp [nodeEvents, hname, ForestBuilder.step]
      | false =>
          have hbody := foldl_step_events children h.2 ⟨b.roots, ⟨tag, []⟩ :: b.opened⟩
          rw [ForestBuilder.foldl_add_cons, List.nil_append] at hbody
          rw [nodeEvents, hname, List.foldl_cons, ForestBuilder.step]
          simp only [Bool.false_eq_true, if_false, List.foldl_append, List.foldl_cons,
            List.foldl_nil, hbody, ForestBuilder.step_stop_cons]

/-- The events of a forest add its nodes, one by one. -/
theorem foldl_step_events (ns : List Node) (h : VoidsEmpty ns) (b : ForestBuilder) :
    (events ns).foldl ForestBuilder.step b = ns.foldl ForestBuilder.add b := by
  cases ns with
  | nil => simp [events]
  | cons n ns =>
      rw [VoidsEmpty] at h
      rw [events, List.foldl_append, foldl_step_nodeEvents n h.1, foldl_step_events ns h.2,
        List.foldl_cons]

end

/-- A forest is built back from its events. -/
theorem ofEvents_events {forest : List Node} (h : VoidsEmpty forest) :
    ofEvents (events forest) = forest := by
  rw [ofEvents, foldl_step_events forest h, ForestBuilder.empty, ForestBuilder.foldl_add_empty,
    ForestBuilder.finish]
  rfl

mutual

/-- Printing moves nothing into a void element. -/
theorem voidsEmpty_locatedNode (n : Node) (h : n.PrintableNode) (offset : Nat) :
    (n.locatedNode offset).VoidsEmptyNode := by
  cases n with
  | text run => simp [locatedNode, VoidsEmptyNode]
  | element tag children =>
      rw [PrintableNode] at h
      rw [locatedNode, VoidsEmptyNode]
      refine ⟨fun hvoid => ?_, voidsEmpty_located children h.2.2 _⟩
      obtain rfl : children = [] := by simpa using h.2.1 hvoid
      simp [located]

theorem voidsEmpty_located (ns : List Node) (h : Printable ns) (offset : Nat) :
    VoidsEmpty (located offset ns) := by
  cases ns with
  | nil => simp [located, VoidsEmpty]
  | cons n ns =>
      rw [Printable] at h
      rw [located, VoidsEmpty]
      exact ⟨voidsEmpty_locatedNode n h.1 _, voidsEmpty_located ns h.2.2 _⟩

end

/-- **Printed forests are read back.**  The forest of the print of a printable forest is that
forest, with every offset where its part stands in the print. -/
theorem parse_print {forest : List Node} (h : Printable forest) :
    parse (String.ofList (print forest)) = located 0 forest := by
  rw [parse, MarkupEvent.scan_print h, ofEvents_events (voidsEmpty_located forest h 0)]

/-- An element inside another of its name, a void element, a value with a bracket and characters of
several bytes; the offsets to start with are of no account. -/
theorem parse_print_nested :
    Printable [text ⟨"é", 0⟩, element ⟨"p", 0, [⟨"*ü", "x>y", 0, 0, false⟩, ⟨"b", "", 0, 0, false⟩]⟩
        [element ⟨"p", 0, []⟩ [], element ⟨"br", 0, []⟩ [], text ⟨"t", 0⟩]] ∧
      parse "é<p *ü=\"x>y\" b=\"\"><p></p><br>t</p>" =
        [text ⟨"é", 0⟩, element ⟨"p", 2, [⟨"*ü", "x>y", 5, 14, true⟩, ⟨"b", "", 15, 19, true⟩]⟩
          [element ⟨"p", 20, []⟩ [], element ⟨"br", 27, []⟩ [], text ⟨"t", 31⟩]] := by
  have h : Printable [text ⟨"é", 0⟩,
      element ⟨"p", 0, [⟨"*ü", "x>y", 0, 0, false⟩, ⟨"b", "", 0, 0, false⟩]⟩
        [element ⟨"p", 0, []⟩ [], element ⟨"br", 0, []⟩ [], text ⟨"t", 0⟩]] := by
    simp only [Printable, PrintableNode]
    decide
  refine ⟨h, ?_⟩
  calc parse "é<p *ü=\"x>y\" b=\"\"><p></p><br>t</p>"
      = parse (String.ofList (print _)) := by congr 1
    _ = located 0 _ := parse_print h
    _ = _ := by rfl

end Node

end TemplateMigration
