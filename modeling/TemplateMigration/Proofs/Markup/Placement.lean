import TemplateMigration.Markup.Event
import TemplateMigration.Proofs.Text.Boundary

/-!
# TemplateMigration.Proofs.Markup.Placement

Where the events of a template stand in it.  A cursor that stands in a text (`Cursor.StandsIn`)
keeps standing in it, so whatever a reader takes is a part of the text at the offset it reports.
The layered statements are

* `Attribute.Placed` for one attribute: its name and its value stand in the text, in this order;
* `AttributesIn` for the attributes of one tag, from left to right without overlap;
* `StartTag.Placed` and `TextRun.Placed` for what an event carries;
* `EventsIn` for a whole template: `eventsIn_scan`.
-/

namespace TemplateMigration

/-! ## Cursors -/

namespace Cursor

/-- A cursor stands in a text when what precedes it takes as many bytes as its offset says. -/
def StandsIn (text : List Char) (c : Cursor) : Prop :=
  ∃ before, text = before ++ c.rest ∧ byteCount before = c.offset

variable {text : List Char} {c : Cursor}

/-- A cursor at the start stands in the text. -/
theorem standsIn_ofText (text : List Char) : (ofText text).StandsIn text := ⟨[], rfl, rfl⟩

theorem offset_le_offset_skip (n : Nat) (c : Cursor) : c.offset ≤ (c.skip n).offset :=
  Nat.le_add_right _ _

theorem offset_le_offset_skipWhile (p : Char → Bool) (c : Cursor) :
    c.offset ≤ (c.skipWhile p).offset :=
  offset_le_offset_skip _ c

theorem offset_le_offset_skipPast (word : List Char) (c : Cursor) :
    c.offset ≤ (c.skipPast word).offset := by
  unfold skipPast
  split
  · exact offset_le_offset_skip _ c
  · exact offset_le_offset_skip _ c

namespace StandsIn

/-- A step leads to a place in the same text. -/
theorem skip (h : c.StandsIn text) (n : Nat) : (c.skip n).StandsIn text := by
  obtain ⟨before, htext, hoffset⟩ := h
  refine ⟨before ++ c.rest.take n, ?_, ?_⟩
  · rw [htext, Cursor.skip, List.append_assoc, List.take_append_drop]
  · rw [byteCount_append, hoffset]
    rfl

theorem skipAll (h : c.StandsIn text) : c.skipAll.StandsIn text := h.skip _

theorem skipWhile (h : c.StandsIn text) (p : Char → Bool) : (c.skipWhile p).StandsIn text :=
  h.skip _

/-- So does the way past a word. -/
theorem skipPast (h : c.StandsIn text) (word : List Char) : (c.skipPast word).StandsIn text := by
  unfold Cursor.skipPast
  split
  · exact h.skip _
  · exact h.skipAll

/-- What follows a cursor is the part of the text at its offset. -/
theorem occursAt_of_append (h : c.StandsIn text) {part after : List Char}
    (hrest : c.rest = part ++ after) : OccursAt text c.offset part := by
  obtain ⟨before, htext, hoffset⟩ := h
  exact ⟨before, after, by rw [htext, hrest, List.append_assoc], hoffset⟩

/-- What is in front of a cursor stands in the text at its offset. -/
theorem occursAt_take (h : c.StandsIn text) (n : Nat) : OccursAt text c.offset (c.rest.take n) :=
  h.occursAt_of_append (List.take_append_drop n c.rest).symm

/-- Cursors stand at boundaries. -/
theorem isBoundary (h : c.StandsIn text) : IsBoundary text c.offset :=
  (h.occursAt_take 0).isBoundary_start

theorem offset_le (h : c.StandsIn text) : c.offset ≤ byteCount text := h.isBoundary.le

end StandsIn

/-- A step over a part takes as many bytes as the part has. -/
theorem offset_skip_length_append {part after : List Char} (hrest : c.rest = part ++ after) :
    (c.skip part.length).offset = c.offset + byteCount part := by
  rw [skip, hrest, List.take_left]

/-- A step that is not empty leads on. -/
theorem offset_lt_offset_skip {n : Nat} (hn : 0 < n) (hrest : c.rest ≠ []) :
    c.offset < (c.skip n).offset := by
  cases hcs : c.rest with
  | nil => exact absurd hcs hrest
  | cons x xs =>
      obtain ⟨k, rfl⟩ : ∃ k, n = k + 1 := ⟨n - 1, by omega⟩
      have hpos : 0 < x.utf8Size := x.utf8Size_pos
      rw [skip, hcs, List.take_succ_cons, byteCount_cons]
      show c.offset < c.offset + (x.utf8Size + byteCount (xs.take k))
      omega

/-- What is left after the characters of a class. -/
theorem rest_skipWhile (p : Char → Bool) (c : Cursor) :
    (c.skipWhile p).rest = c.rest.dropWhile p := by
  have hsplit : c.rest = c.rest.takeWhile p ++ c.rest.dropWhile p :=
    List.takeWhile_append_dropWhile.symm
  calc (c.skipWhile p).rest
      = (c.rest.takeWhile p ++ c.rest.dropWhile p).drop (c.rest.takeWhile p).length :=
        congrArg (List.drop _) hsplit
    _ = c.rest.dropWhile p := List.drop_left

/-- A step over a character leads on. -/
theorem offset_lt_offset_skipWhile {p : Char → Bool} {x : Char} {xs : List Char}
    (hrest : c.rest = x :: xs) (hx : p x = true) : c.offset < (c.skipWhile p).offset := by
  apply offset_lt_offset_skip
  · rw [hrest, List.takeWhile_cons_of_pos hx]
    exact Nat.succ_pos _
  · rw [hrest]
    exact List.cons_ne_nil x xs

end Cursor

/-! ## Attributes -/

/-- Only ASCII letters change in lower case, and they stay ASCII. -/
theorem utf8Size_toLower (c : Char) : c.toLower.utf8Size = c.utf8Size := by
  unfold Char.toLower
  split
  · next h =>
      have hle : c.val.toNat ≤ 90 := h.2
      have hlower : (c.val + ('a'.val - 'A'.val)).toNat = c.val.toNat + 32 := by
        rw [UInt32.toNat_add]
        exact Nat.mod_eq_of_lt (Nat.add_lt_add_right (Nat.lt_of_le_of_lt hle (by decide)) 32)
      have hsize : ∀ d : Char, d.val.toNat ≤ 122 → d.utf8Size = 1 := by
        intro d hd
        exact if_pos (Nat.le_trans hd (by decide))
      rw [hsize c (by omega), hsize _ (by rw [hlower]; omega)]
  · rfl

/-- Lower case takes as many bytes, since only ASCII letters change. -/
@[simp] theorem byteLength_lowerCase (cs : List Char) :
    byteLength (MarkupEvent.lowerCase cs) = byteCount cs := by
  rw [MarkupEvent.lowerCase, byteLength_ofList]
  induction cs with
  | nil => rfl
  | cons c cs ih => rw [List.map_cons, byteCount_cons, byteCount_cons, utf8Size_toLower, ih]

/-- A word is found where it stands. -/
theorem eq_append_of_indexOf? {word cs : List Char} {n : Nat} (h : indexOf? word cs = some n) :
    ∃ before after, cs = before ++ word ++ after ∧ before.length = n := by
  induction cs generalizing n with
  | nil =>
      rw [indexOf?] at h
      split at h
      · next hempty =>
          rw [List.isEmpty_iff] at hempty
          exact ⟨[], [], by simp [hempty], Option.some.inj h⟩
      · contradiction
  | cons c cs ih =>
      rw [indexOf?] at h
      split at h
      · next hword =>
          obtain ⟨after, hafter⟩ := List.isPrefixOf_iff_prefix.mp hword
          exact ⟨[], after, by simpa using hafter.symm, Option.some.inj h⟩
      · obtain ⟨k, hk, rfl⟩ := Option.map_eq_some_iff.mp h
        obtain ⟨before, after, rfl, rfl⟩ := ih hk
        exact ⟨c :: before, after, by simp, by simp⟩

/-- The count back from the end of an attribute comes to an end exactly if the value and its closing
quote fit in front of it. -/
theorem Attribute.valueStart_add_eq_stop_iff {a : Attribute} :
    a.valueStart + byteLength a.value + (if a.quoted then 1 else 0) = a.stop ↔
      byteLength a.value + (if a.quoted then 1 else 0) ≤ a.stop := by
  rw [valueStart]
  cases a.quoted with
  | false =>
      simp only [Bool.false_eq_true, if_false]
      omega
  | true =>
      simp only [if_true]
      omega

/-- Counting back from the end of an attribute finds its value. -/
theorem Attribute.valueStart_eq {a : Attribute} {start : Nat}
    (h : start + byteLength a.value + (if a.quoted then 1 else 0) = a.stop) :
    a.valueStart = start := by
  have hcount := valueStart_add_eq_stop_iff.mpr
    (by omega : byteLength a.value + (if a.quoted then 1 else 0) ≤ a.stop)
  omega

/-- The name and the value of an attribute stand in a text, in this order, and the attribute stops
after its value and the closing quote. -/
structure Attribute.Placed (text : List Char) (a : Attribute) : Prop where
  name : ∃ letters, letters ≠ [] ∧ a.name = MarkupEvent.lowerCase letters ∧
    OccursAt text a.start letters
  value : OccursAt text a.valueStart a.value.toList
  name_le : a.start + byteLength a.name ≤ a.valueStart
  stop_eq : a.valueStart + byteLength a.value + (if a.quoted then 1 else 0) = a.stop
  stop_boundary : IsBoundary text a.stop

/-- An attribute does not end before it starts. -/
theorem Attribute.Placed.start_le_stop {text : List Char} {a : Attribute} (h : a.Placed text) :
    a.start ≤ a.stop := by
  have hname := h.name_le
  have hvalue := h.stop_eq
  omega

namespace MarkupEvent

variable {text : List Char} {c : Cursor}

/-- A value is read where it stands, at or after the cursor. -/
theorem occursAt_readValue (h : c.StandsIn text) :
    (readValue c).after.StandsIn text ∧
      ∃ start, c.offset ≤ start ∧ OccursAt text start (readValue c).value ∧
        start + byteCount (readValue c).value + (if (readValue c).quoted then 1 else 0) =
          (readValue c).after.offset := by
  have hbare : (readBareValue c).after.StandsIn text ∧
      ∃ start, c.offset ≤ start ∧ OccursAt text start (readBareValue c).value ∧
        start + byteCount (readBareValue c).value +
          (if (readBareValue c).quoted then 1 else 0) = (readBareValue c).after.offset := by
    have hsplit : c.rest = c.rest.takeWhile isBareValuePart ++ c.rest.dropWhile isBareValuePart :=
      List.takeWhile_append_dropWhile.symm
    refine ⟨h.skipWhile _, c.offset, Nat.le_refl _, h.occursAt_of_append hsplit, ?_⟩
    exact (Cursor.offset_skip_length_append hsplit).symm
  unfold readValue
  split
  · exact hbare
  · next quote body hrest =>
      split
      · next hquote =>
          have hsize : quote.utf8Size = 1 := by
            rw [Bool.or_eq_true, beq_iff_eq, beq_iff_eq] at hquote
            obtain rfl | rfl := hquote <;> rfl
          have hbody : c.rest = [quote] ++ body := hrest
          have hstart : byteCount [quote] = 1 := by simp [hsize]
          split
          · next n hindex =>
              obtain ⟨before, after, rfl, rfl⟩ := eq_append_of_indexOf? hindex
              have hsplit : c.rest = ([quote] ++ before ++ [quote]) ++ after := by
                rw [hrest]
                simp
              have hoffset := Cursor.offset_skip_length_append hsplit
              have hlength : ([quote] ++ before ++ [quote]).length = before.length + 2 := by simp
              rw [hlength] at hoffset
              refine ⟨h.skip _, c.offset + 1, by omega, ?_, ?_⟩
              · have hpart : OccursAt text c.offset ([quote] ++ before ++ [quote]) :=
                  h.occursAt_of_append hsplit
                rw [List.append_assoc, List.take_left]
                exact hpart.trans ⟨[quote], [quote], rfl, hstart⟩
              · rw [List.append_assoc, List.take_left, hoffset, byteCount_append,
                  byteCount_append, hstart]
                simp only [if_true]
                omega
          · refine ⟨h.skipAll, c.offset + 1, by omega, ?_, ?_⟩
            · have hpart : OccursAt text c.offset ([quote] ++ body) :=
                h.occursAt_of_append (by rw [hbody, List.append_nil])
              exact hpart.trans ⟨[quote], [], by simp, hstart⟩
            · show c.offset + 1 + byteCount body + 0 = c.offset + byteCount (c.rest.take _)
              rw [List.take_length, hbody, byteCount_append, hstart]
              omega
      · exact hbare

/-- An attribute is read where it stands. -/
theorem placed_readAttribute (h : c.StandsIn text) (hrest : c.rest ≠ []) :
    (readAttribute c).1.Placed text ∧ (readAttribute c).1.start = c.offset ∧
      (readAttribute c).1.stop = (readAttribute c).2.offset ∧
      (readAttribute c).2.StandsIn text := by
  have hletters : c.rest.take (nameLength c) ≠ [] := by
    rw [nameLength, ne_eq, List.take_eq_nil_iff]
    simp [hrest]
  have hname : OccursAt text c.offset (c.rest.take (nameLength c)) := h.occursAt_take _
  have hafter : (c.skip (nameLength c)).StandsIn text := h.skip _
  have hoffset : (c.skip (nameLength c)).offset =
      c.offset + byteCount (c.rest.take (nameLength c)) := rfl
  unfold readAttribute
  simp only
  split
  · obtain ⟨hread, start, hstart, hvalue, hstop⟩ := occursAt_readValue
      (((hafter.skipWhile isTagBlank).skip 1).skipWhile isTagBlank)
    generalize hcursor : (((c.skip (nameLength c)).skipWhile isTagBlank).skip 1).skipWhile
      isTagBlank = value at hread hstart hvalue hstop ⊢
    have hle : (c.skip (nameLength c)).offset ≤ value.offset := by
      rw [← hcursor]
      exact Nat.le_trans (Cursor.offset_le_offset_skipWhile _ _)
        (Nat.le_trans (Cursor.offset_le_offset_skip _ _) (Cursor.offset_le_offset_skipWhile _ _))
    rw [← byteLength_ofList] at hstop
    have hvalueStart : Attribute.valueStart
        ⟨lowerCase (c.rest.take (nameLength c)), String.ofList (readValue value).value, c.offset,
          (readValue value).after.offset, (readValue value).quoted⟩ = start :=
      Attribute.valueStart_eq hstop
    refine ⟨⟨⟨_, hletters, rfl, hname⟩, ?_, ?_, ?_, hread.isBoundary⟩, rfl, rfl, hread⟩
    · rw [hvalueStart, String.toList_ofList]
      exact hvalue
    · rw [hvalueStart, byteLength_lowerCase]
      show c.offset + _ ≤ start
      omega
    · rw [hvalueStart]
      exact hstop
  · have hvalueStart : Attribute.valueStart
        ⟨lowerCase (c.rest.take (nameLength c)), "", c.offset, (c.skip (nameLength c)).offset,
          false⟩ = (c.skip (nameLength c)).offset := rfl
    refine ⟨⟨⟨_, hletters, rfl, hname⟩, ?_, ?_, ?_, hafter.isBoundary⟩, rfl, rfl, hafter⟩
    · rw [hvalueStart]
      exact hafter.occursAt_take 0
    · rw [hvalueStart, byteLength_lowerCase]
      exact Nat.le_of_eq hoffset.symm
    · rw [hvalueStart]
      rfl

end MarkupEvent

/-! ## The attributes of a tag -/

/-- Attributes that stand in a text from left to right, none before one offset and none past
another. -/
def AttributesIn (text : List Char) : Nat → List Attribute → Nat → Prop
  | _, [], _ => True
  | start, a :: as, stop =>
      start ≤ a.start ∧ a.Placed text ∧ a.stop ≤ stop ∧ AttributesIn text a.stop as stop

namespace AttributesIn

variable {text : List Char} {start mid stop : Nat} {as : List Attribute} {a : Attribute}

/-- Attributes that stand before an offset stand before a later one. -/
theorem mono (h : AttributesIn text start as mid) (hle : mid ≤ stop) :
    AttributesIn text start as stop := by
  induction as generalizing start with
  | nil => trivial
  | cons a as ih => exact ⟨h.1, h.2.1, Nat.le_trans h.2.2.1 hle, ih h.2.2.2⟩

/-- One more attribute after the others. -/
theorem concat (h : AttributesIn text start as mid) (hstart : start ≤ a.start)
    (hmid : mid ≤ a.start) (ha : a.Placed text) (hstop : a.stop ≤ stop) :
    AttributesIn text start (as ++ [a]) stop := by
  have hspan : a.start ≤ a.stop := ha.start_le_stop
  induction as generalizing start with
  | nil => exact ⟨hstart, ha, hstop, trivial⟩
  | cons b as ih =>
      obtain ⟨hb, hplaced, hbstop, hrest⟩ := h
      exact ⟨hb, hplaced, by omega, ih hrest (by omega)⟩

end AttributesIn

namespace MarkupEvent

variable {text : List Char} {start : Nat}

/-- Attributes may start at a cursor, or only after it when it stands at the end of a tag's name:
the character there belongs to no attribute. -/
def MayStart (start : Nat) (c : Cursor) : Prop :=
  start ≤ c.offset ∨
    start ≤ c.offset + 1 ∧ ∀ x xs, c.rest = x :: xs → isTagNamePart x = false

/-- An attribute that may start somewhere starts there or behind blanks. -/
theorem MayStart.le_offset_skipWhile {c : Cursor} (h : MayStart start c) {x : Char}
    {xs : List Char} (hrest : (c.skipWhile isTagBlank).rest = x :: xs) (hclose : x ≠ '>')
    (hslash : x ≠ '/') : start ≤ (c.skipWhile isTagBlank).offset := by
  have hle := Cursor.offset_le_offset_skipWhile isTagBlank c
  obtain h | ⟨hstart, hname⟩ := h
  · exact Nat.le_trans h hle
  · cases hcs : c.rest with
    | nil =>
        rw [Cursor.rest_skipWhile, hcs] at hrest
        contradiction
    | cons y ys =>
        by_cases hy : isTagBlank y = true
        · have hlt := Cursor.offset_lt_offset_skipWhile hcs hy
          omega
        · rw [Cursor.rest_skipWhile, hcs, List.dropWhile_cons_of_neg hy] at hrest
          have hxy : y = x := (List.cons.inj hrest).1
          have hpart := hname y ys hcs
          rw [hxy] at hpart hy
          simp [isTagNamePart, hy, hclose, hslash] at hpart

/-- The attributes of a tag are read where they stand, from left to right.  The induction is along
the reader; attributes with a name that was met before are left out, which keeps the order. -/
theorem attributesIn_readAttributes (found : List Attribute) (c : Cursor)
    (hc : c.StandsIn text) (hfound : AttributesIn text start found c.offset)
    (hstart : MayStart start c) :
    AttributesIn text start (readAttributes found c).attributes
        (readAttributes found c).after.offset ∧
      (readAttributes found c).after.StandsIn text ∧
      c.offset ≤ (readAttributes found c).after.offset := by
  fun_induction readAttributes found c with
  | case1 found cursor c h =>
      have hle : cursor.offset ≤ c.offset := Cursor.offset_le_offset_skipWhile isTagBlank cursor
      exact ⟨hfound.mono hle, hc.skipWhile _, hle⟩
  | case2 found cursor c xs h =>
      have hle : cursor.offset ≤ c.offset := Cursor.offset_le_offset_skipWhile isTagBlank cursor
      have hskip : cursor.offset ≤ (c.skip 1).offset :=
        Nat.le_trans hle (Cursor.offset_le_offset_skip 1 c)
      exact ⟨hfound.mono hskip, (hc.skipWhile _).skip 1, hskip⟩
  | case3 found cursor c xs hslash h =>
      have hle : cursor.offset ≤ c.offset := Cursor.offset_le_offset_skipWhile isTagBlank cursor
      have hskip : cursor.offset ≤ (c.skip 2).offset :=
        Nat.le_trans hle (Cursor.offset_le_offset_skip 2 c)
      exact ⟨hfound.mono hskip, (hc.skipWhile _).skip 2, hskip⟩
  | case4 found cursor c xs hslash h hend ih =>
      have hle : cursor.offset ≤ c.offset := Cursor.offset_le_offset_skipWhile isTagBlank cursor
      have hlt : c.offset < (c.skip 1).offset :=
        Cursor.offset_lt_offset_skip Nat.one_pos (by rw [h]; simp)
      have hnext : MayStart start (c.skip 1) := by
        obtain hstart | ⟨hstart, -⟩ := hstart
        · exact .inl (by omega)
        · exact .inl (by omega)
      obtain ⟨hattributes, hafter, hoffset⟩ :=
        ih ((hc.skipWhile _).skip 1) (hfound.mono (by omega)) hnext
      exact ⟨hattributes, hafter, by omega⟩
  | case5 found cursor c x xs h hclose hslash read found' ih =>
      have hle : cursor.offset ≤ c.offset := Cursor.offset_le_offset_skipWhile isTagBlank cursor
      have hfrom : start ≤ c.offset := hstart.le_offset_skipWhile h hclose hslash
      have hstands : c.StandsIn text := hc.skipWhile isTagBlank
      obtain ⟨hplaced, hat, hstop, hafter⟩ := placed_readAttribute hstands (by rw [h]; simp)
      have hspan : c.offset ≤ read.2.offset := by
        rw [← hat]
        exact Nat.le_trans hplaced.start_le_stop (Nat.le_of_eq hstop)
      have hfound' : AttributesIn text start found' read.2.offset := by
        show AttributesIn text start (if _ then _ else _) _
        split
        · exact hfound.mono (by omega)
        · exact hfound.concat (by rw [hat]; exact hfrom) (by rw [hat]; exact hle) hplaced
            (Nat.le_of_eq hstop)
      obtain ⟨hattributes, hend, hoffset⟩ := ih hafter hfound' (.inl (by omega))
      exact ⟨hattributes, hend, by omega⟩

end MarkupEvent

/-! ## Tags, runs and events -/

/-- A start tag stands in a text up to an offset: its bracket and name, then its attributes. -/
structure StartTag.Placed (text : List Char) (t : StartTag) (stop : Nat) : Prop where
  name : ∃ letters, t.name = MarkupEvent.lowerCase letters ∧
    OccursAt text t.start ('<' :: letters)
  attributes : AttributesIn text (t.nameStop + 1) t.attributes stop
  nameStop_le : t.nameStop ≤ stop

/-- A run of text stands in a text, and is not empty. -/
structure TextRun.Placed (text : List Char) (run : TextRun) : Prop where
  occurs : OccursAt text run.start run.content.toList
  nonempty : 0 < byteLength run.content

/-- What an event carries stands in a text between two offsets. -/
def MarkupEvent.Placed (text : List Char) (start stop : Nat) : MarkupEvent → Prop
  | .text run =>
      run.Placed text ∧ start ≤ run.start ∧ run.start + byteLength run.content ≤ stop
  | .start tag _ => tag.Placed text stop ∧ start ≤ tag.start
  | .stop _ => start ≤ stop

/-- Events that stand in a text one after the other, from an offset on. -/
def EventsIn (text : List Char) : Nat → List MarkupEvent → Prop
  | _, [] => True
  | start, e :: es => ∃ stop, stop ≤ byteCount text ∧ e.Placed text start stop ∧
      EventsIn text stop es

/-- Events from an offset on are events from an earlier one on. -/
theorem EventsIn.mono {text : List Char} {start start' : Nat} {es : List MarkupEvent}
    (h : EventsIn text start es) (hle : start' ≤ start) : EventsIn text start' es := by
  cases es with
  | nil => trivial
  | cons e es =>
      obtain ⟨stop, hstop, hplaced, hrest⟩ := h
      refine ⟨stop, hstop, ?_, hrest⟩
      cases e with
      | text run => exact ⟨hplaced.1, Nat.le_trans hle hplaced.2.1, hplaced.2.2⟩
      | start tag leaf => exact ⟨hplaced.1, Nat.le_trans hle hplaced.2⟩
      | stop name => exact Nat.le_trans hle hplaced

namespace MarkupEvent

variable {text : List Char} {c after : Cursor} {xs : List Char}

/-- A raw body is skipped to a place at or behind its start. -/
theorem standsIn_skipRawText (name : String) (h : c.StandsIn text) :
    (skipRawText name c).StandsIn text ∧ c.offset ≤ (skipRawText name c).offset := by
  unfold skipRawText
  split
  · exact ⟨h.skip _, Cursor.offset_le_offset_skip _ c⟩
  · exact ⟨h.skipAll, Cursor.offset_le_offset_skip _ c⟩

/-- A start tag is read where it stands. -/
theorem placed_readStartTag (h : c.StandsIn text) (hrest : c.rest = '<' :: xs) :
    (readStartTag c).1.Placed text c.offset (readStartTag c).2.offset ∧
      (readStartTag c).2.StandsIn text := by
  have hdrop : c.rest.drop 1 = xs := by rw [hrest]; rfl
  generalize hletters : xs.takeWhile isTagNamePart = letters
  have hsplit : c.rest = ('<' :: letters) ++ xs.dropWhile isTagNamePart := by
    rw [hrest, ← hletters, List.cons_append, List.takeWhile_append_dropWhile]
  have hname : OccursAt text c.offset ('<' :: letters) := h.occursAt_of_append hsplit
  have hend : (c.skip (letters.length + 1)).StandsIn text := h.skip _
  have hoffset : (c.skip (letters.length + 1)).offset = c.offset + 1 + byteCount letters := by
    have hskip := Cursor.offset_skip_length_append hsplit
    rw [List.length_cons] at hskip
    rw [hskip, byteCount_cons, Nat.add_assoc]
    rfl
  have hmay : MayStart (c.offset + 1 + byteCount letters + 1) (c.skip (letters.length + 1)) := by
    refine .inr ⟨by omega, ?_⟩
    intro x ys hx
    have hafter : (c.skip (letters.length + 1)).rest = xs.dropWhile isTagNamePart := by
      have hlength : letters.length + 1 = ('<' :: letters).length := rfl
      rw [Cursor.skip, hlength, hsplit]
      exact List.drop_left
    have hhead := List.head?_dropWhile_not isTagNamePart xs
    rw [← hafter, hx] at hhead
    simpa using hhead
  obtain ⟨hattributes, htail, hle⟩ := attributesIn_readAttributes [] _ hend trivial hmay
  generalize hread : readAttributes [] (c.skip (letters.length + 1)) = tail at *
  have htag : ∀ stop, tail.after.offset ≤ stop →
      StartTag.Placed text ⟨lowerCase letters, c.offset, tail.attributes⟩ stop := by
    intro stop hstop
    refine ⟨⟨letters, rfl, hname⟩, ?_, ?_⟩
    · rw [StartTag.nameStop, byteLength_lowerCase]
      exact hattributes.mono hstop
    · rw [StartTag.nameStop, byteLength_lowerCase]
      show c.offset + 1 + byteCount letters ≤ stop
      omega
  simp only [readStartTag, hdrop, hletters, hread]
  split
  · obtain ⟨hraw, hskip⟩ := standsIn_skipRawText (lowerCase letters) htail
    exact ⟨⟨htag _ hskip, Nat.le_refl _⟩, hraw⟩
  · exact ⟨⟨htag _ (Nat.le_refl _), Nat.le_refl _⟩, htail⟩

/-- An end tag stands where it is read. -/
theorem placed_readEndTag (h : c.StandsIn text) :
    (readEndTag c).1.Placed text c.offset (readEndTag c).2.offset ∧
      (readEndTag c).2.StandsIn text := by
  refine ⟨?_, (h.skip _).skipPast _⟩
  exact Nat.le_trans (Cursor.offset_le_offset_skip _ c) (Cursor.offset_le_offset_skipPast _ _)

/-- What a `<` starts is read where it stands, and reading goes on after it. -/
theorem placed_readMarkup? {event : Option MarkupEvent} (h : c.StandsIn text)
    (hrest : c.rest = '<' :: xs) (hread : readMarkup? c = some (event, after)) :
    (∀ e ∈ event, e.Placed text c.offset after.offset) ∧ after.StandsIn text ∧
      c.offset ≤ after.offset := by
  have hskip : ∀ (n : Nat) (word : List Char), ((c.skip n).skipPast word).StandsIn text ∧
      c.offset ≤ ((c.skip n).skipPast word).offset := fun n word =>
    ⟨(h.skip n).skipPast word, Nat.le_trans (Cursor.offset_le_offset_skip _ c)
      (Cursor.offset_le_offset_skipPast _ _)⟩
  have hdrop : c.rest.drop 1 = xs := by rw [hrest]; rfl
  rw [readMarkup?, hdrop] at hread
  cases xs with
  | nil => contradiction
  | cons x xs =>
      simp only at hread
      split at hread
      · cases hread
        exact ⟨by simp, hskip _ _⟩
      · split at hread
        · cases hread
          exact ⟨by simp, hskip _ _⟩
        · split at hread
          · split at hread
            · cases hread
              obtain ⟨hplaced, hafter⟩ := placed_readEndTag h
              exact ⟨by simpa using hplaced, hafter, hplaced⟩
            · contradiction
          · split at hread
            · cases hread
              obtain ⟨hplaced, hafter⟩ := placed_readStartTag h hrest
              refine ⟨by simpa using hplaced, hafter, ?_⟩
              have hle := hplaced.1.nameStop_le
              rw [StartTag.nameStop] at hle
              have hstart := hplaced.2
              omega
            · contradiction

/-! ## The whole template -/

/-- Text that has been read from an offset up to a cursor stands in the text. -/
def Pending (text : List Char) (start : Nat) (pending : List Char) (c : Cursor) : Prop :=
  ∃ before, text = before ++ pending ++ c.rest ∧ byteCount before = start ∧
    c.offset = start + byteCount pending

namespace Pending

variable {start : Nat} {pending : List Char}

theorem standsIn (h : Pending text start pending c) : c.StandsIn text := by
  obtain ⟨before, htext, hbefore, hoffset⟩ := h
  exact ⟨before ++ pending, htext, by rw [byteCount_append, hbefore, hoffset]⟩

/-- The pending text stands in the template. -/
theorem occursAt (h : Pending text start pending c) : OccursAt text start pending := by
  obtain ⟨before, htext, hbefore, -⟩ := h
  exact ⟨before, c.rest, htext, hbefore⟩

/-- The pending text reaches up to the cursor. -/
theorem offset_eq (h : Pending text start pending c) : start + byteCount pending = c.offset := by
  obtain ⟨-, -, -, hoffset⟩ := h
  exact hoffset.symm

/-- Nothing is pending at first. -/
theorem nil (h : c.StandsIn text) : Pending text c.offset [] c := by
  obtain ⟨before, htext, hbefore⟩ := h
  exact ⟨before, by simpa using htext, hbefore, rfl⟩

/-- One more character of text. -/
theorem concat {x : Char} (h : Pending text start pending c) (hrest : c.rest = x :: xs) :
    Pending text start (pending ++ [x]) (c.skip 1) := by
  obtain ⟨before, htext, hbefore, hoffset⟩ := h
  refine ⟨before, ?_, hbefore, ?_⟩
  · rw [htext, hrest, Cursor.skip, hrest]
    simp
  · rw [Cursor.skip, hrest, byteCount_append, hoffset, Nat.add_assoc]
    rfl

end Pending

/-- A run of text before other events. -/
theorem eventsIn_ofText_append {start n : Nat} {pending : List Char} {es : List MarkupEvent}
    (h : OccursAt text start pending) (hn : start + byteCount pending = n)
    (hes : EventsIn text n es) : EventsIn text start (ofText start pending ++ es) := by
  rw [ofText]
  split
  · exact hes.mono (by omega)
  · next hempty =>
      rw [List.isEmpty_iff] at hempty
      have hpos : byteCount pending ≠ 0 := fun hzero => hempty (byteCount_eq_zero_iff.mp hzero)
      refine ⟨n, by rw [← hn]; exact h.stop_le, ⟨⟨?_, ?_⟩, Nat.le_refl _, ?_⟩, hes⟩
      · rw [String.toList_ofList]
        exact h
      · rw [byteLength_ofList]
        exact Nat.pos_of_ne_zero hpos
      · rw [byteLength_ofList]
        exact Nat.le_of_eq hn

/-- Scanning from a cursor finds events that stand in the text from the pending text on. -/
theorem eventsIn_scanFrom (start : Nat) (pending : List Char) (c : Cursor)
    (h : Pending text start pending c) : EventsIn text start (scanFrom start pending c) := by
  fun_induction scanFrom start pending c with
  | case1 start pending c hrest =>
      have hes : EventsIn text (start + byteCount pending) [] := trivial
      simpa using eventsIn_ofText_append h.occursAt rfl hes
  | case2 start pending c xs event after hread hrest ih =>
      obtain ⟨hevent, hafter, hle⟩ := placed_readMarkup? h.standsIn hrest hread
      have hnext := ih (.nil hafter)
      rw [List.append_assoc]
      refine eventsIn_ofText_append h.occursAt h.offset_eq ?_
      cases event with
      | none => exact hnext.mono hle
      | some e => exact ⟨after.offset, hafter.offset_le, hevent e rfl, hnext⟩
  | case3 start pending c xs hread hrest ih => exact ih (h.concat hrest)
  | case4 start pending c x xs hrest hx ih => exact ih (h.concat hrest)

/-- The events of a template stand in it, one after the other. -/
theorem eventsIn_scan (template : String) :
    EventsIn template.toList 0 (scan template) :=
  eventsIn_scanFrom 0 [] _ (.nil (Cursor.standsIn_ofText template.toList))

end MarkupEvent

end TemplateMigration
