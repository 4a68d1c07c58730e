import TemplateMigration.Markup.Node
import TemplateMigration.Text.Blank
import TemplateMigration.Text.Cursor

/-!
# TemplateMigration.Markup.Event

The flat reading of a template: runs of text, start tags and end tags in the order in which they
stand.  Comments and declarations end a run of text and leave no event.  A `<` that starts
nothing is text.  The body of a `script` or `style` element is skipped up to its end tag.
-/

namespace TemplateMigration

/-- What a scan of a template meets. -/
inductive MarkupEvent where
  | text (run : TextRun)
  /-- A start tag; `isLeaf` when nothing can stand inside the element. -/
  | start (tag : StartTag) (isLeaf : Bool)
  | stop (name : String)
  deriving DecidableEq, Repr

namespace MarkupEvent

/-! ## Attributes -/

/-- Whether a character continues the name of a tag. -/
def isTagNamePart (c : Char) : Bool := !isTagBlank c && c != '>' && c != '/'

/-- Whether a character continues the name of an attribute. -/
def isAttributeNamePart (c : Char) : Bool := !isTagBlank c && c != '/' && c != '>' && c != '='

/-- Whether a character continues a value without quotes. -/
def isBareValuePart (c : Char) : Bool := !isTagBlank c && c != '>'

/-- A text in ASCII lower case. -/
def lowerCase (cs : List Char) : String := String.ofList (cs.map Char.toLower)

/-- A value that has been read, whether it stands between two quotes, and the place after it. -/
structure ReadValue where
  value : List Char
  quoted : Bool
  after : Cursor

/-- Read a value without quotes. -/
def readBareValue (c : Cursor) : ReadValue :=
  ⟨c.rest.takeWhile isBareValuePart, false, c.skipWhile isBareValuePart⟩

/-- Read the value after an equals sign.  A quote that is never closed gives the rest of the
text. -/
def readValue (c : Cursor) : ReadValue :=
  match c.rest with
  | [] => readBareValue c
  | quote :: body =>
      if quote == '"' || quote == '\'' then
        match indexOf? [quote] body with
        | some n => ⟨body.take n, true, c.skip (n + 2)⟩
        | none => ⟨body, false, c.skipAll⟩
      else readBareValue c

/-- The length of an attribute's name; the first character belongs to the name whatever it is. -/
def nameLength (c : Cursor) : Nat := ((c.rest.drop 1).takeWhile isAttributeNamePart).length + 1

/-- Read an attribute.  Blanks may stand around the equals sign; without one the attribute ends
with its name. -/
def readAttribute (c : Cursor) : Attribute × Cursor :=
  let name := lowerCase (c.rest.take (nameLength c))
  let after := c.skip (nameLength c)
  let sign := after.skipWhile isTagBlank
  if sign.rest.head? = some '=' then
    let read := readValue ((sign.skip 1).skipWhile isTagBlank)
    (⟨name, String.ofList read.value, c.offset, read.after.offset, read.quoted⟩, read.after)
  else (⟨name, "", c.offset, after.offset, false⟩, after)

theorem length_rest_readValue_le (c : Cursor) :
    (readValue c).after.rest.length ≤ c.rest.length := by
  have hbare : (readBareValue c).after.rest.length ≤ c.rest.length :=
    Cursor.length_rest_skipWhile_le _ _
  unfold readValue
  split
  · exact hbare
  · split
    · split <;> simp
    · exact hbare

/-- Reading an attribute takes at least one character. -/
theorem length_rest_readAttribute_lt (c : Cursor) (h : c.rest ≠ []) :
    (readAttribute c).2.rest.length < c.rest.length := by
  have hpos : 0 < c.rest.length := List.length_pos_iff.mpr h
  have hname : (c.skip (nameLength c)).rest.length < c.rest.length := by
    simp only [nameLength, Cursor.length_rest_skip]; omega
  simp only [readAttribute]
  split
  · refine Nat.lt_of_le_of_lt (length_rest_readValue_le _) ?_
    refine Nat.lt_of_le_of_lt (Cursor.length_rest_skipWhile_le _ _) ?_
    rw [Cursor.length_rest_skip]
    have := Cursor.length_rest_skipWhile_le isTagBlank (c.skip (nameLength c))
    omega
  · exact hname

/-! ## Tags -/

/-- What follows a tag's name: its attributes, whether it ends in `/>`, and the place after. -/
structure TagTail where
  attributes : List Attribute
  selfClosing : Bool
  after : Cursor

/-- Read the attributes of a start tag up to and including its `>`; of attributes with one name
the first is kept. -/
def readAttributes (found : List Attribute) (cursor : Cursor) : TagTail :=
  let c := cursor.skipWhile isTagBlank
  match _h : c.rest with
  | [] => ⟨found, false, c⟩
  | x :: xs =>
      if x = '>' then ⟨found, false, c.skip 1⟩
      else if x = '/' then
        if xs.head? = some '>' then ⟨found, true, c.skip 2⟩ else readAttributes found (c.skip 1)
      else
        let read := readAttribute c
        let found := if found.any (·.name == read.1.name) then found else found ++ [read.1]
        readAttributes found read.2
termination_by cursor.rest.length
decreasing_by
  · have : c.rest.length ≤ cursor.rest.length := Cursor.length_rest_skipWhile_le isTagBlank cursor
    have : c.rest.length = xs.length + 1 := by rw [_h]; rfl
    have : (c.skip 1).rest.length = c.rest.length - 1 := Cursor.length_rest_skip 1 c
    exact (by omega : (c.skip 1).rest.length < cursor.rest.length)
  · have : c.rest.length ≤ cursor.rest.length := Cursor.length_rest_skipWhile_le isTagBlank cursor
    have := length_rest_readAttribute_lt c (by rw [_h]; simp)
    exact (by omega : (readAttribute c).2.rest.length < cursor.rest.length)

/-- Move to the end tag of a raw text element, or to the end of the text. -/
def skipRawText (name : String) (c : Cursor) : Cursor :=
  match indexOf? ('<' :: '/' :: name.toList) (c.rest.map Char.toLower) with
  | some n => c.skip n
  | none => c.skipAll

/-- Read a start tag from its `<`. -/
def readStartTag (c : Cursor) : MarkupEvent × Cursor :=
  let letters := (c.rest.drop 1).takeWhile isTagNamePart
  let name := lowerCase letters
  let tail := readAttributes [] (c.skip (letters.length + 1))
  let isLeaf := tail.selfClosing || isVoidElement name
  (.start ⟨name, c.offset, tail.attributes⟩ isLeaf,
    if !isLeaf && isRawTextElement name then skipRawText name tail.after else tail.after)

/-- Read an end tag from its `<`. -/
def readEndTag (c : Cursor) : MarkupEvent × Cursor :=
  let letters := (c.rest.drop 2).takeWhile isTagNamePart
  (.stop (lowerCase letters), (c.skip (letters.length + 2)).skipPast ['>'])

/-- Read what a `<` starts: a comment, a declaration, an end tag or a start tag; nothing when the
`<` is text. -/
def readMarkup? (c : Cursor) : Option (Option MarkupEvent × Cursor) :=
  match c.rest.drop 1 with
  | [] => none
  | x :: xs =>
      if x = '!' ∧ ['-', '-'].isPrefixOf xs then
        some (none, (c.skip 4).skipPast ['-', '-', '>'])
      else if x = '!' ∨ x = '?' then some (none, (c.skip 2).skipPast ['>'])
      else if x = '/' then
        if xs.head?.any Char.isAlpha then
          let read := readEndTag c
          some (some read.1, read.2)
        else none
      else if x.isAlpha then
        let read := readStartTag c
        some (some read.1, read.2)
      else none

/-! ## Progress -/

theorem length_rest_readAttributes_le (found : List Attribute) (c : Cursor) :
    (readAttributes found c).after.rest.length ≤ c.rest.length := by
  fun_induction readAttributes found c with
  | case1 found cursor c h => exact Cursor.length_rest_skipWhile_le isTagBlank cursor
  | case2 found cursor c xs h =>
      have : c.rest.length ≤ cursor.rest.length := Cursor.length_rest_skipWhile_le isTagBlank cursor
      rw [Cursor.length_rest_skip]; omega
  | case3 found cursor c xs hh h =>
      have : c.rest.length ≤ cursor.rest.length := Cursor.length_rest_skipWhile_le isTagBlank cursor
      rw [Cursor.length_rest_skip]; omega
  | case4 found cursor c xs hh h hs ih =>
      have : c.rest.length ≤ cursor.rest.length := Cursor.length_rest_skipWhile_le isTagBlank cursor
      rw [Cursor.length_rest_skip] at ih; omega
  | case5 found cursor c x xs h hx hs read found' ih =>
      have : c.rest.length ≤ cursor.rest.length := Cursor.length_rest_skipWhile_le isTagBlank cursor
      have : read.2.rest.length < c.rest.length :=
        length_rest_readAttribute_lt c (by rw [h]; simp)
      omega

theorem length_rest_readStartTag_lt (c : Cursor) (h : c.rest ≠ []) :
    (readStartTag c).2.rest.length < c.rest.length := by
  have hpos : 0 < c.rest.length := List.length_pos_iff.mpr h
  simp only [readStartTag]
  generalize hl : ((c.rest.drop 1).takeWhile isTagNamePart) = letters
  have hle := length_rest_readAttributes_le [] (c.skip (letters.length + 1))
  simp only [Cursor.length_rest_skip] at hle
  split
  · unfold skipRawText
    split
    · simp only [Cursor.length_rest_skip]; omega
    · simp only [Cursor.length_rest_skipAll]; omega
  · omega

theorem length_rest_readEndTag_lt (c : Cursor) (h : c.rest ≠ []) :
    (readEndTag c).2.rest.length < c.rest.length := by
  have hpos : 0 < c.rest.length := List.length_pos_iff.mpr h
  simp only [readEndTag]
  refine Nat.lt_of_le_of_lt (Cursor.length_rest_skipPast_le _ _) ?_
  simp only [Cursor.length_rest_skip]; omega

/-- Reading markup takes at least one character. -/
theorem length_rest_readMarkup?_lt {c after : Cursor} {e : Option MarkupEvent} (hc : c.rest ≠ [])
    (h : readMarkup? c = some (e, after)) : after.rest.length < c.rest.length := by
  have hpos : 0 < c.rest.length := List.length_pos_iff.mpr hc
  simp only [readMarkup?] at h
  split at h
  · simp at h
  · split at h
    · simp only [Option.some.injEq, Prod.mk.injEq] at h
      rw [← h.2]
      refine Nat.lt_of_le_of_lt (Cursor.length_rest_skipPast_le _ _) ?_
      simp only [Cursor.length_rest_skip]; omega
    · split at h
      · simp only [Option.some.injEq, Prod.mk.injEq] at h
        rw [← h.2]
        refine Nat.lt_of_le_of_lt (Cursor.length_rest_skipPast_le _ _) ?_
        simp only [Cursor.length_rest_skip]; omega
      · split at h
        · split at h
          · simp only [Option.some.injEq, Prod.mk.injEq] at h
            rw [← h.2]
            exact length_rest_readEndTag_lt c hc
          · simp at h
        · split at h
          · simp only [Option.some.injEq, Prod.mk.injEq] at h
            rw [← h.2]
            exact length_rest_readStartTag_lt c hc
          · simp at h

/-! ## The whole template -/

/-- The event of a run of text that started at an offset; an empty run is no event. -/
def ofText (start : Nat) (content : List Char) : List MarkupEvent :=
  if content.isEmpty then [] else [.text ⟨String.ofList content, start⟩]

/-- Scan from a cursor.  `pending` is the text read since `start` that belongs to no event yet. -/
def scanFrom (start : Nat) (pending : List Char) (c : Cursor) : List MarkupEvent :=
  match _h : c.rest with
  | [] => ofText start pending
  | x :: _ =>
      if x = '<' then
        match _hm : readMarkup? c with
        | some (event, after) =>
            ofText start pending ++ event.toList ++ scanFrom after.offset [] after
        | none => scanFrom start (pending ++ [x]) (c.skip 1)
      else scanFrom start (pending ++ [x]) (c.skip 1)
termination_by c.rest.length
decreasing_by
  · exact length_rest_readMarkup?_lt (by rw [_h]; simp) _hm
  · rw [Cursor.length_rest_skip, _h, List.length_cons]; omega
  · rw [Cursor.length_rest_skip, _h, List.length_cons]; omega

/-- The events of a template. -/
def scan (template : String) : List MarkupEvent := scanFrom 0 [] (.ofText template.toList)

end MarkupEvent

end TemplateMigration
