import TemplateMigration.Markup.Event

/-!
# TemplateMigration.Proofs.Markup.Written

Templates as they are written.

A forest forgets how its template is written: blanks and quotes, attributes met before, comments,
the bodies of scripts.  Here a template is a list of segments that spell it character by character
(`Segment.spell`).  `Reads` says of a segment that a scan takes exactly this segment when a given
text stands behind it; it looks at the segment, and at the text behind it only as far as that
decides where the segment ends.  `Segment.eventsFrom` gives the events of segments.
-/

namespace TemplateMigration

open MarkupEvent

/-! ## Values -/

/-- Whether a character opens and closes a value. -/
def isQuote (c : Char) : Bool := c == '"' || c == '\''

/-- How a value is written. -/
inductive ValueStyle where
  /-- Between two quotes. -/
  | quoted (quote : Char)
  | bare
  /-- After a quote that is never closed. -/
  | unclosed (quote : Char)
  deriving DecidableEq, Repr

namespace ValueStyle

/-- What stands before the value. -/
def opening : ValueStyle → List Char
  | quoted q | unclosed q => [q]
  | bare => []

/-- What stands behind the value. -/
def closing : ValueStyle → List Char
  | quoted q => [q]
  | bare | unclosed _ => []

/-- Whether the value stands between two quotes. -/
def isQuoted : ValueStyle → Bool
  | quoted _ => true
  | bare | unclosed _ => false

/-- A value ends where it is written to end, with a text behind it. -/
def Fits (content rest : List Char) : ValueStyle → Prop
  | quoted q => isQuote q = true ∧ q ∉ content
  | bare =>
      content.all isBareValuePart = true ∧ rest.takeWhile isBareValuePart = [] ∧
        (content ++ rest).head?.all (fun c => !isTagBlank c && !isQuote c) = true
  | unclosed q => isQuote q = true ∧ q ∉ content ∧ rest = []

instance (s : ValueStyle) (content rest : List Char) : Decidable (s.Fits content rest) :=
  match s with
  | quoted _ => inferInstanceAs (Decidable (_ ∧ _))
  | bare => inferInstanceAs (Decidable (_ ∧ _ ∧ _))
  | unclosed _ => inferInstanceAs (Decidable (_ ∧ _ ∧ _))

end ValueStyle

/-- A value with the equals sign before it and the blanks around that. -/
structure WrittenValue where
  before : List Char
  after : List Char
  style : ValueStyle
  content : List Char
  deriving DecidableEq, Repr

namespace WrittenValue

/-- The equals sign, the blanks around it and what opens the value. -/
def sign (v : WrittenValue) : List Char := v.before ++ '=' :: (v.after ++ v.style.opening)

/-- A value as text. -/
def render (v : WrittenValue) : List Char := v.sign ++ (v.content ++ v.style.closing)

/-- A value is read as it is written. -/
def Reads (v : WrittenValue) (rest : List Char) : Prop :=
  v.before.all isTagBlank = true ∧ v.after.all isTagBlank = true ∧ v.style.Fits v.content rest

instance (v : WrittenValue) (rest : List Char) : Decidable (v.Reads rest) :=
  inferInstanceAs (Decidable (_ ∧ _ ∧ _))

end WrittenValue

/-- A name without the equals sign and the value is read as it is written. -/
def FlagReads (rest : List Char) : Prop :=
  rest.takeWhile isAttributeNamePart = [] ∧ (rest.dropWhile isTagBlank).head? ≠ some '='

instance (rest : List Char) : Decidable (FlagReads rest) := inferInstanceAs (Decidable (_ ∧ _))

/-! ## Attributes -/

/-- Whether a character can start the name of an attribute. -/
def isAttributeNameStart (c : Char) : Bool := !isTagBlank c && c != '/' && c != '>'

/-- An attribute as written, with or without a value. -/
structure WrittenAttribute where
  letters : List Char
  value? : Option WrittenValue
  deriving DecidableEq, Repr

namespace WrittenAttribute

/-- The name of the attribute. -/
def name (a : WrittenAttribute) : String := lowerCase a.letters

/-- The value of the attribute. -/
def content (a : WrittenAttribute) : List Char := (a.value?.map WrittenValue.content).getD []

/-- Whether the value stands between two quotes. -/
def isQuoted (a : WrittenAttribute) : Bool := a.value?.any (·.style.isQuoted)

/-- An attribute as text. -/
def render (a : WrittenAttribute) : List Char :=
  a.letters ++ (a.value?.map WrittenValue.render).getD []

/-- The attribute at an offset. -/
def located (offset : Nat) (a : WrittenAttribute) : Attribute :=
  ⟨a.name, String.ofList a.content, offset, offset + byteCount a.render, a.isQuoted⟩

/-- The letters are those of a name. -/
def IsName (letters : List Char) : Prop :=
  letters.head?.any isAttributeNameStart = true ∧ letters.tail.all isAttributeNamePart = true

instance (letters : List Char) : Decidable (IsName letters) := inferInstanceAs (Decidable (_ ∧ _))

/-- An attribute is read as it is written. -/
def Reads (a : WrittenAttribute) (rest : List Char) : Prop :=
  IsName a.letters ∧ (a.value? = none → FlagReads rest) ∧ ∀ v ∈ a.value?, v.Reads rest

instance (a : WrittenAttribute) (rest : List Char) : Decidable (a.Reads rest) :=
  letI : Decidable (∀ v ∈ a.value?, v.Reads rest) :=
    match a.value? with
    | none => isTrue (by simp)
    | some v => decidable_of_iff (v.Reads rest) (by simp)
  inferInstanceAs (Decidable (_ ∧ _ ∧ _))

end WrittenAttribute

/-- What stands in a tag behind its name: attributes, with blanks and slashes between them. -/
inductive TagPart where
  | gap (c : Char)
  | attr (a : WrittenAttribute)
  deriving DecidableEq, Repr

namespace TagPart

/-- A part of a tag as text. -/
def render : TagPart → List Char
  | gap c => [c]
  | attr a => a.render

/-- Parts of a tag as text. -/
def spell (ps : List TagPart) : List Char := ps.flatMap render

/-- A part is read as it is written; a slash before a `>` would end the tag. -/
def Reads (rest : List Char) : TagPart → Prop
  | gap c => isTagBlank c = true ∨ c = '/' ∧ rest.head? ≠ some '>'
  | attr a => a.Reads rest

instance (p : TagPart) (rest : List Char) : Decidable (p.Reads rest) :=
  match p with
  | gap _ => inferInstanceAs (Decidable (_ ∨ _))
  | attr a => inferInstanceAs (Decidable (a.Reads rest))

/-- Parts are read as they are written, one after the other. -/
def ReadsAll (rest : List Char) : List TagPart → Prop
  | [] => True
  | p :: ps => p.Reads (spell ps ++ rest) ∧ ReadsAll rest ps

instance decidableReadsAll (rest : List Char) : (ps : List TagPart) → Decidable (ReadsAll rest ps)
  | [] => isTrue trivial
  | p :: ps =>
      letI := decidableReadsAll rest ps
      inferInstanceAs (Decidable (p.Reads _ ∧ ReadsAll rest ps))

/-- The attributes among the parts, also those whose names were met before. -/
def attributesFrom (offset : Nat) : List TagPart → List Attribute
  | [] => []
  | gap c :: ps => attributesFrom (offset + c.utf8Size) ps
  | attr a :: ps => a.located offset :: attributesFrom (offset + byteCount a.render) ps

end TagPart

/-! ## Tags -/

/-- A start tag as written; it ends in `>` or `/>`, or with the template. -/
structure WrittenTag where
  letters : List Char
  parts : List TagPart
  ending : List Char
  deriving DecidableEq, Repr

/-- Take in an attribute unless its name was met before. -/
def Attribute.keepFirst (found : List Attribute) (a : Attribute) : List Attribute :=
  if found.any (·.name == a.name) then found else found ++ [a]

namespace WrittenTag

/-- The name of the tag. -/
def name (t : WrittenTag) : String := lowerCase t.letters

/-- Whether nothing can stand inside the element. -/
def isLeaf (t : WrittenTag) : Bool := t.ending == ['/', '>'] || isVoidElement t.name

/-- Whether the body of the element is plain text. -/
def hasRawBody (t : WrittenTag) : Bool := !t.isLeaf && isRawTextElement t.name

/-- A start tag as text. -/
def render (t : WrittenTag) : List Char := '<' :: (t.letters ++ (TagPart.spell t.parts ++ t.ending))

/-- The start tag at an offset. -/
def located (offset : Nat) (t : WrittenTag) : StartTag :=
  ⟨t.name, offset,
    (TagPart.attributesFrom (offset + byteCount ('<' :: t.letters)) t.parts).foldl
      Attribute.keepFirst []⟩

/-- The letters are those of a tag's name. -/
def IsName (letters : List Char) : Prop :=
  letters.head?.any Char.isAlpha = true ∧ letters.all isTagNamePart = true

instance (letters : List Char) : Decidable (IsName letters) := inferInstanceAs (Decidable (_ ∧ _))

/-- A start tag is read as it is written. -/
structure Reads (t : WrittenTag) (rest : List Char) : Prop where
  name : IsName t.letters
  name_stops : (TagPart.spell t.parts ++ (t.ending ++ rest)).takeWhile isTagNamePart = []
  parts : TagPart.ReadsAll (t.ending ++ rest) t.parts
  ending : t.ending = ['>'] ∨ t.ending = ['/', '>'] ∨ t.ending = [] ∧ rest = []

instance (t : WrittenTag) (rest : List Char) : Decidable (t.Reads rest) :=
  decidable_of_iff
    (IsName t.letters ∧
      (TagPart.spell t.parts ++ (t.ending ++ rest)).takeWhile isTagNamePart = [] ∧
      TagPart.ReadsAll (t.ending ++ rest) t.parts ∧
      (t.ending = ['>'] ∨ t.ending = ['/', '>'] ∨ t.ending = [] ∧ rest = []))
    ⟨fun ⟨hname, hstops, hparts, hending⟩ => ⟨hname, hstops, hparts, hending⟩,
      fun h => ⟨h.name, h.name_stops, h.parts, h.ending⟩⟩

end WrittenTag

/-! ## Segments -/

/-- A body ends with the first occurrence of a word, or is the rest of the template. -/
def Closes (word body rest : List Char) : Prop :=
  indexOf? word body = some (body.length - word.length) ∨ indexOf? word body = none ∧ rest = []

instance (word body rest : List Char) : Decidable (Closes word body rest) :=
  inferInstanceAs (Decidable (_ ∨ _))

/-- What ends the body of a raw text element of a name. -/
def rawEnd (name : String) : List Char := '<' :: '/' :: name.toList

/-- A raw body ends before the first end of its element, or with the template. -/
def RawReads (name : String) (body rest : List Char) : Prop :=
  indexOf? (rawEnd name) (body.map Char.toLower) = none ∧
    (rest = [] ∨ (rawEnd name).isPrefixOf (rest.map Char.toLower) = true)

instance (name : String) (body rest : List Char) : Decidable (RawReads name body rest) :=
  inferInstanceAs (Decidable (_ ∧ _))

/-- Whether a text makes markup of a `<` before it. -/
def opensMarkup : List Char → Bool
  | [] => false
  | x :: xs => x == '!' || x == '?' || x.isAlpha || x == '/' && xs.head?.any Char.isAlpha

/-- Characters are text: none of their `<` opens markup. -/
def TextReads (rest : List Char) : List Char → Prop
  | [] => True
  | c :: cs => (c = '<' → opensMarkup (cs ++ rest) = false) ∧ TextReads rest cs

instance decidableTextReads (rest : List Char) : (cs : List Char) → Decidable (TextReads rest cs)
  | [] => isTrue trivial
  | c :: cs =>
      letI := decidableTextReads rest cs
      inferInstanceAs (Decidable ((c = '<' → opensMarkup (cs ++ rest) = false) ∧ _))

/-- A segment of a template. -/
inductive Segment where
  | text (content : List Char)
  /-- A comment, without its `<!--`. -/
  | comment (body : List Char)
  /-- A declaration, without its `<` and the mark behind that. -/
  | declaration (mark : Char) (body : List Char)
  /-- An end tag: its name, and everything behind it. -/
  | endTag (letters body : List Char)
  /-- A start tag, with the body if that is plain text. -/
  | startTag (tag : WrittenTag) (body : List Char)
  deriving DecidableEq, Repr

namespace Segment

/-- A segment as text. -/
def render : Segment → List Char
  | text content => content
  | comment body => '<' :: '!' :: '-' :: '-' :: body
  | declaration mark body => '<' :: mark :: body
  | endTag letters body => '<' :: '/' :: (letters ++ body)
  | startTag tag body => tag.render ++ body

/-- Segments as text. -/
def spell (ps : List Segment) : List Char := ps.flatMap render

@[simp] theorem spell_nil : spell [] = [] := rfl

@[simp] theorem spell_cons (p : Segment) (ps : List Segment) :
    spell (p :: ps) = p.render ++ spell ps :=
  rfl

/-- Whether a segment is text. -/
def isText : Segment → Bool
  | text _ => true
  | _ => false

/-- A segment is read as it is written. -/
def Reads (rest : List Char) : Segment → Prop
  | text content => TextReads rest content
  | comment body => Closes ['-', '-', '>'] body rest
  | declaration mark body =>
      (mark = '!' ∧ ['-', '-'].isPrefixOf body = false ∨ mark = '?') ∧ Closes ['>'] body rest
  | endTag letters body =>
      WrittenTag.IsName letters ∧ body.takeWhile isTagNamePart = [] ∧ Closes ['>'] body rest
  | startTag tag body =>
      tag.Reads (body ++ rest) ∧
        if tag.hasRawBody then RawReads tag.name body rest else body = []

instance (p : Segment) (rest : List Char) : Decidable (p.Reads rest) :=
  match p with
  | text content => inferInstanceAs (Decidable (TextReads rest content))
  | comment body => inferInstanceAs (Decidable (Closes _ body rest))
  | declaration _ _ => inferInstanceAs (Decidable (_ ∧ _))
  | endTag _ _ => inferInstanceAs (Decidable (_ ∧ _ ∧ _))
  | startTag _ _ => inferInstanceAs (Decidable (_ ∧ _))

/-- Segments are read as they are written, one after the other. -/
def ReadsAll : List Segment → Prop
  | [] => True
  | p :: ps => p.Reads (spell ps) ∧ ReadsAll ps

instance decidableReadsAll : (ps : List Segment) → Decidable (ReadsAll ps)
  | [] => isTrue trivial
  | p :: ps =>
      letI := decidableReadsAll ps
      inferInstanceAs (Decidable (p.Reads _ ∧ ReadsAll ps))

/-- Texts are whole runs: none is empty, and no two stand side by side. -/
def Runs : List Segment → Prop
  | [] => True
  | p :: ps => (p.isText = true → p.render ≠ [] ∧ ps.head?.all (!·.isText) = true) ∧ Runs ps

instance decidableRuns : (ps : List Segment) → Decidable (Runs ps)
  | [] => isTrue trivial
  | p :: ps =>
      letI := decidableRuns ps
      inferInstanceAs
        (Decidable ((p.isText = true → p.render ≠ [] ∧ ps.head?.all (!·.isText) = true) ∧ Runs ps))

/-- Segments are how a template is written. -/
structure Spells (ps : List Segment) (template : String) : Prop where
  spell_eq : spell ps = template.toList
  reads : ReadsAll ps
  runs : Runs ps

/-- What a scan meets in a segment at an offset that is not text. -/
def event? (offset : Nat) : Segment → Option MarkupEvent
  | text _ | comment _ | declaration _ _ => none
  | endTag letters _ => some (.stop (lowerCase letters))
  | startTag tag _ => some (.start (tag.located offset) tag.isLeaf)

/-- The events of segments from an offset on; `pending` is the text since `start` that belongs to no
event yet. -/
def eventsFrom (start : Nat) (pending : List Char) (offset : Nat) : List Segment → List MarkupEvent
  | [] => ofText start pending
  | p :: ps =>
      if p.isText then eventsFrom start (pending ++ p.render) (offset + byteCount p.render) ps
      else
        ofText start pending ++ (p.event? offset).toList ++
          eventsFrom (offset + byteCount p.render) [] (offset + byteCount p.render) ps

/-- An event is a run of text or what a scan meets in one of the segments. -/
theorem exists_of_mem_eventsFrom {ps : List Segment} {start offset : Nat} {pending : List Char}
    {e : MarkupEvent} (h : e ∈ eventsFrom start pending offset ps) :
    (∃ run, e = .text run) ∨ ∃ p ∈ ps, ∃ offset', p.event? offset' = some e := by
  have htext : ∀ {start pending}, e ∈ ofText start pending → ∃ run, e = .text run := by
    intro start pending he
    rw [ofText] at he
    split at he
    · contradiction
    · exact ⟨_, List.mem_singleton.mp he⟩
  induction ps generalizing start pending offset with
  | nil => exact .inl (htext h)
  | cons p ps ih =>
      have hmore : ∀ {start pending offset}, e ∈ eventsFrom start pending offset ps →
          (∃ run, e = .text run) ∨ ∃ q ∈ p :: ps, ∃ offset', q.event? offset' = some e := by
        intro start pending offset he
        obtain hrun | ⟨q, hq, hevent⟩ := ih he
        · exact .inl hrun
        · exact .inr ⟨q, List.mem_cons_of_mem p hq, hevent⟩
      rw [eventsFrom] at h
      split at h
      · exact hmore h
      · simp only [List.mem_append, Option.mem_toList] at h
        obtain (h | h) | h := h
        · exact .inl (htext h)
        · exact .inr ⟨p, by simp, offset, h⟩
        · exact hmore h

end Segment

end TemplateMigration
