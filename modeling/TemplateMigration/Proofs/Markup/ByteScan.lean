import TemplateMigration.Markup.Forest
import TemplateMigration.Proofs.Markup.ByteReading
import TemplateMigration.Proofs.Markup.Lossless

/-!
# TemplateMigration.Proofs.Markup.ByteScan

The scan of a template by byte offsets.

A cursor is a number here and may be set to any offset, also back, so two things can go wrong that
cannot with a cursor that carries the rest of the text: it can come to stand inside a character or
past the end, where `tailAt?` and `slice?` give nothing, and a loop over it may never end.  Both
loops, over a template (`scanTurn`) and over the attributes of a start tag (`attributeTurn`), have
one turn for each byte of the text and one more (`Turn.run`), and no result when they need more.

`exists_readsOn` and `Position.scanTurn_cases` say what one turn does beside the reader by
characters, and `parse?_eq` that the scan by bytes has a result, the forest of the template.
-/

namespace TemplateMigration

/-! ## Loops -/

/-- What a turn of a loop comes to: the loop goes on from a state, or it ends in one. -/
inductive Turn (σ : Type) where
  | again (s : σ)
  | done (s : σ)
  deriving DecidableEq, Repr

namespace Turn

variable {σ : Type}

/-- The state after a turn. -/
def state : Turn σ → σ
  | again s | done s => s

/-- Take at most a number of turns, up to one that ends the loop.  There is no result where a turn
has none, and none where the loop needs more turns. -/
def run (turn : σ → Option (Turn σ)) : Nat → σ → Option σ
  | 0, _ => none
  | n + 1, s =>
      match turn s with
      | none => none
      | some (again s) => run turn n s
      | some (done s) => some s

/-- The states at which a loop that starts in a state takes a turn. -/
inductive Reaches (turn : σ → Option (Turn σ)) (start : σ) : σ → Prop where
  | start : Reaches turn start start
  | again {s s' : σ} (h : Reaches turn start s) (hturn : turn s = some (.again s')) :
      Reaches turn start s'

variable {turn : σ → Option (Turn σ)} {s s' r : σ}

/-- A turn that goes on is followed by the others. -/
theorem run_of_again (h : turn s = some (again s')) (n : Nat) :
    run turn (n + 1) s = run turn n s' := by
  rw [run, h]

/-- A turn that ends is the last. -/
theorem run_of_done (h : turn s = some (done r)) (n : Nat) : run turn (n + 1) s = some r := by
  rw [run, h]

end Turn

/-! ## The scan by bytes -/

namespace ByteScan

open MarkupEvent (isTagNamePart isAttributeNamePart isBareValuePart lowerCase)

/-- The offset after blanks. -/
def skipBlanks? (text : List Char) (offset : Nat) : Option Nat :=
  (readWhile? text isTagBlank offset).map Prod.snd

/-- Read a value without quotes, with the offset after it. -/
def bareValueAt? (text : List Char) (offset : Nat) : Option (List Char × Bool × Nat) :=
  (readWhile? text isBareValuePart offset).map fun (value, stop) => (value, false, stop)

/-- Read a value: its characters, whether it stands between two quotes, and the offset after it. -/
def valueAt? (text : List Char) (offset : Nat) : Option (List Char × Bool × Nat) :=
  match byteAt? text offset with
  | none => bareValueAt? text offset
  | some quote =>
      if quote == '"' || quote == '\'' then
        (tailAt? text (offset + 1)).bind fun body =>
          match find? [quote] body with
          | some n => (slice? text (offset + 1) (offset + 1 + n)).map fun value =>
              (value, true, offset + 1 + n + 1)
          | none => some (body, false, byteCount text)
      else bareValueAt? text offset

/-- Read an attribute, with the offset after it.  The cursor runs over the blanks after the name,
and goes back to the end of the name where no sign follows them. -/
def attributeAt? (text : List Char) (start : Nat) : Option (Attribute × Nat) := do
  let rest ← tailAt? text start
  let (_, nameStop) ← readWhile? text isAttributeNamePart
    (start + (rest.head?.map Char.utf8Size).getD 1)
  let letters ← slice? text start nameStop
  let sign ← skipBlanks? text nameStop
  if byteAt? text sign = some '=' then
    let valueStart ← skipBlanks? text (sign + 1)
    let (content, quoted, stop) ← valueAt? text valueStart
    some (⟨lowerCase letters, String.ofList content, start, stop, quoted⟩, stop)
  else some (⟨lowerCase letters, "", start, nameStop, false⟩, nameStop)

/-- Where the loop over the attributes of a start tag stands. -/
structure TagState where
  cursor : Nat
  attributes : List Attribute
  selfClosing : Bool
  deriving DecidableEq, Repr

/-- One turn of the loop over the attributes of a start tag. -/
def attributeTurn (text : List Char) (t : TagState) : Option (Turn TagState) := do
  let cursor ← skipBlanks? text t.cursor
  match byteAt? text cursor with
  | none => some (.done { t with cursor := cursor })
  | some x =>
      if x = '>' then some (.done { t with cursor := cursor + 1 })
      else if x = '/' then
        if byteAt? text (cursor + 1) = some '>' then
          some (.done { t with cursor := cursor + 2, selfClosing := true })
        else some (.again { t with cursor := cursor + 1 })
      else
        let (a, stop) ← attributeAt? text cursor
        let attributes :=
          if t.attributes.any (·.name == a.name) then t.attributes else t.attributes ++ [a]
        some (.again { t with cursor := stop, attributes := attributes })

/-- The name of the start tag at an offset, and where the loop over its attributes starts. -/
def tagStart? (text : List Char) (lt : Nat) : Option (String × TagState) :=
  (readWhile? text isTagNamePart (lt + 1)).map fun (letters, stop) =>
    (lowerCase letters, ⟨stop, [], false⟩)

/-- The offset of the end tag of a raw text element, or the end. -/
def rawTextStop? (text : List Char) (name : String) (offset : Nat) : Option Nat :=
  (tailAt? text offset).map fun body =>
    match find? ('<' :: '/' :: name.toList) (body.map Char.toLower) with
    | some n => offset + n
    | none => byteCount text

/-- Read the start tag at an offset, with the offset at which the scan goes on. -/
def startTagAt? (text : List Char) (lt : Nat) : Option (MarkupEvent × Nat) := do
  let (name, start) ← tagStart? text lt
  let tag ← Turn.run (attributeTurn text) (byteCount text + 1) start
  let isLeaf := tag.selfClosing || isVoidElement name
  let stop ←
    if !isLeaf && isRawTextElement name then rawTextStop? text name tag.cursor
    else some tag.cursor
  some (.start ⟨name, lt, tag.attributes⟩ isLeaf, stop)

/-- Read the end tag at an offset, with the offset after it. -/
def endTagAt? (text : List Char) (lt : Nat) : Option (MarkupEvent × Nat) := do
  let (letters, nameStop) ← readWhile? text isTagNamePart (lt + 2)
  let stop ← skipPast? text ['>'] nameStop
  some (.stop (lowerCase letters), stop)

/-- Read what the `<` at an offset starts, with the offset after it; nothing when the `<` is
text. -/
def markupAt? (text : List Char) (lt : Nat) : Option (Option (Option MarkupEvent × Nat)) := do
  let rest ← tailAt? text lt
  match byteAt? text (lt + 1) with
  | none => some none
  | some x =>
      if x = '!' ∧ ['<', '!', '-', '-'].isPrefixOf rest then
        (skipPast? text ['-', '-', '>'] (lt + 4)).map fun stop => some (none, stop)
      else if x = '!' ∨ x = '?' then
        (skipPast? text ['>'] (lt + 2)).map fun stop => some (none, stop)
      else if x = '/' then
        if (byteAt? text (lt + 2)).any Char.isAlpha then
          (endTagAt? text lt).map fun (event, stop) => some (some event, stop)
        else some none
      else if x.isAlpha then
        (startTagAt? text lt).map fun (event, stop) => some (some event, stop)
      else some none

/-- Where the scan of a template stands, and where the text starts that belongs to no node yet. -/
structure ScanState where
  cursor : Nat
  textStart : Nat
  builder : ForestBuilder

/-- The start of a scan. -/
def ScanState.start : ScanState := ⟨0, 0, .empty⟩

/-- The forest so far, with the text up to an offset. -/
def ScanState.flush? (text : List Char) (s : ScanState) (stop : Nat) : Option ForestBuilder :=
  if s.textStart < stop then
    (slice? text s.textStart stop).map fun content =>
      s.builder.add (.text ⟨String.ofList content, s.textStart⟩)
  else some s.builder

/-- The offset of the next `<` from a cursor on. -/
def nextBracket? (text : List Char) (cursor : Nat) : Option (Option Nat) :=
  (tailAt? text cursor).map fun rest => (find? ['<'] rest).map (cursor + ·)

/-- One turn of the loop over a template. -/
def scanTurn (text : List Char) (s : ScanState) : Option (Turn ScanState) := do
  match ← nextBracket? text s.cursor with
  | none => some (.done s)
  | some lt =>
      match ← markupAt? text lt with
      | none => some (.again { s with cursor := lt + 1 })
      | some (event, stop) =>
          let builder ← s.flush? text lt
          some (.again ⟨stop, stop, event.elim builder builder.step⟩)

/-- The forest of a template. -/
def parse? (source : String) : Option (List Node) := do
  let s ← Turn.run (scanTurn source.toList) (byteLength source + 1) .start
  let builder ← s.flush? source.toList (byteLength source)
  some builder.finish

end ByteScan

/-! ## Bytes and characters agree -/

namespace MarkupEvent

theorem isAsciiTest_isTagBlank : IsAsciiTest isTagBlank :=
  have hlow : IsAsciiTest fun c => c == ' ' || c == '\t' || c == '\n' :=
    ((IsAsciiTest.beq ' ' (by decide)).or (.beq '\t' (by decide))).or (.beq '\n' (by decide))
  (hlow.or (.beq '\x0c' (by decide))).or (.beq '\r' (by decide))

theorem isAsciiTest_isBareValuePart : IsAsciiTest isBareValuePart :=
  isAsciiTest_isTagBlank.not.and (IsAsciiTest.beq '>' (by decide)).not

theorem isAsciiTest_isTagNamePart : IsAsciiTest isTagNamePart :=
  isAsciiTest_isBareValuePart.and (IsAsciiTest.beq '/' (by decide)).not

theorem isAsciiTest_isAttributeNamePart : IsAsciiTest isAttributeNamePart :=
  ((isAsciiTest_isTagBlank.not.and (IsAsciiTest.beq '/' (by decide)).not).and
    (IsAsciiTest.beq '>' (by decide)).not).and (IsAsciiTest.beq '=' (by decide)).not

end MarkupEvent

namespace ByteScan

open MarkupEvent

variable {text : List Char} {c : Cursor} {x : Char} {xs : List Char}

/-- Blanks are skipped byte by byte as character by character. -/
theorem skipBlanks?_eq (h : c.StandsIn text) :
    skipBlanks? text c.offset = some (c.skipWhile isTagBlank).offset := by
  rw [skipBlanks?, h.readWhile?_eq isAsciiTest_isTagBlank]
  rfl

/-- A bare value is read byte by byte as character by character. -/
theorem bareValueAt?_eq (h : c.StandsIn text) : bareValueAt? text c.offset =
    some ((readBareValue c).value, false, (readBareValue c).after.offset) := by
  rw [bareValueAt?, h.readWhile?_eq isAsciiTest_isBareValuePart]
  rfl

/-- So is any value. -/
theorem valueAt?_eq (h : c.StandsIn text) : valueAt? text c.offset =
    some ((readValue c).value, (readValue c).quoted, (readValue c).after.offset) := by
  have hbare := bareValueAt?_eq h
  cases hrest : c.rest with
  | nil =>
      have hread : readValue c = readBareValue c := by simp only [readValue, hrest]
      rw [valueAt?, h.byteAt?_of_nil hrest, hread]
      exact hbare
  | cons x body =>
      obtain ⟨y, hy, halike⟩ := h.exists_byteAt? hrest
      have hquotes : (y == '"' || y == '\'') = (x == '"' || x == '\'') :=
        halike _ ((IsAsciiTest.beq '"' (by decide)).or (.beq '\'' (by decide)))
      by_cases hx : (x == '"' || x == '\'') = true
      · have hlt : x.toNat < 128 := by
          rw [Bool.or_eq_true, beq_iff_eq, beq_iff_eq] at hx
          obtain rfl | rfl := hx <;> decide
        obtain rfl : y = x := (halike.eq_iff hlt).mpr rfl
        have hbody : (c.skip 1).StandsIn text := h.skip 1
        have hoffset := Cursor.offset_skip_one hrest hlt
        have htail := hbody.tailAt?_eq
        rw [hoffset, Cursor.rest_skip_one hrest] at htail
        simp only [valueAt?, hy, if_pos hx, htail, Option.bind_some, find?, readValue, hrest]
        cases hindex : indexOf? [y] body with
        | none => simp [h.offset_skipAll]
        | some n =>
            obtain ⟨before, after, rfl, rfl⟩ := eq_append_of_indexOf? hindex
            have hrest' := Cursor.rest_skip_one hrest
            rw [List.append_assoc] at hrest'
            have hslice := (hbody.occursAt_of_append hrest').slice?_eq
            rw [hoffset] at hslice
            have hstop : (c.skip (before.length + 2)).offset =
                c.offset + 1 + byteCount before + 1 := by
              have hsplit : c.rest = (y :: before ++ [y]) ++ after := by simp [hrest]
              have hskip := Cursor.offset_skip_length_append hsplit
              have hsize : y.utf8Size = 1 := if_pos (Nat.le_of_lt_succ hlt)
              simpa [hsize, Nat.add_assoc, Nat.add_comm 1] using hskip
            simp [hslice, hstop]
      · rw [valueAt?, hy]
        simp only [hquotes, hx, readValue, hrest]
        exact hbare

/-- An attribute read by bytes is the attribute read by characters. -/
theorem attributeAt?_eq (h : c.StandsIn text) (hrest : c.rest = x :: xs) :
    attributeAt? text c.offset = some ((readAttribute c).1, (readAttribute c).2.offset) := by
  have hname : (c.skip 1).skipWhile isAttributeNamePart = c.skip (nameLength c) := by
    rw [Cursor.skipWhile, Cursor.skip_skip, nameLength, Nat.add_comm]
    rfl
  have hfirst : c.offset + ((c.rest.head?.map Char.utf8Size).getD 1) = (c.skip 1).offset := by
    simp [Cursor.skip, hrest]
  have hread := (h.skip 1).readWhile?_eq isAsciiTest_isAttributeNamePart
  rw [hname] at hread
  have hletters := h.slice?_eq (nameLength c)
  have hafter : (c.skip (nameLength c)).StandsIn text := h.skip _
  have hsign : ((c.skip (nameLength c)).skipWhile isTagBlank).StandsIn text := hafter.skipWhile _
  have hequals := hsign.byteAt?_eq_some_iff (show '='.toNat < 128 by decide)
  simp only [attributeAt?, Option.bind_eq_bind, h.tailAt?_eq, Option.bind_some, hfirst, hread,
    hletters, skipBlanks?_eq hafter, hequals, readAttribute]
  split
  · next hhead =>
      obtain ⟨ys, hys⟩ := List.head?_eq_some_iff.mp hhead
      have hvalue := (hsign.skip 1).skipWhile isTagBlank
      rw [← Cursor.offset_skip_one hys (by decide), skipBlanks?_eq (hsign.skip 1),
        Option.bind_some, valueAt?_eq hvalue]
      rfl
  · rfl

/-! ### The attributes of a tag -/

/-- What a turn over the attributes does where a cursor stands, beside the reader that takes what
follows a tag's name for `tail`: it moves to another cursor, past something unless it ends the loop
at the end of the text, and the reader goes on from there with the attributes found. -/
structure ReadsOn (text : List Char) (found : List Attribute) (c : Cursor) (tail : TagTail)
    (turn : Turn TagState) (d : Cursor) : Prop where
  stands : d.StandsIn text
  cursor : turn.state.cursor = d.offset
  moves : d.rest.length < c.rest.length ∨ c.rest = [] ∧ turn = .done ⟨c.offset, found, false⟩
  again : ∀ t, turn = .again t → t.selfClosing = false ∧ tail = readAttributes t.attributes d
  done : ∀ t, turn = .done t → tail = ⟨t.attributes, t.selfClosing, d⟩

/-- Every turn over the attributes has a result.  The cases are those of the reader: the end of the
text, `>`, `/>`, a `/` by itself, and an attribute. -/
theorem exists_readsOn (h : c.StandsIn text) (found : List Attribute) :
    ∃ turn d, attributeTurn text ⟨c.offset, found, false⟩ = some turn ∧
      ReadsOn text found c (readAttributes found c) turn d := by
  have hd := h.skipWhile isTagBlank
  have hle := Cursor.length_rest_skipWhile_le isTagBlank c
  have hblanks := skipBlanks?_eq h
  -- an ASCII character behind the blanks is the byte there
  have hsign : ∀ z zs, z.toNat < 128 → (c.skipWhile isTagBlank).rest = z :: zs →
      byteAt? text (c.skipWhile isTagBlank).offset = some z ∧
        ((c.skipWhile isTagBlank).skip 1).offset = (c.skipWhile isTagBlank).offset + 1 :=
    fun z zs hz hrest =>
      ⟨(hd.byteAt?_eq_some_iff hz).mpr (congrArg List.head? hrest), Cursor.offset_skip_one hrest hz⟩
  fun_cases readAttributes found c with
  | case1 c' hrest =>
      refine ⟨.done ⟨c'.offset, found, false⟩, c', ?_, hd, rfl, ?_, by simp, by simp⟩
      · simp [attributeTurn, hblanks, hd.byteAt?_of_nil hrest, c']
      · cases hnil : c.rest with
        | nil => simp [c', Cursor.skipWhile, Cursor.skip, hnil]
        | cons x xs => simp [hrest]
  | case2 c' xs hrest =>
      obtain ⟨hx, hone⟩ := hsign _ xs (by decide) hrest
      rw [hrest, ← Cursor.rest_skip_one hrest] at hle
      refine ⟨.done ⟨(c'.skip 1).offset, found, false⟩, c'.skip 1, ?_, hd.skip 1, rfl,
        .inl hle, by simp, by simp⟩
      simp [attributeTurn, hblanks, hx, hone, c']
  | case3 c' xs hhead hrest =>
      obtain ⟨hx, hone⟩ := hsign _ xs (by decide) hrest
      rw [← Cursor.rest_skip_one hrest] at hhead
      have hy := ((hd.skip 1).byteAt?_eq_some_iff (by decide)).mpr hhead
      obtain ⟨ys, hys⟩ := List.head?_eq_some_iff.mp hhead
      have htwo := Cursor.offset_skip_one hys (by decide)
      rw [Cursor.skip_skip, hone] at htwo
      rw [hone] at hy
      refine ⟨.done ⟨(c'.skip 2).offset, found, true⟩, c'.skip 2, ?_, hd.skip 2, rfl,
        .inl ?_, by simp, by simp⟩
      · simp [attributeTurn, hblanks, hx, hy, htwo, c']
      · rw [hrest, List.length_cons] at hle
        rw [Cursor.length_rest_skip, hrest, List.length_cons]
        omega
  | case4 c' xs hhead hrest =>
      obtain ⟨hx, hone⟩ := hsign _ xs (by decide) hrest
      have hrest' : (c'.skip 1).rest = xs := Cursor.rest_skip_one hrest
      have hy := (hd.skip 1).byteAt?_eq_some_iff (show '>'.toNat < 128 by decide)
      rw [hone, hrest'] at hy
      rw [hrest, ← hrest'] at hle
      refine ⟨.again ⟨(c'.skip 1).offset, found, false⟩, c'.skip 1, ?_, hd.skip 1, rfl,
        .inl hle, by simp, by simp⟩
      simp [attributeTurn, hblanks, hx, hy, hhead, hone, c']
  | case5 c' x xs hrest hclose hslash read found' =>
      have hne : c'.rest ≠ [] := by simp [hrest]
      obtain ⟨y, hy, halike⟩ := hd.exists_byteAt? hrest
      obtain ⟨-, -, -, hafter⟩ := placed_readAttribute hd hne
      have hlt := length_rest_readAttribute_lt c' hne
      have hread := attributeAt?_eq hd hrest
      rw [← halike.eq_iff (by decide)] at hclose hslash
      refine ⟨.again ⟨read.2.offset, found', false⟩, read.2, ?_, hafter, rfl,
        .inl (Nat.lt_of_lt_of_le hlt hle), by simp, by simp⟩
      simp only [attributeTurn, hblanks, hy, hread, hclose, hslash, Option.bind_eq_bind,
        Option.bind_some, if_false]
      rfl

/-- The loop over the attributes of a tag ends, with what the reader by characters finds, when it
has more turns than there are characters left. -/
theorem run_attributeTurn {n : Nat} (h : c.StandsIn text) (hn : c.rest.length < n)
    (found : List Attribute) :
    Turn.run (attributeTurn text) n ⟨c.offset, found, false⟩ =
      some ⟨(readAttributes found c).after.offset, (readAttributes found c).attributes,
        (readAttributes found c).selfClosing⟩ := by
  induction n generalizing c found with
  | zero => contradiction
  | succ n ih =>
      obtain ⟨turn, d, hturn, hreads⟩ := exists_readsOn h found
      cases turn with
      | done t =>
          rw [Turn.run_of_done hturn, hreads.done t rfl, ← hreads.cursor]
          rfl
      | again t =>
          obtain ⟨hopen, htail⟩ := hreads.again t rfl
          obtain ⟨cursor, found', closing⟩ := t
          obtain rfl : cursor = d.offset := hreads.cursor
          obtain rfl : closing = false := hopen
          have hlt : d.rest.length < c.rest.length := hreads.moves.resolve_right (by simp)
          rw [Turn.run_of_again hturn, htail]
          exact ih hreads.stands (by omega) found'

/-! ### Markup -/

/-- So is the name of a tag. -/
theorem tagStart?_eq (h : c.StandsIn text) (hrest : c.rest = '<' :: xs) :
    tagStart? text c.offset = some (lowerCase (xs.takeWhile isTagNamePart),
      ⟨(c.skip ((xs.takeWhile isTagNamePart).length + 1)).offset, [], false⟩) := by
  have hread := (h.skip 1).readWhile?_eq isAsciiTest_isTagNamePart
  rw [Cursor.offset_skip_one hrest (by decide), Cursor.skipWhile, Cursor.skip_skip,
    Cursor.rest_skip_one hrest, Nat.add_comm 1] at hread
  rw [tagStart?, hread]
  rfl

/-- So is a raw body. -/
theorem rawTextStop?_eq (h : c.StandsIn text) (name : String) :
    rawTextStop? text name c.offset = some (skipRawText name c).offset := by
  simp only [rawTextStop?, h.tailAt?_eq, Option.map_some, find?, skipRawText]
  cases indexOf? ('<' :: '/' :: name.toList) (c.rest.map Char.toLower) with
  | none => simp [h.offset_skipAll]
  | some n =>
      have hlower := byteLength_lowerCase (c.rest.take n)
      rw [lowerCase, byteLength_ofList] at hlower
      simp [Cursor.skip, ← List.map_take, hlower]

/-- A start tag read by bytes is the start tag read by characters. -/
theorem startTagAt?_eq (h : c.StandsIn text) (hrest : c.rest = '<' :: xs) :
    startTagAt? text c.offset = some ((readStartTag c).1, (readStartTag c).2.offset) := by
  have hdrop : c.rest.drop 1 = xs := by rw [hrest]; rfl
  have hname : (c.skip ((xs.takeWhile isTagNamePart).length + 1)).StandsIn text := h.skip _
  obtain ⟨-, hafter, -⟩ :=
    attributesIn_readAttributes [] _ hname trivial (.inl (Nat.zero_le _))
  simp only [startTagAt?, tagStart?_eq h hrest, Option.bind_eq_bind, Option.bind_some,
    run_attributeTurn hname hname.length_rest_lt, readStartTag, hdrop]
  split
  · rw [rawTextStop?_eq hafter]
    rfl
  · rfl

/-- So is an end tag. -/
theorem endTagAt?_eq (h : c.StandsIn text) (hrest : c.rest = '<' :: '/' :: xs) :
    endTagAt? text c.offset = some ((readEndTag c).1, (readEndTag c).2.offset) := by
  have hskip : (c.skip 2).offset = c.offset + 2 :=
    Cursor.offset_skip_length_append (show c.rest = ['<', '/'] ++ xs from hrest)
  have hread := (h.skip 2).readWhile?_eq isAsciiTest_isTagNamePart
  rw [hskip, Cursor.skipWhile, Cursor.skip_skip, Nat.add_comm 2] at hread
  simp only [endTagAt?, hread, Option.bind_eq_bind, Option.bind_some, (h.skip _).skipPast?_eq]
  rfl

/-- What a `<` starts, read by bytes, is what it starts read by characters. -/
theorem markupAt?_eq (h : c.StandsIn text) (hrest : c.rest = '<' :: xs) :
    markupAt? text c.offset = some ((readMarkup? c).map fun read => (read.1, read.2.offset)) := by
  have hone := Cursor.offset_skip_one hrest (by decide)
  have hskip : (c.skip 1).StandsIn text := h.skip 1
  have hdrop : (c.skip 1).rest = xs := Cursor.rest_skip_one hrest
  have hdrop' : c.rest.drop 1 = xs := hdrop
  simp only [markupAt?, h.tailAt?_eq, Option.bind_eq_bind, Option.bind_some, readMarkup?, hdrop']
  cases xs with
  | nil =>
      have hbyte := hskip.byteAt?_of_nil hdrop
      rw [hone] at hbyte
      simp [hbyte]
  | cons x ys =>
      obtain ⟨y, hy, halike⟩ := hskip.exists_byteAt? hdrop
      have hbang := halike.eq_iff (show '!'.toNat < 128 by decide)
      have hquestion := halike.eq_iff (show '?'.toNat < 128 by decide)
      have hslash := halike.eq_iff (show '/'.toNat < 128 by decide)
      have halpha := halike _ .isAlpha
      rw [hone] at hy
      have hprefix : (x = '!' ∧ ['<', '!', '-', '-'].isPrefixOf ('<' :: x :: ys) = true) ↔
          (x = '!' ∧ ['-', '-'].isPrefixOf ys = true) := by
        refine and_congr_right ?_
        rintro rfl
        exact Iff.rfl
      have htwo : x.toNat < 128 → (c.skip 2).offset = c.offset + 2 := by
        intro hx
        have hoffset := Cursor.offset_skip_one hdrop hx
        rwa [Cursor.skip_skip, hone] at hoffset
      simp only [hy, hbang, hquestion, hslash, halpha, hrest, hprefix]
      by_cases hcomment : x = '!' ∧ ['-', '-'].isPrefixOf ys = true
      · obtain ⟨rfl, hdashes⟩ := hcomment
        obtain ⟨zs, rfl⟩ := List.isPrefixOf_iff_prefix.mp hdashes
        have hfour : (c.skip 4).offset = c.offset + 4 :=
          Cursor.offset_skip_length_append (show c.rest = ['<', '!', '-', '-'] ++ zs from hrest)
        rw [if_pos ⟨rfl, hdashes⟩, if_pos ⟨rfl, hdashes⟩, ← hfour, (h.skip 4).skipPast?_eq]
        rfl
      rw [if_neg hcomment, if_neg hcomment]
      by_cases hdeclaration : x = '!' ∨ x = '?'
      · have hx : x.toNat < 128 := by obtain rfl | rfl := hdeclaration <;> decide
        rw [if_pos hdeclaration, if_pos hdeclaration, ← htwo hx, (h.skip 2).skipPast?_eq]
        rfl
      rw [if_neg hdeclaration, if_neg hdeclaration]
      by_cases hclosing : x = '/'
      · obtain rfl := hclosing
        have hletter := (h.skip 2).any_byteAt? .isAlpha
        have hys : (c.skip 2).rest = ys := by
          rw [← Cursor.skip_skip 1 1, Cursor.rest_skip_one hdrop]
        rw [htwo (by decide), hys] at hletter
        rw [if_pos rfl, if_pos rfl, hletter]
        split
        · rw [endTagAt?_eq h hrest]
          rfl
        · rfl
      rw [if_neg hclosing, if_neg hclosing]
      split
      · rw [startTagAt?_eq h hrest]
        rfl
      · rfl

/-! ### The whole template -/

/-- The text from a cursor on, up to the next `<`. -/
theorem nextBracket?_cases (h : c.StandsIn text) :
    '<' ∉ c.rest ∧ nextBracket? text c.offset = some none ∨
      ∃ content xs, c.rest = content ++ '<' :: xs ∧ '<' ∉ content ∧
        nextBracket? text c.offset = some (some (c.skip content.length).offset) := by
  simp only [nextBracket?, h.tailAt?_eq, Option.map_some, find?]
  cases hindex : indexOf? ['<'] c.rest with
  | none => exact .inl ⟨notMem_of_indexOf?_eq_none hindex, rfl⟩
  | some n =>
      have hcontent := notMem_take_of_indexOf? hindex
      obtain ⟨content, xs, hrest, rfl⟩ := eq_append_of_indexOf? hindex
      refine .inr ⟨content, xs, by simpa using hrest, ?_, rfl⟩
      simpa [hrest] using hcontent

end ByteScan

namespace MarkupEvent

variable {text : List Char} {c : Cursor} {start : Nat} {pending content xs : List Char}

/-- More text behind the pending text. -/
theorem Pending.append (h : Pending text start pending c) (hrest : c.rest = content ++ xs) :
    Pending text start (pending ++ content) (c.skip content.length) := by
  obtain ⟨before, htext, hbefore, hoffset⟩ := h
  refine ⟨before, ?_, hbefore, ?_⟩
  · simp [htext, hrest, Cursor.skip]
  · rw [Cursor.offset_skip_length_append hrest, hoffset, byteCount_append, Nat.add_assoc]

end MarkupEvent

namespace ByteScan

open MarkupEvent

variable {text : List Char}

/-- A scan by characters under way: the text read since `start` belongs to no node yet, and
`builder` holds the nodes before it. -/
structure Position where
  start : Nat
  pending : List Char
  cursor : Cursor
  builder : ForestBuilder

namespace Position

/-- The same place in the scan by bytes. -/
def state (p : Position) : ScanState := ⟨p.cursor.offset, p.start, p.builder⟩

/-- The forest once the scan by characters has gone on to the end. -/
def forest (p : Position) : ForestBuilder :=
  (scanFrom p.start p.pending p.cursor).foldl ForestBuilder.step p.builder

/-- The text read stands in the whole text. -/
def In (text : List Char) (p : Position) : Prop := Pending text p.start p.pending p.cursor

/-- The start of a scan. -/
def first (text : List Char) : Position := ⟨0, [], .ofText text, .empty⟩

/-- The scan once more text has been read. -/
def read (p : Position) (content : List Char) : Position :=
  ⟨p.start, p.pending ++ content, p.cursor.skip content.length, p.builder⟩

/-- The scan begins inside the text. -/
theorem in_first (text : List Char) : (first text).In text :=
  .nil (Cursor.standsIn_ofText text)

variable {p : Position} {content xs : List Char}

/-- Text that is read leads to a place inside the text. -/
theorem In.read (h : p.In text) (hrest : p.cursor.rest = content ++ xs) :
    (p.read content).In text :=
  Pending.append h hrest

theorem cursor_read (hrest : p.cursor.rest = content ++ xs) :
    (p.read content).cursor = ⟨p.cursor.offset + byteCount content, xs⟩ := by
  simp [read, Cursor.skip, hrest]

/-- Reading text that is no markup leaves the forest as it is. -/
theorem forest_read (hrest : p.cursor.rest = content ++ xs) (hcontent : '<' ∉ content) :
    (p.read content).forest = p.forest := by
  have hscan := scanFrom_append hcontent p.start p.cursor.offset p.pending xs
  rw [← hrest, ← cursor_read hrest] at hscan
  exact congrArg (List.foldl ForestBuilder.step p.builder) hscan.symm

/-- A `<` that starts no markup leaves the forest as it will be. -/
theorem forest_read_bracket (hrest : p.cursor.rest = '<' :: xs)
    (hread : readMarkup? p.cursor = none) : (p.read ['<']).forest = p.forest := by
  have hcursor : p.cursor = ⟨p.cursor.offset, '<' :: xs⟩ := by rw [← hrest]
  have hscan : scanFrom p.start p.pending p.cursor =
      scanFrom p.start (p.pending ++ ['<']) (p.read ['<']).cursor := by
    rw [cursor_read hrest, hcursor]
    exact scanFrom_of_readMarkup?_eq_none (hcursor ▸ hread)
  exact congrArg (List.foldl ForestBuilder.step p.builder) hscan.symm

/-- Closing the pending text by bytes adds the text event of the scan by characters. -/
theorem flush?_eq (h : p.In text) :
    p.state.flush? text p.cursor.offset =
      some ((ofText p.start p.pending).foldl ForestBuilder.step p.builder) := by
  have hslice := h.occursAt.slice?_eq
  have hoffset := h.offset_eq
  rw [ScanState.flush?, state, ofText, ← hoffset]
  by_cases hempty : p.pending = []
  · simp [hempty]
  · have hpos : 0 < byteCount p.pending :=
      Nat.pos_of_ne_zero (mt byteCount_eq_zero_iff.mp hempty)
    simp [hempty, hpos, hslice, ForestBuilder.step]

/-- The scan behind what a `<` has started. -/
def next (p : Position) (event : Option MarkupEvent) (after : Cursor) : Position :=
  let builder := (ofText p.start p.pending).foldl ForestBuilder.step p.builder
  ⟨after.offset, [], after, event.elim builder builder.step⟩

/-- Markup that is read leaves the forest as it will be. -/
theorem forest_next {event : Option MarkupEvent} {after : Cursor}
    (hrest : p.cursor.rest = '<' :: xs) (hread : readMarkup? p.cursor = some (event, after)) :
    (p.next event after).forest = p.forest := by
  have hcursor : p.cursor = ⟨p.cursor.offset, '<' :: xs⟩ := by rw [← hrest]
  have hscan : scanFrom p.start p.pending p.cursor =
      ofText p.start p.pending ++ event.toList ++ scanFrom after.offset [] after := by
    rw [hcursor]
    exact scanFrom_of_readMarkup? (hcursor ▸ hread)
  rw [forest, forest, hscan, List.foldl_append, List.foldl_append]
  cases event <;> rfl

/-- What a turn of the scan does: it ends the loop where there is no `<` any more and only the
pending text is left, or it moves to another position with the same forest. -/
theorem scanTurn_cases (h : p.In text) :
    nextBracket? text p.cursor.offset = some none ∧ scanTurn text p.state = some (.done p.state) ∧
        p.state.flush? text (byteCount text) = some p.forest ∨
      ∃ q : Position, scanTurn text p.state = some (.again q.state) ∧ q.In text ∧
        q.cursor.rest.length < p.cursor.rest.length ∧ q.forest = p.forest := by
  obtain ⟨hnone, hnext⟩ | ⟨content, xs, hrest, hcontent, hnext⟩ := nextBracket?_cases h.standsIn
  · have hend : p.cursor.rest = p.cursor.rest ++ [] := (List.append_nil _).symm
    refine .inl ⟨hnext, by simp [scanTurn, state, hnext], ?_⟩
    calc p.state.flush? text (byteCount text)
        = (p.read p.cursor.rest).state.flush? text (p.read p.cursor.rest).cursor.offset := by
          rw [← h.standsIn.offset_skipAll]
          rfl
      _ = some (p.read p.cursor.rest).forest := by
          rw [flush?_eq (h.read hend), forest, cursor_read hend, scanFrom]
      _ = some p.forest := by rw [forest_read hend hnone]
  · have hd := h.read hrest
    have hdrest : (p.read content).cursor.rest = '<' :: xs := by rw [cursor_read hrest]
    have hlength : xs.length < p.cursor.rest.length := by simp [hrest]; omega
    have hnext : nextBracket? text p.state.cursor = some (some (p.read content).cursor.offset) :=
      hnext
    have hmarkup := markupAt?_eq hd.standsIn hdrest
    have hforest := forest_read hrest hcontent
    cases hread : readMarkup? (p.read content).cursor with
    | none =>
        have hone := Cursor.offset_skip_one hdrest (by decide)
        refine .inr ⟨(p.read content).read ['<'], ?_, hd.read hdrest, ?_, ?_⟩
        · simp only [scanTurn, hnext, hmarkup, hread, Option.bind_eq_bind, Option.bind_some,
            Option.map_none, ← hone]
          rfl
        · rw [cursor_read hdrest]
          exact hlength
        · rw [forest_read_bracket hdrest hread, hforest]
    | some found =>
        obtain ⟨event, after⟩ := found
        obtain ⟨-, hafter, -⟩ := placed_readMarkup? hd.standsIn hdrest hread
        have hlt := length_rest_readMarkup?_lt (by simp [hdrest]) hread
        have hflush : p.state.flush? text (p.read content).cursor.offset = _ := flush?_eq hd
        refine .inr ⟨(p.read content).next event after, ?_, .nil hafter, ?_, ?_⟩
        · simp only [scanTurn, hnext, hmarkup, hread, Option.bind_eq_bind, Option.bind_some,
            Option.map_some, hflush]
          rfl
        · rw [hdrest, List.length_cons] at hlt
          exact Nat.lt_of_le_of_lt (Nat.le_of_lt_succ hlt) hlength
        · rw [forest_next hdrest hread, hforest]

/-- The loop over a template ends, with all nodes but the text that is left, when it has more turns
than there are characters left. -/
theorem run_scanTurn {n : Nat} (h : p.In text) (hn : p.cursor.rest.length < n) :
    ∃ s, Turn.run (scanTurn text) n p.state = some s ∧
      s.flush? text (byteCount text) = some p.forest := by
  induction n generalizing p with
  | zero => contradiction
  | succ n ih =>
      obtain ⟨-, hturn, hflush⟩ | ⟨q, hturn, hq, hlt, hforest⟩ := scanTurn_cases h
      · exact ⟨p.state, Turn.run_of_done hturn n, hflush⟩
      · rw [Turn.run_of_again hturn, ← hforest]
        exact ih hq (by omega)

end Position

/-- The scan by bytes has a result, and it is the forest of the template. -/
theorem parse?_eq (source : String) : parse? source = some (Node.parse source) := by
  have hfirst := Position.in_first source.toList
  obtain ⟨s, hrun, hflush⟩ := Position.run_scanTurn hfirst hfirst.standsIn.length_rest_lt
  have hstart : (Position.first source.toList).state = .start := rfl
  rw [hstart, ← byteLength] at hrun
  rw [← byteLength] at hflush
  simp only [parse?, hrun, hflush, Option.bind_eq_bind, Option.bind_some]
  rfl

end ByteScan

end TemplateMigration
