import Mathlib.Data.List.Induction
import Mathlib.Order.Bounds.Defs
import TemplateMigration.Proofs.Text.Boundary
import TemplateMigration.Text.Line

/-!
# TemplateMigration.Proofs.Text.LineIndex

Offsets as lines and characters.

Two ways lead from a byte offset to its place.  One walks over the text (`LinePosition.ofOffset`).
The other makes an index of the bytes after the line feeds once, finds the line of an offset by
halving, and counts the characters from the start of that line (`LineIndex.position?`); it has no
result where a line start is not a character boundary or no line start comes before the offset.
They agree on every offset (`position?_ofText`), because both count the characters that begin
before it (`exists_begun`).  From there it follows that boundaries are placed exactly and in
order, and that an offset inside a character is placed after that character.
-/

namespace TemplateMigration

/-! ## The place after a text -/

namespace LinePosition

/-- The order of places: by line, then by character. -/
def Precedes (p q : LinePosition) : Prop :=
  p.line < q.line ∨ p.line = q.line ∧ p.character < q.character

/-- The place at the end of a text. -/
def after (text : List Char) : LinePosition := text.foldl next start

variable {p q r : LinePosition}

theorem Precedes.trans (h : p.Precedes q) (h' : q.Precedes r) : p.Precedes r := by
  unfold Precedes at *
  omega

theorem Precedes.ne (h : p.Precedes q) : p ≠ q := by
  intro heq
  unfold Precedes at h
  subst heq
  omega

/-- Each character leads to a later place. -/
theorem precedes_next (p : LinePosition) (c : Char) : p.Precedes (p.next c) := by
  by_cases hc : c = '\n' <;> simp [Precedes, next, hc]

theorem after_concat (text : List Char) (c : Char) : after (text ++ [c]) = (after text).next c := by
  simp [after]

/-- Each character moves the place forward. -/
theorem precedes_after_append (before : List Char) {more : List Char} (hmore : more ≠ []) :
    (after before).Precedes (after (before ++ more)) := by
  induction more using List.reverseRecOn with
  | nil => contradiction
  | append_singleton more c ih =>
      rw [← List.append_assoc, after_concat]
      have hlast := precedes_next (after (before ++ more)) c
      by_cases hempty : more = []
      · simpa [hempty] using hlast
      · exact (ih hempty).trans hlast

/-- A new line begins after a text: it is empty or ends with a line feed. -/
def LineBeginsAfter (earlier : List Char) : Prop :=
  earlier = [] ∨ earlier.getLast? = some '\n'

/-- A text divides into whole lines and a part of one more. -/
theorem exists_current_line (before : List Char) : ∃ earlier current,
    before = earlier ++ current ∧ '\n' ∉ current ∧ LineBeginsAfter earlier := by
  induction before using List.reverseRecOn with
  | nil => exact ⟨[], [], rfl, by simp, .inl rfl⟩
  | append_singleton before c ih =>
      by_cases hc : c = '\n'
      · exact ⟨before ++ [c], [], by simp, by simp, .inr (by simp [hc])⟩
      · obtain ⟨earlier, current, rfl, hcurrent, hearlier⟩ := ih
        exact ⟨earlier, current ++ [c], by simp, by simp [hcurrent, Ne.symm hc], hearlier⟩

/-- A line is left by its line feed only. -/
theorem after_append_of_notMem (earlier : List Char) {current : List Char}
    (hcurrent : '\n' ∉ current) : after (earlier ++ current) =
      ⟨(after earlier).line, (after earlier).character + current.length⟩ := by
  induction current using List.reverseRecOn with
  | nil => simp
  | append_singleton current c ih =>
      simp only [List.mem_append, List.mem_singleton, not_or] at hcurrent
      rw [← List.append_assoc, after_concat, ih hcurrent.1, next, if_neg (Ne.symm hcurrent.2)]
      simp [Nat.add_assoc]

/-- The line of a place is the number of line feeds before it. -/
theorem line_after (text : List Char) : (after text).line = text.count '\n' := by
  induction text using List.reverseRecOn with
  | nil => rfl
  | append_singleton text c ih =>
      rw [after_concat, next]
      by_cases hc : c = '\n' <;> simp [hc, ih]

/-- A line begins with its first character. -/
theorem character_after_of_lineBeginsAfter {earlier : List Char} (h : LineBeginsAfter earlier) :
    (after earlier).character = 0 := by
  obtain rfl | hlast := h
  · rfl
  · obtain ⟨lines, rfl⟩ := List.getLast?_eq_some_iff.mp hlast
    simp [after_concat, next]

/-- The place after a text counts its line feeds, and the characters since the last one. -/
theorem after_eq {earlier current : List Char} (hearlier : LineBeginsAfter earlier)
    (hcurrent : '\n' ∉ current) : after (earlier ++ current) =
      ⟨(earlier ++ current).count '\n', current.length⟩ := by
  rw [← line_after, after_append_of_notMem earlier hcurrent,
    character_after_of_lineBeginsAfter hearlier]
  simp

/-! ## The place of an offset -/

/-- A place is found in two parts. -/
theorem advance_add (p : LinePosition) (before rest : List Char) (n : Nat) :
    p.advance (byteCount before + n) (before ++ rest) = (before.foldl next p).advance n rest := by
  induction before generalizing p with
  | nil => simp
  | cons c before ih =>
      have hpos : 0 < c.utf8Size := c.utf8Size_pos
      obtain ⟨k, hk⟩ : ∃ k, byteCount (c :: before) + n = k + 1 :=
        ⟨byteCount (c :: before) + n - 1, by rw [byteCount_cons]; omega⟩
      have hrest : k + 1 - c.utf8Size = byteCount before + n := by
        rw [byteCount_cons] at hk
        omega
      rw [hk, List.cons_append, advance, hrest, ih, List.foldl_cons]

/-- A boundary is placed where the text before it ends. -/
theorem ofOffset_byteCount {source : String} {before rest : List Char}
    (h : source.toList = before ++ rest) : ofOffset source (byteCount before) = after before := by
  have := advance_add start before rest 0
  simpa [ofOffset, h, advance, after] using this

/-- An offset inside a character is placed after that character. -/
theorem ofOffset_inside {source : String} {before rest : List Char} {c : Char} {n : Nat}
    (h : source.toList = before ++ c :: rest) (hpos : 0 < n) (hle : n ≤ c.utf8Size) :
    ofOffset source (byteCount before + n) = after (before ++ [c]) := by
  obtain ⟨k, rfl⟩ : ∃ k, n = k + 1 := ⟨n - 1, by omega⟩
  have hrest : k + 1 - c.utf8Size = 0 := by omega
  rw [ofOffset, h, advance_add, advance, hrest, advance, after_concat, after]

/-- Everything past the end is placed at the end. -/
theorem ofOffset_of_le {source : String} {n : Nat} (h : byteLength source ≤ n) :
    ofOffset source n = after source.toList := by
  obtain ⟨k, rfl⟩ := Nat.exists_eq_add_of_le h
  have := advance_add start source.toList [] k
  rw [List.append_nil, ← byteLength] at this
  rw [ofOffset, this]
  cases k <;> simp [advance, after]

end LinePosition

/-! ## An index of line starts -/

/-- The byte offset of each character of a text that starts at an offset. -/
def charStarts (offset : Nat) : List Char → List Nat
  | [] => []
  | c :: cs => offset :: charStarts (offset + c.utf8Size) cs

/-- The offsets after the line feeds among bytes that start at an offset. -/
def lineStartsFrom (offset : Nat) : List UInt8 → List Nat
  | [] => []
  | b :: bs =>
      if b = 10 then (offset + 1) :: lineStartsFrom (offset + 1) bs
      else lineStartsFrom (offset + 1) bs

/-- Where a test begins to fail along a list, searched by halving between two indices. -/
def partitionPoint {α : Type} (p : α → Bool) (xs : List α) (low high : Nat) : Nat :=
  if low < high then
    let middle := (low + high) / 2
    if xs[middle]?.any p then partitionPoint p xs (middle + 1) high
    else partitionPoint p xs low middle
  else low
termination_by high - low

/-- A text with the byte offsets of its lines. -/
structure LineIndex where
  source : String
  lineStarts : List Nat

namespace LineIndex

/-- The index of a text. -/
def ofText (source : String) : LineIndex := ⟨source, 0 :: lineStartsFrom 0 (utf8 source.toList)⟩

/-- The number of lines. -/
def lineCount (index : LineIndex) : Nat := index.lineStarts.length

/-- The place of an offset.  There is none if no line starts before the offset, or if the line that
does cannot be cut off the text. -/
def position? (index : LineIndex) (offset : Nat) : Option LinePosition :=
  let offset := min offset (byteLength index.source)
  match partitionPoint (· ≤ offset) index.lineStarts 0 index.lineStarts.length with
  | 0 => none
  | line + 1 =>
      index.lineStarts[line]?.bind fun lineStart =>
        (cut? lineStart index.source.toList).map fun (_, rest) =>
          ⟨line, ((charStarts lineStart rest).takeWhile (· < offset)).length⟩

end LineIndex

/-! ### Where characters start -/

/-- The characters of two parts start where they start in the whole. -/
theorem charStarts_append (offset : Nat) (xs ys : List Char) :
    charStarts offset (xs ++ ys) =
      charStarts offset xs ++ charStarts (offset + byteCount xs) ys := by
  induction xs generalizing offset with
  | nil => simp [charStarts]
  | cons c xs ih => simp [charStarts, ih, Nat.add_assoc]

@[simp] theorem length_charStarts (offset : Nat) (cs : List Char) :
    (charStarts offset cs).length = cs.length := by
  induction cs generalizing offset with
  | nil => rfl
  | cons c cs ih => simp [charStarts, ih]

/-- No character starts before the text. -/
theorem le_of_mem_charStarts {offset s : Nat} {cs : List Char} (h : s ∈ charStarts offset cs) :
    offset ≤ s := by
  induction cs generalizing offset with
  | nil => contradiction
  | cons c cs ih =>
      obtain rfl | hmem := List.mem_cons.mp h
      · exact Nat.le_refl _
      · exact Nat.le_trans (Nat.le_add_right _ _) (ih hmem)

/-- The characters that begin before an offset are the first ones of a text, and a walk up to the
offset passes just these. -/
theorem exists_begun (p : LinePosition) (base n : Nat) {text : List Char}
    (h : n ≤ byteCount text) : ∃ begun rest, text = begun ++ rest ∧ n ≤ byteCount begun ∧
      (∀ s ∈ charStarts base begun, s < base + n) ∧
      p.advance n text = begun.foldl LinePosition.next p := by
  induction text generalizing p base n with
  | nil =>
      obtain rfl : n = 0 := by simpa using h
      exact ⟨[], [], rfl, by simp, by simp [charStarts], rfl⟩
  | cons c text ih =>
      cases n with
      | zero => exact ⟨[], c :: text, rfl, by simp, by simp [charStarts], rfl⟩
      | succ n =>
          rw [byteCount_cons] at h
          obtain ⟨begun, rest, rfl, hle, hstarts, hplace⟩ :=
            ih (p.next c) (base + c.utf8Size) (n + 1 - c.utf8Size) (by omega)
          have hbegun : ∀ s ∈ charStarts base (c :: begun), s < base + (n + 1) := by
            intro s hs
            obtain rfl | hs := List.mem_cons.mp hs
            · omega
            · have hge := le_of_mem_charStarts hs
              have hlt := hstarts s hs
              omega
          exact ⟨c :: begun, rest, rfl, by rw [byteCount_cons]; omega, hbegun, hplace⟩

/-- Counting characters up to an offset stops after those that begin before it. -/
theorem length_takeWhile_charStarts {base offset : Nat} {begun : List Char} (rest : List Char)
    (hbegun : ∀ s ∈ charStarts base begun, s < offset) (hle : offset ≤ base + byteCount begun) :
    ((charStarts base (begun ++ rest)).takeWhile (· < offset)).length = begun.length := by
  have hrest : (charStarts (base + byteCount begun) rest).takeWhile (· < offset) = [] := by
    cases rest with
    | nil => rfl
    | cons c rest => simp [charStarts, Nat.not_lt.mpr hle]
  rw [charStarts_append, List.takeWhile_append_of_pos (by simpa using hbegun), hrest]
  simp

/-! ### Where lines start -/

/-- The lines of two parts start where they start in the whole. -/
theorem lineStartsFrom_append (offset : Nat) (xs ys : List UInt8) :
    lineStartsFrom offset (xs ++ ys) =
      lineStartsFrom offset xs ++ lineStartsFrom (offset + xs.length) ys := by
  induction xs generalizing offset with
  | nil => simp [lineStartsFrom]
  | cons b xs ih =>
      by_cases hb : b = 10 <;> simp [lineStartsFrom, hb, ih, Nat.add_assoc, Nat.add_comm 1]

/-- Without a line feed no line starts. -/
theorem lineStartsFrom_eq_nil {offset : Nat} {bs : List UInt8} (h : 10 ∉ bs) :
    lineStartsFrom offset bs = [] := by
  induction bs generalizing offset with
  | nil => rfl
  | cons b bs ih =>
      simp only [List.mem_cons, not_or] at h
      rw [lineStartsFrom, if_neg (Ne.symm h.1), ih h.2]

/-- Only a line feed has the byte of a line feed. -/
theorem feed_notMem_utf8EncodeChar {c : Char} (hc : c ≠ '\n') : 10 ∉ String.utf8EncodeChar c := by
  intro hmem
  by_cases hlt : c.toNat < 128
  · rw [utf8EncodeChar_of_lt hlt, List.mem_singleton] at hmem
    have hbyte := congrArg UInt8.toNat hmem
    rw [UInt8.toNat_ofNat', Nat.mod_eq_of_lt (Nat.lt_trans hlt (by decide))] at hbyte
    exact hc (Char.ext (UInt32.toNat_inj.mp hbyte.symm))
  · exact absurd (le_of_mem_utf8EncodeChar (Nat.le_of_not_lt hlt) hmem) (by decide)

/-- A line starts behind each line feed, and nowhere inside a character. -/
theorem lineStartsFrom_utf8_cons (offset : Nat) (c : Char) (cs : List Char) :
    lineStartsFrom offset (utf8 (c :: cs)) =
      (if c = '\n' then [offset + 1] else []) ++
        lineStartsFrom (offset + c.utf8Size) (utf8 cs) := by
  rw [utf8_cons, lineStartsFrom_append, String.length_utf8EncodeChar]
  by_cases hc : c = '\n'
  · subst hc
    rfl
  · rw [lineStartsFrom_eq_nil (feed_notMem_utf8EncodeChar hc), if_neg hc]

/-- There are as many further lines as there are line feeds. -/
@[simp] theorem length_lineStartsFrom_utf8 (offset : Nat) (cs : List Char) :
    (lineStartsFrom offset (utf8 cs)).length = cs.count '\n' := by
  induction cs generalizing offset with
  | nil => rfl
  | cons c cs ih =>
      by_cases hc : c = '\n' <;> simp [lineStartsFrom_utf8_cons, hc, ih]

/-- A line starts one byte after the start of a character. -/
theorem exists_charStart_of_mem {offset s : Nat} {cs : List Char}
    (h : s ∈ lineStartsFrom offset (utf8 cs)) : ∃ t ∈ charStarts offset cs, s = t + 1 := by
  induction cs generalizing offset with
  | nil => contradiction
  | cons c cs ih =>
      rw [lineStartsFrom_utf8_cons] at h
      obtain hfirst | hmore := List.mem_append.mp h
      · exact ⟨offset, by simp [charStarts], by split at hfirst <;> simp_all⟩
      · obtain ⟨t, ht, rfl⟩ := ih hmore
        exact ⟨t, List.mem_cons_of_mem _ ht, rfl⟩

/-- The last line of a text starts where its whole lines end. -/
theorem getLast?_lineStarts {earlier current : List Char}
    (hearlier : LinePosition.LineBeginsAfter earlier) (hcurrent : '\n' ∉ current) :
    (0 :: lineStartsFrom 0 (utf8 (earlier ++ current))).getLast? = some (byteCount earlier) := by
  have hnone : ∀ offset, lineStartsFrom offset (utf8 current) = [] := by
    simp [← List.length_eq_zero_iff, List.count_eq_zero, hcurrent]
  rw [utf8_append, lineStartsFrom_append, hnone, List.append_nil]
  obtain rfl | hlast := hearlier
  · rfl
  · obtain ⟨lines, rfl⟩ := List.getLast?_eq_some_iff.mp hlast
    have hfeed : lineStartsFrom (0 + (utf8 lines).length) (utf8 ['\n']) =
        [byteCount (lines ++ ['\n'])] := by
      simp [lineStartsFrom_utf8_cons, lineStartsFrom]
      rfl
    rw [utf8_append, lineStartsFrom_append, hfeed, ← List.cons_append, List.getLast?_concat]

/-! ### The search -/

section Search

variable {α : Type} {p : α → Bool} {xs ys : List α}

/-- In a list whose first members pass a test and whose others do not, the index decides. -/
theorem any_getElem?_append_iff (hxs : ∀ x ∈ xs, p x) (hys : ∀ y ∈ ys, p y = false) (i : Nat) :
    (xs ++ ys)[i]?.any p ↔ i < xs.length := by
  by_cases hi : i < xs.length
  · rw [List.getElem?_append_left hi, List.getElem?_eq_getElem hi]
    simp [hi, hxs]
  · rw [List.getElem?_append_right (Nat.le_of_not_lt hi)]
    cases hget : ys[i - xs.length]? with
    | none => simp [hi]
    | some y => simp [hi, hys y (List.mem_of_getElem? hget)]

/-- Halving finds the end of the first part, if the test holds on that part only. -/
theorem partitionPoint_append (hxs : ∀ x ∈ xs, p x) (hys : ∀ y ∈ ys, p y = false)
    {low high : Nat} (hlow : low ≤ xs.length) (hhigh : xs.length ≤ high) :
    partitionPoint p (xs ++ ys) low high = xs.length := by
  fun_induction partitionPoint p (xs ++ ys) low high with
  | case1 low high hlt middle hany ih =>
      exact ih ((any_getElem?_append_iff hxs hys middle).mp hany) hhigh
  | case2 low high hlt middle hany ih =>
      rw [any_getElem?_append_iff hxs hys middle] at hany
      exact ih hlow (Nat.le_of_not_lt hany)
  | case3 low high hge => omega

end Search

/-! ## The two ways agree -/

namespace LineIndex

open LinePosition

/-- A text has one line more than it has line feeds. -/
theorem lineCount_ofText (source : String) :
    (ofText source).lineCount = source.toList.count '\n' + 1 := by
  simp [lineCount, ofText]

/-- The starts of lines, told by how far the text has been read. -/
theorem lineStarts_ofText {source : String} {begun rest : List Char}
    (htext : source.toList = begun ++ rest) : (ofText source).lineStarts =
      (0 :: lineStartsFrom 0 (utf8 begun)) ++ lineStartsFrom (byteCount begun) (utf8 rest) := by
  simp [ofText, htext, lineStartsFrom_append]

/-- The search finds as many line starts as there are line feeds that begin before the offset, and
the start of the text. -/
theorem partitionPoint_lineStarts {source : String} {begun rest : List Char} {offset : Nat}
    (htext : source.toList = begun ++ rest) (hbegun : ∀ s ∈ charStarts 0 begun, s < offset)
    (hle : offset ≤ byteCount begun) :
    partitionPoint (· ≤ offset) (ofText source).lineStarts 0 (ofText source).lineStarts.length =
      begun.count '\n' + 1 := by
  have hbefore : ∀ s ∈ 0 :: lineStartsFrom 0 (utf8 begun), s ≤ offset := by
    intro s hs
    obtain rfl | hs := List.mem_cons.mp hs
    · exact Nat.zero_le _
    · obtain ⟨t, ht, rfl⟩ := exists_charStart_of_mem hs
      exact hbegun t ht
  have hbehind : ∀ s ∈ lineStartsFrom (byteCount begun) (utf8 rest), offset < s := by
    intro s hs
    obtain ⟨t, ht, rfl⟩ := exists_charStart_of_mem hs
    have := le_of_mem_charStarts ht
    omega
  rw [lineStarts_ofText htext, partitionPoint_append (by simpa using hbefore)
    (by simpa using hbehind) (Nat.zero_le _) (by simp)]
  simp

/-- The last line that begins before an offset is the last one of the characters that do. -/
theorem getElem?_lineStarts {source : String} {begun rest : List Char}
    (htext : source.toList = begun ++ rest) : (ofText source).lineStarts[begun.count '\n']? =
      (0 :: lineStartsFrom 0 (utf8 begun)).getLast? := by
  rw [lineStarts_ofText htext, List.getElem?_append_left (by simp), List.getLast?_eq_getElem?]
  simp

/-- The index places the offsets of a text where a walk over the text does. -/
theorem position?_ofText_of_le {source : String} {offset : Nat} (h : offset ≤ byteLength source) :
    (ofText source).position? offset = some (ofOffset source offset) := by
  obtain ⟨begun, rest, htext, hle, hbegun, hplace⟩ := exists_begun start 0 offset h
  rw [Nat.zero_add] at hbegun
  have hsearch := partitionPoint_lineStarts htext hbegun hle
  have hline := getElem?_lineStarts htext
  obtain ⟨earlier, current, rfl, hcurrent, hearlier⟩ := exists_current_line begun
  rw [getLast?_lineStarts hearlier hcurrent] at hline
  have hcut : cut? (byteCount earlier) source.toList = some (earlier, current ++ rest) := by
    rw [htext, List.append_assoc, cut?_append]
  have hcount : ((charStarts (byteCount earlier) (current ++ rest)).takeWhile (· < offset)).length =
      current.length := by
    rw [charStarts_append, Nat.zero_add] at hbegun
    exact length_takeWhile_charStarts rest (fun s hs => hbegun s (List.mem_append_right _ hs))
      (by simpa using hle)
  have hsource : (ofText source).source = source := rfl
  rw [ofOffset, hplace, ← after, after_eq hearlier hcurrent]
  simp only [position?, hsource, Nat.min_eq_left h, hsearch, hline, Option.bind_some, hcut,
    Option.map_some, hcount]

/-- The index places every offset where a walk over the text does. -/
theorem position?_ofText (source : String) (offset : Nat) :
    (ofText source).position? offset = some (ofOffset source offset) := by
  by_cases h : offset ≤ byteLength source
  · exact position?_ofText_of_le h
  · have hclamped : (ofText source).position? offset =
        (ofText source).position? (byteLength source) := by
      have hsource : (ofText source).source = source := rfl
      simp only [position?, hsource, Nat.min_self, Nat.min_eq_right (Nat.le_of_not_le h)]
    rw [hclamped, position?_ofText_of_le (Nat.le_refl _), ofOffset_of_le (Nat.le_refl _),
      ofOffset_of_le (Nat.le_of_not_le h)]

end LineIndex

/-! ## Boundaries are placed exactly -/

/-- A way to place the offsets of a text is exact. -/
structure PlacesExactly (text : List Char) (place : Nat → LinePosition) : Prop where
  /-- A boundary is placed by the line feeds before it, and by the characters between the last of
  them, or the start of the text, and the boundary. -/
  counts : ∀ before rest, text = before ++ rest → ∃ earlier current,
    before = earlier ++ current ∧ LinePosition.LineBeginsAfter earlier ∧ '\n' ∉ current ∧
      place (byteCount before) = ⟨before.count '\n', current.length⟩
  /-- Everything past the end is placed at the end. -/
  clamped : ∀ offset, byteCount text < offset → place offset = place (byteCount text)
  /-- Later boundaries have later places. -/
  increasing : ∀ a b, IsBoundary text a → IsBoundary text b → a < b → (place a).Precedes (place b)
  /-- Different boundaries have different places. -/
  injective : ∀ a b, IsBoundary text a → IsBoundary text b → place a = place b → a = b

namespace LinePosition

/-- Boundaries have different places, in the same order. -/
theorem precedes_ofOffset {source : String} {a b : Nat} (ha : IsBoundary source.toList a)
    (hb : IsBoundary source.toList b) (hlt : a < b) :
    (ofOffset source a).Precedes (ofOffset source b) := by
  obtain ⟨before, rest, htext, rfl⟩ := ha
  obtain ⟨before', rest', htext', rfl⟩ := hb
  rw [ofOffset_byteCount htext, ofOffset_byteCount htext']
  obtain ⟨more, rfl, -⟩ | ⟨more, rfl, -⟩ := List.append_eq_append_iff.mp (htext ▸ htext')
  · apply precedes_after_append
    intro hempty
    simp [hempty] at hlt
  · rw [byteCount_append] at hlt
    omega

/-- **Places are exact.**  The place of a boundary counts the line feeds before it and the
characters since the last of them; offsets past the end have the place of the end; along the
boundaries places increase.  An index of line starts gives these places, too, and has one line more
than the text has line feeds. -/
theorem ofOffset_placesExactly (source : String) :
    PlacesExactly source.toList (ofOffset source) ∧
      (∀ offset, (LineIndex.ofText source).position? offset = some (ofOffset source offset)) ∧
      (LineIndex.ofText source).lineCount = source.toList.count '\n' + 1 ∧
      lineCount source = (LineIndex.ofText source).lineCount := by
  have hexact : PlacesExactly source.toList (ofOffset source) := {
    counts := by
      intro before rest htext
      obtain ⟨earlier, current, rfl, hcurrent, hearlier⟩ := exists_current_line before
      exact ⟨earlier, current, rfl, hearlier, hcurrent,
        (ofOffset_byteCount htext).trans (after_eq hearlier hcurrent)⟩
    clamped := by
      intro offset hlt
      rw [ofOffset_of_le (Nat.le_of_lt hlt), ← byteLength, ofOffset_of_le (Nat.le_refl _)]
    increasing := fun a b ha hb hlt => precedes_ofOffset ha hb hlt
    injective := by
      intro a b ha hb heq
      obtain hlt | rfl | hlt := Nat.lt_trichotomy a b
      · exact absurd heq (precedes_ofOffset ha hb hlt).ne
      · rfl
      · exact absurd heq.symm (precedes_ofOffset hb ha hlt).ne }
  have hlines := LineIndex.lineCount_ofText source
  exact ⟨hexact, LineIndex.position?_ofText source, hlines, by rw [hlines, lineCount]⟩

/-! ## Offsets inside a character -/

/-- The start of the character that holds a byte: the last boundary up to its offset.  At a
boundary it is the boundary itself. -/
def IsCharStart (text : List Char) (offset start : Nat) : Prop :=
  IsGreatest {n | IsBoundary text n ∧ n ≤ offset} start

/-- A boundary is the start of its own character. -/
theorem IsCharStart.eq_of_isBoundary {text : List Char} {offset start : Nat}
    (h : IsCharStart text offset start) (hoffset : IsBoundary text offset) : start = offset :=
  Nat.le_antisymm h.1.2 (h.2 ⟨hoffset, Nat.le_refl _⟩)

/-- No boundary lies inside a character, so the last one before an offset there is its start. -/
theorem IsCharStart.eq_of_inside {before rest : List Char} {c : Char} {offset start : Nat}
    (h : IsCharStart (before ++ c :: rest) offset start) (hlow : byteCount before < offset)
    (hhigh : offset < byteCount before + c.utf8Size) : start = byteCount before := by
  have hge : byteCount before ≤ start := h.2 ⟨⟨before, c :: rest, rfl, rfl⟩, Nat.le_of_lt hlow⟩
  by_cases hlt : byteCount before < start
  · have hle : start ≤ offset := h.1.2
    exact absurd ⟨before, c, rest, rfl, hlt, by omega⟩ (isBoundary_iff.mp h.1.1).2
  · omega

/-- The end of a character is the first boundary from an offset inside it on. -/
theorem isLeast_charStop {before : List Char} {c : Char} {offset : Nat} (rest : List Char)
    (hlow : byteCount before < offset) (hhigh : offset < byteCount before + c.utf8Size) :
    IsLeast {n | IsBoundary (before ++ c :: rest) n ∧ offset ≤ n}
      (byteCount before + c.utf8Size) := by
  have hboundary : IsBoundary (before ++ c :: rest) (byteCount before + c.utf8Size) :=
    ⟨before ++ [c], rest, by simp, by simp⟩
  refine ⟨⟨hboundary, Nat.le_of_lt hhigh⟩, ?_⟩
  rintro n ⟨hn, hle⟩
  by_cases hlt : n < byteCount before + c.utf8Size
  · exact absurd ⟨before, c, rest, rfl, by omega, hlt⟩ (isBoundary_iff.mp hn).2
  · omega

/-- **Offsets inside a character.**  An offset of a text has the place of the character that holds
it exactly if it is the start of that character.  Inside a character it has the place of the next
boundary, one character further on the same line. -/
theorem ofOffset_eq_charStart_iff {source : String} {offset start : Nat}
    (hle : offset ≤ byteLength source) (hstart : IsCharStart source.toList offset start) :
    (ofOffset source offset = ofOffset source start ↔ IsBoundary source.toList offset) ∧
      (¬ IsBoundary source.toList offset →
        ofOffset source offset =
          ⟨(ofOffset source start).line, (ofOffset source start).character + 1⟩ ∧
        ∃ stop, IsLeast {n | IsBoundary source.toList n ∧ offset ≤ n} stop ∧
          ofOffset source offset = ofOffset source stop) := by
  by_cases hboundary : IsBoundary source.toList offset
  · simp [hboundary, hstart.eq_of_isBoundary hboundary]
  · obtain hpast | ⟨before, c, rest, htext, hlow, hhigh⟩ := not_isBoundary_iff.mp hboundary
    · exact absurd hle (Nat.not_le_of_lt hpast)
    have hc : c ≠ '\n' := by
      intro heq
      have hsize : '\n'.utf8Size = 1 := rfl
      rw [heq, hsize] at hhigh
      omega
    have hnext : ofOffset source offset = after (before ++ [c]) := by
      have hinside := ofOffset_inside htext (Nat.sub_pos_of_lt hlow) (by omega)
      rwa [Nat.add_sub_cancel' (Nat.le_of_lt hlow)] at hinside
    have hstop : ofOffset source (byteCount before + c.utf8Size) = after (before ++ [c]) := by
      have hsplit : source.toList = before ++ [c] ++ rest := by simp [htext]
      simpa using ofOffset_byteCount hsplit
    have hleast := isLeast_charStop rest hlow hhigh
    rw [htext] at hstart ⊢
    rw [htext] at hboundary
    obtain rfl := hstart.eq_of_inside hlow hhigh
    have hplace : ofOffset source (byteCount before) = after before := ofOffset_byteCount htext
    refine ⟨?_, fun _ => ⟨?_, _, hleast, hnext.trans hstop.symm⟩⟩
    · simp only [hboundary, iff_false, hnext, hplace]
      exact (precedes_after_append before (by simp)).ne.symm
    · rw [hnext, hplace, after_concat, next, if_neg hc]

/-- The start of a character is the last boundary up to an offset. -/
theorem isCharStart_of_forall {text : List Char} {offset start : Nat}
    (hstart : IsBoundary text start) (hle : start ≤ offset)
    (h : ∀ n ≤ offset, start < n → ¬ IsBoundary text n) : IsCharStart text offset start := by
  refine ⟨⟨hstart, hle⟩, ?_⟩
  rintro n ⟨hn, hn_le⟩
  by_cases hlt : start < n
  · exact absurd hn (h n hn_le hlt)
  · omega

/-- The third byte of a character of four bytes, on the second line. -/
theorem ofOffset_eq_charStart_iff_wide :
    5 ≤ byteLength "é\n😀x" ∧ IsCharStart "é\n😀x".toList 5 3 ∧
      ((ofOffset "é\n😀x" 5 = ofOffset "é\n😀x" 3 ↔ IsBoundary "é\n😀x".toList 5) ∧
        (¬ IsBoundary "é\n😀x".toList 5 →
          ofOffset "é\n😀x" 5 =
            ⟨(ofOffset "é\n😀x" 3).line, (ofOffset "é\n😀x" 3).character + 1⟩ ∧
          ∃ stop, IsLeast {n | IsBoundary "é\n😀x".toList n ∧ 5 ≤ n} stop ∧
            ofOffset "é\n😀x" 5 = ofOffset "é\n😀x" stop)) := by
  have hle : 5 ≤ byteLength "é\n😀x" := by decide
  have hstart : IsCharStart "é\n😀x".toList 5 3 :=
    isCharStart_of_forall (by decide) (by decide) (by decide)
  exact ⟨hle, hstart, ofOffset_eq_charStart_iff hle hstart⟩

/-- An offset inside a character does not have the place of that character. -/
theorem not_forall_ofOffset_eq_charStart :
    ¬ ∀ (source : String) (offset start : Nat), offset ≤ byteLength source →
      IsCharStart source.toList offset start → ofOffset source offset = ofOffset source start := by
  intro h
  have hstart : IsCharStart "é".toList 1 0 :=
    isCharStart_of_forall (by decide) (by decide) (by decide)
  have hplaces : ofOffset "é" 1 ≠ ofOffset "é" 0 := by decide
  exact hplaces (h "é" 1 0 (by decide) hstart)

end LinePosition

end TemplateMigration
