import TemplateMigration.Proofs.Markup.Placement

/-!
# TemplateMigration.Proofs.Markup.ByteReading

Reading a text by byte offsets.

A byte is read as the character of its number (`byteChar`), and an offset may be moved to any
byte, so a part of the text exists only between character boundaries (`tailAt?`, `slice?`).  Tests
that do not tell characters beyond ASCII apart (`IsAsciiTest`) have one answer on all bytes of a
character, so reading while such a test holds ends at a boundary.  Each way to read by offsets is
compared with a cursor that stands in the text: `readWhile?_eq`, `skipPast?_eq`.
-/

namespace TemplateMigration

/-! ## Bytes as characters -/

/-- A byte as the character of its number. -/
def byteChar (b : UInt8) : Char := Char.ofNat b.toNat

/-- A test that does not tell characters beyond ASCII apart. -/
def IsAsciiTest (p : Char → Bool) : Prop :=
  ∀ c d : Char, 128 ≤ c.toNat → 128 ≤ d.toNat → p c = p d

namespace IsAsciiTest

variable {p q : Char → Bool}

theorem and (hp : IsAsciiTest p) (hq : IsAsciiTest q) : IsAsciiTest fun c => p c && q c := by
  intro c d hc hd
  dsimp only
  rw [hp c d hc hd, hq c d hc hd]

theorem or (hp : IsAsciiTest p) (hq : IsAsciiTest q) : IsAsciiTest fun c => p c || q c := by
  intro c d hc hd
  dsimp only
  rw [hp c d hc hd, hq c d hc hd]

theorem not (hp : IsAsciiTest p) : IsAsciiTest fun c => !p c := by
  intro c d hc hd
  dsimp only
  rw [hp c d hc hd]

theorem beq (x : Char) (hx : x.toNat < 128) : IsAsciiTest (· == x) := by
  have hne : ∀ c : Char, 128 ≤ c.toNat → (c == x) = false := by
    intro c hc
    refine beq_eq_false_iff_ne.mpr ?_
    rintro rfl
    omega
  intro c d hc hd
  exact (hne c hc).trans (hne d hd).symm

/-- Whether a character is a letter is decided among ASCII. -/
theorem isAlpha : IsAsciiTest Char.isAlpha := by
  have hwide : ∀ c : Char, 128 ≤ c.toNat → c.isAlpha = false := by
    intro c hc
    have hupper : ¬ c.val ≤ 'Z'.val := fun hle => by
      have hle : c.toNat ≤ 90 := hle
      omega
    have hlower : ¬ c.val ≤ 'z'.val := fun hle => by
      have hle : c.toNat ≤ 122 := hle
      omega
    refine Bool.or_eq_false_iff.mpr ⟨decide_eq_false fun h => hupper h.2, ?_⟩
    exact Bool.and_eq_false_iff.mpr (.inr (decide_eq_false hlower))
  intro c d hc hd
  exact (hwide c hc).trans (hwide d hd).symm

end IsAsciiTest

/-- No test that does not look beyond ASCII tells two characters apart. -/
def AsciiAlike (y x : Char) : Prop :=
  ∀ p, IsAsciiTest p → p y = p x

theorem AsciiAlike.eq_iff {x y z : Char} (h : AsciiAlike y x) (hz : z.toNat < 128) :
    y = z ↔ x = z := by
  have hsame := h _ (.beq z hz)
  rwa [Bool.eq_iff_iff, beq_iff_eq, beq_iff_eq] at hsame

theorem toNat_byteChar (b : UInt8) : (byteChar b).toNat = b.toNat := by
  have hlt : b.toNat < 256 := b.toNat_lt
  have hvalid : b.toNat.isValidChar := .inl (by omega)
  rw [byteChar, Char.ofNat, dif_pos hvalid]
  rfl

/-- A test that does not look beyond ASCII has one answer on all bytes of a character. -/
theorem IsAsciiTest.byteChar_eq {p : Char → Bool} (hp : IsAsciiTest p) {c : Char} {b : UInt8}
    (hb : b ∈ String.utf8EncodeChar c) : p (byteChar b) = p c := by
  by_cases hc : c.toNat < 128
  · rw [utf8EncodeChar_of_lt hc, List.mem_singleton] at hb
    have hbyte : b.toNat = c.toNat := by
      rw [hb]
      exact Nat.mod_eq_of_lt (Nat.lt_trans hc (by decide))
    rw [byteChar, hbyte, Char.ofNat_toNat]
  · have hwide : 128 ≤ c.toNat := Nat.le_of_not_lt hc
    refine hp _ _ ?_ hwide
    rw [toNat_byteChar]
    exact le_of_mem_utf8EncodeChar hwide hb

/-! ## Reading at an offset -/

namespace ByteScan

/-- The byte at an offset, as a character. -/
def byteAt? (text : List Char) (offset : Nat) : Option Char :=
  (utf8 text)[offset]?.map byteChar

/-- What follows an offset.  There is nothing to give inside a character or past the end. -/
def tailAt? (text : List Char) (offset : Nat) : Option (List Char) :=
  (cut? offset text).map Prod.snd

/-- The part between two offsets.  There is none unless both are boundaries, in order. -/
def slice? (text : List Char) (start stop : Nat) : Option (List Char) :=
  (tailAt? text start).bind fun rest =>
    if start ≤ stop then (cut? (stop - start) rest).map Prod.fst else none

/-- The number of bytes before the first occurrence of a word in a text. -/
def find? (word cs : List Char) : Option Nat :=
  (indexOf? word cs).map fun n => byteCount (cs.take n)

/-- The part from an offset up to the first byte that fails a test, and the offset of that byte. -/
def readWhile? (text : List Char) (p : Char → Bool) (offset : Nat) : Option (List Char × Nat) :=
  let stop := offset + (((utf8 text).drop offset).takeWhile fun b => p (byteChar b)).length
  (slice? text offset stop).map fun part => (part, stop)

/-- The offset past the next occurrence of a word at or after an offset, or the end. -/
def skipPast? (text word : List Char) (offset : Nat) : Option Nat :=
  let offset := min offset (byteCount text)
  (tailAt? text offset).map fun rest =>
    match find? word rest with
    | some n => offset + n + byteCount word
    | none => byteCount text

end ByteScan

open ByteScan

/-! ## Reading where a cursor stands -/

/-- Every character has a first byte. -/
theorem exists_utf8EncodeChar_eq_cons (c : Char) : ∃ b bs, String.utf8EncodeChar c = b :: bs := by
  refine List.exists_cons_of_ne_nil (List.ne_nil_of_length_pos ?_)
  rw [String.length_utf8EncodeChar]
  exact c.utf8Size_pos

/-- Bytes of a text while a test holds are the characters while it holds. -/
theorem IsAsciiTest.length_takeWhile_utf8 {p : Char → Bool} (hp : IsAsciiTest p) (cs : List Char) :
    ((utf8 cs).takeWhile fun b => p (byteChar b)).length = byteCount (cs.takeWhile p) := by
  induction cs with
  | nil => rfl
  | cons c cs ih =>
      rw [utf8_cons]
      cases hc : p c with
      | true =>
          have hall : ∀ b ∈ String.utf8EncodeChar c, p (byteChar b) = true :=
            fun b hb => (hp.byteChar_eq hb).trans hc
          rw [List.takeWhile_append_of_pos hall, List.length_append, ih,
            String.length_utf8EncodeChar, List.takeWhile_cons_of_pos hc, byteCount_cons]
      | false =>
          obtain ⟨b, bs, hbytes⟩ := exists_utf8EncodeChar_eq_cons c
          have hb : p (byteChar b) = false :=
            (hp.byteChar_eq (by rw [hbytes]; exact List.mem_cons_self)).trans hc
          simp [hbytes, hb, hc]

/-- A part that stands at an offset is cut out there. -/
theorem OccursAt.slice?_eq {text part : List Char} {start : Nat} (h : OccursAt text start part) :
    slice? text start (start + byteCount part) = some part := by
  obtain ⟨before, after, rfl, rfl⟩ := h
  simp [slice?, tailAt?, cut?_append]

namespace Cursor

variable {c : Cursor} {x : Char} {xs : List Char}

theorem skip_skip (m n : Nat) (c : Cursor) : (c.skip m).skip n = c.skip (m + n) := by
  simp [skip, List.take_add, Nat.add_assoc]

/-- An ASCII character is one byte long. -/
theorem offset_skip_one (hrest : c.rest = x :: xs) (hx : x.toNat < 128) :
    (c.skip 1).offset = c.offset + 1 := by
  have hsize : x.utf8Size = 1 := if_pos (Nat.le_of_lt_succ hx)
  simp [skip, hrest, hsize]

theorem rest_skip_one (hrest : c.rest = x :: xs) : (c.skip 1).rest = xs := by
  simp [skip, hrest]

end Cursor

namespace Cursor.StandsIn

variable {text : List Char} {c : Cursor} {x : Char} {xs : List Char}

/-- Behind the offset of a cursor stands what it has left. -/
theorem tailAt?_eq (h : c.StandsIn text) : tailAt? text c.offset = some c.rest := by
  obtain ⟨before, rfl, hoffset⟩ := h
  rw [tailAt?, ← hoffset, cut?_append]
  rfl

/-- So it is with bytes. -/
theorem drop_utf8 (h : c.StandsIn text) : (utf8 text).drop c.offset = utf8 c.rest := by
  obtain ⟨before, rfl, hoffset⟩ := h
  rw [utf8_append, ← hoffset, ← length_utf8, List.drop_left]

theorem offset_skipAll (h : c.StandsIn text) : c.skipAll.offset = byteCount text := by
  obtain ⟨before, rfl, hoffset⟩ := h
  rw [Cursor.skipAll, Cursor.skip, List.take_length, byteCount_append, hoffset]

/-- A cursor has fewer characters left than the text has bytes, and one more. -/
theorem length_rest_lt (h : c.StandsIn text) : c.rest.length < byteCount text + 1 := by
  obtain ⟨before, rfl, -⟩ := h
  have hle := length_le_byteCount (before ++ c.rest)
  rw [List.length_append] at hle
  omega

/-- What a step of a cursor passes is cut out between the two offsets. -/
theorem slice?_eq (h : c.StandsIn text) (n : Nat) :
    slice? text c.offset (c.skip n).offset = some (c.rest.take n) :=
  (h.occursAt_take n).slice?_eq

/-- The byte at the offset of a cursor is the first byte of what is left. -/
theorem byteAt?_eq (h : c.StandsIn text) :
    byteAt? text c.offset = (utf8 c.rest).head?.map byteChar := by
  rw [byteAt?, ← h.drop_utf8, List.head?_drop]

theorem byteAt?_of_nil (h : c.StandsIn text) (hrest : c.rest = []) :
    byteAt? text c.offset = none := by
  rw [h.byteAt?_eq, hrest]
  rfl

/-- The byte where a cursor stands passes the tests that the character there passes. -/
theorem exists_byteAt? (h : c.StandsIn text) (hrest : c.rest = x :: xs) :
    ∃ y, byteAt? text c.offset = some y ∧ AsciiAlike y x := by
  obtain ⟨b, bs, hbytes⟩ := exists_utf8EncodeChar_eq_cons x
  refine ⟨byteChar b, ?_, ?_⟩
  · rw [h.byteAt?_eq, hrest, utf8_cons, hbytes]
    rfl
  · intro p hp
    exact hp.byteChar_eq (by rw [hbytes]; exact List.mem_cons_self)

/-- An ASCII character is found by its byte. -/
theorem byteAt?_eq_some_iff {z : Char} (h : c.StandsIn text) (hz : z.toNat < 128) :
    byteAt? text c.offset = some z ↔ c.rest.head? = some z := by
  cases hrest : c.rest with
  | nil => simp [h.byteAt?_of_nil hrest]
  | cons x xs =>
      obtain ⟨y, hy, halike⟩ := h.exists_byteAt? hrest
      simp [hy, halike.eq_iff hz]

/-- A test of ASCII can be made on the byte. -/
theorem any_byteAt? {p : Char → Bool} (h : c.StandsIn text) (hp : IsAsciiTest p) :
    (byteAt? text c.offset).any p = c.rest.head?.any p := by
  cases hrest : c.rest with
  | nil => simp [h.byteAt?_of_nil hrest]
  | cons x xs =>
      obtain ⟨y, hy, halike⟩ := h.exists_byteAt? hrest
      simp [hy, halike p hp]

/-- Reading while a test holds, by bytes, is reading by characters. -/
theorem readWhile?_eq {p : Char → Bool} (h : c.StandsIn text) (hp : IsAsciiTest p) :
    readWhile? text p c.offset = some (c.rest.takeWhile p, (c.skipWhile p).offset) := by
  have hsplit : c.rest = c.rest.takeWhile p ++ c.rest.dropWhile p :=
    List.takeWhile_append_dropWhile.symm
  have hstop : (c.skipWhile p).offset = c.offset + byteCount (c.rest.takeWhile p) :=
    offset_skip_length_append hsplit
  simp only [readWhile?, h.drop_utf8, hp.length_takeWhile_utf8, hstop]
  rw [(h.occursAt_of_append hsplit).slice?_eq]
  rfl

/-- Past a word by bytes is past the word by characters. -/
theorem skipPast?_eq (h : c.StandsIn text) (word : List Char) :
    skipPast? text word c.offset = some (c.skipPast word).offset := by
  have hmin : min c.offset (byteCount text) = c.offset := Nat.min_eq_left h.offset_le
  simp only [skipPast?, hmin, h.tailAt?_eq, Option.map_some, find?]
  rw [Cursor.skipPast]
  cases hindex : indexOf? word c.rest with
  | none => exact congrArg some h.offset_skipAll.symm
  | some n =>
      obtain ⟨before, after, hrest, rfl⟩ := eq_append_of_indexOf? hindex
      have hoffset := offset_skip_length_append hrest
      rw [List.length_append] at hoffset
      simp [hoffset, hrest, Nat.add_assoc]

end Cursor.StandsIn

end TemplateMigration
