/-!
# TemplateMigration.Project.FileName

Names of files.  A name is any bytes; most names are text, written in UTF-8, but none has to be.
`FileName.text?` is the text of a name that is one.

`decodeLossy` is what is shown of bytes: a replacement character stands for each run of bytes that
begins a character and breaks off, and for each byte that begins none.  Of a text nothing is lost
(`decodeLossy_flatMap_utf8EncodeChar`).
-/

namespace TemplateMigration

/-! ## bytes as they are shown -/

/-- How many bytes a character has that starts with a byte; 1 also if none does. -/
def widthOfLead (lead : UInt8) : Nat :=
  if 0xC2 ≤ lead && lead ≤ 0xDF then 2
  else if 0xE0 ≤ lead && lead ≤ 0xEF then 3
  else if 0xF0 ≤ lead && lead ≤ 0xF4 then 4
  else 1

/-- Whether a byte can come second in a character.  After four bytes a part of the range is left
out: it would write a character in too many bytes, half of a pair, or a number beyond the last
character. -/
def canFollow (lead second : UInt8) : Bool :=
  if lead == 0xE0 then 0xA0 ≤ second && second ≤ 0xBF
  else if lead == 0xED then 0x80 ≤ second && second ≤ 0x9F
  else if lead == 0xF0 then 0x90 ≤ second && second ≤ 0xBF
  else if lead == 0xF4 then 0x80 ≤ second && second ≤ 0x8F
  else 0x80 ≤ second && second ≤ 0xBF

/-- How many bytes belong, with the byte before them, to a character that breaks off. -/
def brokenLength (lead : UInt8) : List UInt8 → Nat
  | [] => 0
  | second :: more =>
      if 3 ≤ widthOfLead lead && canFollow lead second then
        1 + ((more.take (widthOfLead lead - 3)).takeWhile fun b => 0x80 ≤ b && b ≤ 0xBF).length
      else 0

/-- The characters that bytes write, with replacement characters for bytes that write none. -/
def decodeLossy : List UInt8 → List Char
  | [] => []
  | b :: bs =>
      match ByteArray.utf8DecodeChar? ⟨(b :: bs).toArray⟩ 0 with
      | some c => c :: decodeLossy (bs.drop (c.utf8Size - 1))
      | none => '\ufffd' :: decodeLossy (bs.drop (brokenLength b bs))
termination_by bs => bs.length
decreasing_by all_goals simp only [List.length_drop, List.length_cons]; omega

theorem decodeLossy_utf8EncodeChar_append (c : Char) (bs : List UInt8) :
    decodeLossy (String.utf8EncodeChar c ++ bs) = c :: decodeLossy bs := by
  have hread : ByteArray.utf8DecodeChar? ⟨(String.utf8EncodeChar c ++ bs).toArray⟩ 0 = some c := by
    have hbytes : (⟨(String.utf8EncodeChar c ++ bs).toArray⟩ : ByteArray) =
        [c].utf8Encode ++ ⟨bs.toArray⟩ := by
      apply ByteArray.ext
      simp [List.utf8Encode]
    rw [hbytes, List.utf8DecodeChar?_utf8Encode_singleton_append]
  have hlength := String.length_utf8EncodeChar c
  cases hbytes : String.utf8EncodeChar c with
  | nil =>
      have := Char.utf8Size_pos c
      simp [hbytes] at hlength
      omega
  | cons first more =>
      rw [hbytes, List.cons_append] at hread
      rw [hbytes, List.length_cons] at hlength
      rw [List.cons_append, decodeLossy, hread]
      simp [← hlength]

/-- Of a text nothing is lost. -/
theorem decodeLossy_flatMap_utf8EncodeChar (cs : List Char) :
    decodeLossy (cs.flatMap String.utf8EncodeChar) = cs := by
  induction cs with
  | nil => rw [List.flatMap_nil, decodeLossy]
  | cons c cs ih => rw [List.flatMap_cons, decodeLossy_utf8EncodeChar_append, ih]

/-! ## names -/

/-- What the file system calls something: any bytes. -/
structure FileName where
  bytes : List UInt8
  deriving Repr

namespace FileName

/-- The byte between the names of a path. -/
def separator : UInt8 := 47

instance : DecidableEq FileName := fun a b =>
  decidable_of_iff (a.bytes = b.bytes) (by cases a; cases b; simp)

/-- The name that a text is. -/
def ofString (text : String) : FileName := ⟨text.toUTF8.data.toList⟩

instance : Coe String FileName := ⟨ofString⟩

theorem bytes_ofString (text : String) :
    (ofString text).bytes = text.toList.flatMap String.utf8EncodeChar := by
  rw [ofString, String.toUTF8_eq_toByteArray, ← String.utf8Encode_toList, List.utf8Encode,
    List.data_toByteArray]

@[simp] theorem ofString_inj {s t : String} : ofString s = ofString t ↔ s = t := by
  rw [ofString, ofString, mk.injEq, Array.toList_inj, ← ByteArray.ext_iff,
    String.toUTF8_eq_toByteArray, String.toUTF8_eq_toByteArray, String.toByteArray_inj]

@[simp] theorem ofString_beq (s t : String) : (ofString s == ofString t) = (s == t) := by
  rw [Bool.eq_iff_iff, beq_iff_eq, beq_iff_eq, ofString_inj]

instance : LT FileName := ⟨fun a b => a.bytes < b.bytes⟩

instance (a b : FileName) : Decidable (a < b) := inferInstanceAs (Decidable (a.bytes < b.bytes))

/-- The text that a name is, if it is one. -/
def text? (name : FileName) : Option String := String.fromUTF8? ⟨name.bytes.toArray⟩

theorem text?_eq_some_iff {name : FileName} {text : String} :
    name.text? = some text ↔ name = text := by
  obtain ⟨bytes⟩ := name
  have hbytes : (⟨bytes⟩ : FileName) = ofString text ↔ ⟨bytes.toArray⟩ = text.toByteArray := by
    rw [ofString, mk.injEq, String.toUTF8_eq_toByteArray, ByteArray.ext_iff]
    exact ⟨fun h => by simp [h], fun h => by simp [← h]⟩
  rw [hbytes, text?, String.fromUTF8?]
  by_cases hvalid : ByteArray.IsValidUTF8 ⟨bytes.toArray⟩
  · simp [hvalid, String.fromUTF8, ← String.toByteArray_inj]
  · have hne : ⟨bytes.toArray⟩ ≠ text.toByteArray := fun heq => hvalid (heq ▸ text.isValidUTF8)
    simp [hvalid, hne]

end FileName

end TemplateMigration
