import TemplateMigration.Text.Bytes

/-!
# TemplateMigration.Proofs.Text.Boundary

Where a part stands in a text (`OccursAt`), which byte offsets lie between two characters
(`IsBoundary`) or inside one (`InsideCharacter`), and the bytes of a text (`utf8`).  The cut of a
text exists exactly at its boundaries, and offsets inside a part become offsets of the whole text
by addition.
-/

namespace TemplateMigration

/-! ## Cuts -/

/-- A text is cut where it was put together. -/
theorem cut?_append (before after : List Char) :
    cut? (byteCount before) (before ++ after) = some (before, after) := by
  induction before with
  | nil => simp [cut?]
  | cons c cs ih =>
      have hpos : 0 < c.utf8Size := c.utf8Size_pos
      obtain ⟨n, hn⟩ : ∃ n, byteCount (c :: cs) = n + 1 :=
        ⟨c.utf8Size - 1 + byteCount cs, by rw [byteCount_cons]; omega⟩
      rw [byteCount_cons] at hn
      have hle : c.utf8Size ≤ n + 1 := by omega
      have hrest : n + 1 - c.utf8Size = byteCount cs := by omega
      rw [byteCount_cons, hn, List.cons_append, cut?, if_pos hle, hrest, ih]
      rfl

/-- A cut says how the text divides. -/
theorem cut?_eq_some_iff {n : Nat} {cs before after : List Char} :
    cut? n cs = some (before, after) ↔ cs = before ++ after ∧ byteCount before = n := by
  constructor
  · exact eq_append_of_cut?
  · rintro ⟨rfl, rfl⟩
    exact cut?_append before after

/-- Only the empty text takes no bytes. -/
@[simp] theorem byteCount_eq_zero_iff {cs : List Char} : byteCount cs = 0 ↔ cs = [] := by
  cases cs with
  | nil => simp
  | cons c cs =>
      have hpos : 0 < c.utf8Size := c.utf8Size_pos
      simp only [byteCount_cons, reduceCtorEq, iff_false]
      omega

theorem length_le_byteCount (cs : List Char) : cs.length ≤ byteCount cs := by
  induction cs with
  | nil => exact Nat.le_refl 0
  | cons c cs ih =>
      have hpos : 0 < c.utf8Size := c.utf8Size_pos
      rw [List.length_cons, byteCount_cons]
      omega

/-! ## Boundaries -/

/-- An offset between two characters of a text, or at one of its two ends. -/
def IsBoundary (text : List Char) (offset : Nat) : Prop :=
  ∃ before after, text = before ++ after ∧ byteCount before = offset

/-- A part of a text that starts at a byte offset. -/
def OccursAt (text : List Char) (offset : Nat) (part : List Char) : Prop :=
  ∃ before after, text = before ++ part ++ after ∧ byteCount before = offset

/-- A text can be cut exactly at its boundaries. -/
theorem isSome_cut?_iff {n : Nat} {cs : List Char} : (cut? n cs).isSome ↔ IsBoundary cs n := by
  constructor
  · intro h
    obtain ⟨⟨before, after⟩, hcut⟩ := Option.isSome_iff_exists.mp h
    obtain ⟨hcs, hn⟩ := eq_append_of_cut? hcut
    exact ⟨before, after, hcs, hn⟩
  · rintro ⟨before, after, rfl, rfl⟩
    rw [cut?_append]
    rfl

instance (text : List Char) (offset : Nat) : Decidable (IsBoundary text offset) :=
  decidable_of_iff _ isSome_cut?_iff

theorem isBoundary_byteCount (text : List Char) : IsBoundary text (byteCount text) :=
  ⟨text, [], by simp, rfl⟩

theorem IsBoundary.le {text : List Char} {n : Nat} (h : IsBoundary text n) :
    n ≤ byteCount text := by
  obtain ⟨before, after, rfl, rfl⟩ := h
  rw [byteCount_append]
  omega

/-- Up to its end, the first of two texts decides. -/
theorem isBoundary_append_of_le {xs ys : List Char} {n : Nat} (hn : n ≤ byteCount xs) :
    IsBoundary (xs ++ ys) n ↔ IsBoundary xs n := by
  constructor
  · rintro ⟨before, after, heq, rfl⟩
    obtain ⟨mid, rfl, rfl⟩ | ⟨mid, rfl, rfl⟩ := List.append_eq_append_iff.mp heq
    · rw [byteCount_append] at hn
      have hmid : mid = [] := byteCount_eq_zero_iff.mp (by omega)
      subst hmid
      exact ⟨xs, [], by simp, by simp⟩
    · exact ⟨before, mid, rfl, rfl⟩
  · rintro ⟨before, after, rfl, rfl⟩
    exact ⟨before, after ++ ys, by simp, rfl⟩

/-- From the end of the first on, the second of two texts decides. -/
theorem isBoundary_append_of_ge {xs ys : List Char} {n : Nat} (hn : byteCount xs ≤ n) :
    IsBoundary (xs ++ ys) n ↔ IsBoundary ys (n - byteCount xs) := by
  constructor
  · rintro ⟨before, after, heq, rfl⟩
    obtain ⟨mid, rfl, rfl⟩ | ⟨mid, rfl, rfl⟩ := List.append_eq_append_iff.mp heq
    · exact ⟨mid, after, rfl, by rw [byteCount_append]; omega⟩
    · rw [byteCount_append] at hn
      have hmid : mid = [] := byteCount_eq_zero_iff.mp (by omega)
      subst hmid
      exact ⟨[], ys, rfl, by simp⟩
  · rintro ⟨before, after, rfl, hb⟩
    exact ⟨xs ++ before, after, by simp, by rw [byteCount_append]; omega⟩

/-! ## Inside a character -/

/-- An offset strictly inside a character of a text. -/
def InsideCharacter (text : List Char) (offset : Nat) : Prop :=
  ∃ before c after, text = before ++ c :: after ∧
    byteCount before < offset ∧ offset < byteCount before + c.utf8Size

namespace InsideCharacter

variable {text : List Char} {c : Char} {n : Nat}

theorem lt (h : InsideCharacter text n) : n < byteCount text := by
  obtain ⟨before, c, after, rfl, -, hlt⟩ := h
  simp only [byteCount_append, byteCount_cons]
  omega

/-- Past its first character, a text has the characters of the rest. -/
theorem cons_iff (hn : c.utf8Size ≤ n) :
    InsideCharacter (c :: text) n ↔ InsideCharacter text (n - c.utf8Size) := by
  constructor
  · rintro ⟨before, d, after, heq, hlow, hhigh⟩
    cases before with
    | nil =>
        obtain ⟨rfl, rfl⟩ := List.cons.inj heq
        simp only [byteCount_nil] at hhigh
        omega
    | cons b before =>
        obtain ⟨rfl, rfl⟩ := List.cons.inj heq
        simp only [byteCount_cons] at hlow hhigh
        exact ⟨before, d, after, rfl, by omega, by omega⟩
  · rintro ⟨before, d, after, rfl, hlow, hhigh⟩
    exact ⟨c :: before, d, after, rfl, by simp only [byteCount_cons]; omega,
      by simp only [byteCount_cons]; omega⟩

end InsideCharacter

/-- The boundaries of a text are the offsets up to its end that are inside no character. -/
theorem isBoundary_iff {text : List Char} {n : Nat} :
    IsBoundary text n ↔ n ≤ byteCount text ∧ ¬ InsideCharacter text n := by
  induction text generalizing n with
  | nil =>
      constructor
      · intro h
        exact ⟨h.le, fun hinside => absurd hinside.lt (Nat.not_lt_of_le (Nat.zero_le _))⟩
      · rintro ⟨hle, -⟩
        exact ⟨[], [], rfl, (Nat.le_zero.mp hle).symm⟩
  | cons c cs ih =>
      by_cases hn : c.utf8Size ≤ n
      · have hrest : IsBoundary (c :: cs) n ↔ IsBoundary cs (n - c.utf8Size) := by
          have happend : IsBoundary ([c] ++ cs) n ↔ IsBoundary cs (n - byteCount [c]) :=
            isBoundary_append_of_ge (by simpa using hn)
          simpa using happend
        rw [hrest, ih, InsideCharacter.cons_iff hn, byteCount_cons]
        have hle : n - c.utf8Size ≤ byteCount cs ↔ n ≤ c.utf8Size + byteCount cs := by omega
        rw [hle]
      · -- Only the start of the first character is a boundary before its end.
        have hfirst : IsBoundary (c :: cs) n ↔ n = 0 := by
          constructor
          · rintro ⟨before, after, heq, rfl⟩
            cases before with
            | nil => rfl
            | cons b before =>
                obtain ⟨rfl, -⟩ := List.cons.inj heq
                simp only [byteCount_cons] at hn
                omega
          · rintro rfl
            exact ⟨[], c :: cs, rfl, rfl⟩
        rw [hfirst]
        constructor
        · rintro rfl
          refine ⟨Nat.zero_le _, ?_⟩
          rintro ⟨before, d, after, -, hlow, -⟩
          omega
        · rintro ⟨-, hinside⟩
          by_cases hzero : n = 0
          · exact hzero
          · exact absurd ⟨[], c, cs, rfl, by simp only [byteCount_nil]; omega,
              by simp only [byteCount_nil]; omega⟩ hinside

theorem not_isBoundary_iff {text : List Char} {n : Nat} :
    ¬ IsBoundary text n ↔ byteCount text < n ∨ InsideCharacter text n := by
  rw [isBoundary_iff]
  by_cases hinside : InsideCharacter text n
  · simp [hinside]
  · simp [hinside]

/-! ## Parts -/

namespace OccursAt

variable {text part inner : List Char} {m n : Nat}

theorem isBoundary_start (h : OccursAt text n part) : IsBoundary text n := by
  obtain ⟨before, after, rfl, rfl⟩ := h
  exact ⟨before, part ++ after, by simp, rfl⟩

/-- Boundaries of a part are boundaries of the whole, moved by the start of the part. -/
theorem isBoundary_add (h : OccursAt text n part) (hm : IsBoundary part m) :
    IsBoundary text (n + m) := by
  obtain ⟨before, after, rfl, rfl⟩ := h
  obtain ⟨left, right, rfl, rfl⟩ := hm
  exact ⟨before ++ left, right ++ after, by simp, by simp⟩

theorem isBoundary_stop (h : OccursAt text n part) : IsBoundary text (n + byteCount part) :=
  h.isBoundary_add (isBoundary_byteCount part)

/-- A part of a part is a part. -/
theorem trans (h : OccursAt text n part) (hi : OccursAt part m inner) :
    OccursAt text (n + m) inner := by
  obtain ⟨before, after, rfl, rfl⟩ := h
  obtain ⟨left, right, rfl, rfl⟩ := hi
  exact ⟨before ++ left, right ++ after, by simp, by simp⟩

theorem stop_le (h : OccursAt text n part) : n + byteCount part ≤ byteCount text :=
  h.isBoundary_stop.le

/-- A part is cut out of the text at the offset where it stands. -/
theorem slice_eq (h : OccursAt text n part) : slice n (n + byteCount part) text = part := by
  obtain ⟨before, after, rfl, rfl⟩ := h
  have hstart :
      cut? (byteCount before) (before ++ part ++ after) = some (before, part ++ after) := by
    rw [List.append_assoc, cut?_append]
  simp only [slice, hstart, Nat.add_sub_cancel_left, cut?_append]

end OccursAt

/-! ## Bytes -/

/-- The bytes of a text. -/
def utf8 (cs : List Char) : List UInt8 := cs.flatMap String.utf8EncodeChar

@[simp] theorem utf8_nil : utf8 [] = [] := rfl

theorem utf8_cons (c : Char) (cs : List Char) :
    utf8 (c :: cs) = String.utf8EncodeChar c ++ utf8 cs :=
  List.flatMap_cons

@[simp] theorem utf8_append (xs ys : List Char) : utf8 (xs ++ ys) = utf8 xs ++ utf8 ys :=
  List.flatMap_append

@[simp] theorem length_utf8 (cs : List Char) : (utf8 cs).length = byteCount cs := by
  induction cs with
  | nil => rfl
  | cons c cs ih =>
      rw [utf8_cons, List.length_append, byteCount_cons, ih]
      simp

/-- An ASCII character is its own byte. -/
theorem utf8EncodeChar_of_lt {c : Char} (hc : c.toNat < 128) :
    String.utf8EncodeChar c = [UInt8.ofNat c.toNat] := by
  have hle : c.val.toNat ≤ 127 := Nat.le_of_lt_succ hc
  unfold String.utf8EncodeChar
  dsimp only
  rw [if_pos hle]
  rfl

/-- A character beyond ASCII has only bytes beyond ASCII. -/
theorem le_of_mem_utf8EncodeChar {c : Char} {b : UInt8} (hc : 128 ≤ c.toNat)
    (hb : b ∈ String.utf8EncodeChar c) : 128 ≤ b.toNat := by
  have hval : ¬ c.val.toNat ≤ 127 := fun hle => absurd hc (Nat.not_le_of_lt (Nat.lt_succ_of_le hle))
  unfold String.utf8EncodeChar at hb
  dsimp only at hb
  rw [if_neg hval] at hb
  have hbyte : ∀ n, 128 ≤ n % 256 → 128 ≤ (UInt8.ofNat n).toNat := by
    intro n hn
    rwa [UInt8.toNat_ofNat']
  split at hb
  · simp only [List.mem_cons, List.not_mem_nil, or_false] at hb
    obtain rfl | rfl := hb <;> exact hbyte _ (by omega)
  · split at hb
    · simp only [List.mem_cons, List.not_mem_nil, or_false] at hb
      obtain rfl | rfl | rfl := hb <;> exact hbyte _ (by omega)
    · simp only [List.mem_cons, List.not_mem_nil, or_false] at hb
      obtain rfl | rfl | rfl | rfl := hb <;> exact hbyte _ (by omega)

/-- The bytes of a string are those of its characters. -/
theorem data_toUTF8 (s : String) : s.toUTF8.data.toList = utf8 s.toList := by
  rw [String.toUTF8_eq_toByteArray, ← String.utf8Encode_toList, List.utf8Encode]
  simp [utf8]

/-- Texts with the same bytes are the same. -/
theorem utf8_injective {xs ys : List Char} (h : utf8 xs = utf8 ys) : xs = ys := by
  have hbytes : (String.ofList xs).toByteArray = (String.ofList ys).toByteArray := by
    apply ByteArray.ext
    apply Array.toList_inj.mp
    rw [← String.toUTF8_eq_toByteArray, ← String.toUTF8_eq_toByteArray, data_toUTF8, data_toUTF8]
    simpa using h
  have hstring : String.ofList xs = String.ofList ys := String.toByteArray_inj.mp hbytes
  simpa using congrArg String.toList hstring

end TemplateMigration
