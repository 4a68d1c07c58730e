import Mathlib.Data.Nat.Digits.Defs
import TemplateMigration.Proofs.Expression.Escape

/-!
# TemplateMigration.Proofs.Expression.StringValue

The value of a string literal is the lossy UTF-16 decoding of the units that its body denotes.

`Utf16.Decodes` says what lossy decoding is, and `Denotes` which units a body stands for, both
without the reader.  The reader goes by items instead, characters and single units; `denotes_iff`
and `decodes_decode` are the two bridges.  A body is refused at the first escape of a unit that
lacks its four hexadecimal digits (`malformed_iff_firstFault`).
-/

namespace TemplateMigration

/-! ## UTF-16 -/

namespace Utf16

/-- The UTF-16 units of a character: its number, or two surrogates where that takes more than
sixteen bits. -/
def units (c : Char) : List Nat :=
  if c.toNat < 0x10000 then [c.toNat]
  else [0xd800 + (c.toNat - 0x10000) / 0x400, 0xdc00 + (c.toNat - 0x10000) % 0x400]

/-- Lossy decoding of units: the characters whose units stand there, and U+FFFD for each
surrogate that is not part of a pair. -/
inductive Decodes : List Nat → List Char → Prop
  | nil : Decodes [] []
  | character (c : Char) {us : List Nat} {cs : List Char} (h : Decodes us cs) :
      Decodes (units c ++ us) (c :: cs)
  | unpaired {n : Nat} {us : List Nat} {cs : List Char} (hsurrogate : 0xd800 ≤ n ∧ n ≤ 0xdfff)
      (hunpaired : ∀ c, ¬ units c <+: n :: us) (h : Decodes us cs) :
      Decodes (n :: us) ('\ufffd' :: cs)

/-- The numbers of characters leave out the halves of pairs. -/
theorem toNat_bounds (c : Char) : c.toNat < 0xd800 ∨ 0xdfff < c.toNat ∧ c.toNat < 0x110000 :=
  c.valid

theorem exists_toNat_eq {n : Nat} (h : n.isValidChar) : ∃ c : Char, c.toNat = n :=
  ⟨Char.ofNatAux n h, rfl⟩

/-- Every character has a code unit. -/
theorem units_ne_nil (c : Char) : units c ≠ [] := by
  unfold units
  split <;> simp

/-- The units of a character say which one it is and where they end. -/
theorem units_append_inj {c d : Char} {us vs : List Nat} (h : units c ++ us = units d ++ vs) :
    c = d ∧ us = vs := by
  have hc := toNat_bounds c
  have hd := toNat_bounds d
  have hnumber : c.toNat = d.toNat ∧ us = vs := by
    unfold units at h
    split at h <;> split at h <;>
      simp only [List.cons_append, List.nil_append, List.cons.injEq] at h
    · exact h
    · omega
    · omega
    · exact ⟨by omega, h.2.2⟩
  exact ⟨Char.toNat_inj.mp hnumber.1, hnumber.2⟩

/-- A surrogate is part of no pair unless it is a high one before a low one. -/
theorem not_isPrefix_units {n : Nat} {us : List Nat} (hn : 0xd800 ≤ n ∧ n ≤ 0xdfff)
    (h : n ≤ 0xdbff → ∀ m ∈ us.head?, ¬ (0xdc00 ≤ m ∧ m ≤ 0xdfff)) (c : Char) :
    ¬ units c <+: n :: us := by
  rintro ⟨vs, hvs⟩
  have hc := toNat_bounds c
  unfold units at hvs
  split at hvs
  · simp only [List.cons_append, List.cons.injEq] at hvs
    omega
  · simp only [List.cons_append, List.nil_append, List.cons.injEq] at hvs
    obtain ⟨hfirst, rfl⟩ := hvs
    exact h (by omega) _ rfl (by omega)

/-- No character's units start with a low surrogate. -/
theorem head_units_not_low (c : Char) (us : List Nat) :
    ∀ m ∈ (units c ++ us).head?, ¬ (0xdc00 ≤ m ∧ m ≤ 0xdfff) := by
  have hc := toNat_bounds c
  unfold units
  split <;> simp only [List.cons_append, List.head?_cons, Option.mem_some_iff, forall_eq'] <;> omega

/-- A surrogate that is not a high one before a low one is replaced. -/
theorem Decodes.surrogate {n : Nat} {us : List Nat} {cs : List Char}
    (hn : 0xd800 ≤ n ∧ n ≤ 0xdfff)
    (hus : n ≤ 0xdbff → ∀ m ∈ us.head?, ¬ (0xdc00 ≤ m ∧ m ≤ 0xdfff)) (h : Decodes us cs) :
    Decodes (n :: us) ('\ufffd' :: cs) :=
  .unpaired hn (not_isPrefix_units hn hus) h

/-- Units decode in one way. -/
theorem Decodes.unique {us : List Nat} {cs ds : List Char} (h : Decodes us cs)
    (h' : Decodes us ds) : cs = ds := by
  induction h generalizing ds with
  | nil =>
      generalize hus : ([] : List Nat) = vs at h'
      cases h' with
      | nil => rfl
      | character d _ => exact absurd (List.append_eq_nil_iff.mp hus.symm).1 (units_ne_nil d)
      | unpaired => contradiction
  | @character c us cs _ ih =>
      generalize hus : units c ++ us = vs at h'
      cases h' with
      | nil => exact absurd (List.append_eq_nil_iff.mp hus).1 (units_ne_nil c)
      | character d h' =>
          obtain ⟨rfl, rfl⟩ := units_append_inj hus
          rw [ih h']
      | unpaired _ hunpaired _ => exact absurd ⟨us, hus⟩ (hunpaired c)
  | @unpaired n us cs _ hunpaired _ ih =>
      generalize hus : n :: us = vs at h'
      cases h' with
      | nil => contradiction
      | character d _ => exact absurd ⟨_, hus.symm⟩ (hunpaired d)
      | unpaired _ _ h' =>
          obtain ⟨rfl, rfl⟩ := List.cons.inj hus
          rw [ih h']

/-- The units of a text decode to the text. -/
theorem decodes_flatMap_units (cs : List Char) : Decodes (cs.flatMap units) cs := by
  induction cs with
  | nil => exact .nil
  | cons c cs ih => exact .character c ih

end Utf16

namespace StringItem

/-- The UTF-16 units of an item. -/
def units : StringItem → List Nat
  | character c => Utf16.units c
  | unit n => [n]

theorem isHighSurrogate_iff {n : Nat} : isHighSurrogate n ↔ 0xd800 ≤ n ∧ n ≤ 0xdbff := by
  simp [isHighSurrogate]

theorem isLowSurrogate_iff {n : Nat} : isLowSurrogate n ↔ 0xdc00 ≤ n ∧ n ≤ 0xdfff := by
  simp [isLowSurrogate]

/-- A code unit outside the halves of pairs is the only one of its character. -/
theorem units_ofNat {n : Nat} (h : n < 0x10000) (hhigh : ¬ isHighSurrogate n)
    (hlow : ¬ isLowSurrogate n) : Utf16.units (Char.ofNat n) = [n] := by
  rw [isHighSurrogate_iff] at hhigh
  rw [isLowSurrogate_iff] at hlow
  have hvalid : n.isValidChar := by
    unfold Nat.isValidChar
    omega
  obtain ⟨c, rfl⟩ := Utf16.exists_toNat_eq hvalid
  rw [Char.ofNat_toNat, Utf16.units, if_pos h]

/-- A high half and a low half are the code units of one character. -/
theorem units_ofNat_pair {n m : Nat} (hn : isHighSurrogate n) (hm : isLowSurrogate m) :
    Utf16.units (Char.ofNat (0x10000 + (n - 0xd800) * 0x400 + (m - 0xdc00))) = [n, m] := by
  rw [isHighSurrogate_iff] at hn
  rw [isLowSurrogate_iff] at hm
  have hvalid : (0x10000 + (n - 0xd800) * 0x400 + (m - 0xdc00)).isValidChar := by
    unfold Nat.isValidChar
    omega
  obtain ⟨c, hc⟩ := Utf16.exists_toNat_eq hvalid
  rw [← hc, Char.ofNat_toNat, Utf16.units, if_neg (by omega), hc]
  simp only [List.cons.injEq, and_true]
  omega

/-- Items decode as their units do. -/
theorem decodes_decode (items : List StringItem) (h : ∀ n, unit n ∈ items → n < 0x10000) :
    Utf16.Decodes (items.flatMap units) (decode items) := by
  fun_induction decode items with
  | case1 => exact .nil
  | case2 c items ih => exact .character c (ih fun n hn => h n (by simp [hn]))
  | case3 n hhigh m rest hlow ih =>
      have hchar := Utf16.Decodes.character
        (Char.ofNat (0x10000 + (n - 0xd800) * 0x400 + (m - 0xdc00)))
        (ih fun k hk => h k (by simp [hk]))
      rwa [units_ofNat_pair hhigh hlow] at hchar
  | case4 n hhigh m rest hlow ih =>
      rw [isHighSurrogate_iff] at hhigh
      rw [isLowSurrogate_iff] at hlow
      refine .surrogate (by omega) ?_ (ih fun k hk => h k (List.mem_cons_of_mem _ hk))
      rintro - k ⟨⟩
      exact hlow
  | case5 n hhigh items hitems ih =>
      rw [isHighSurrogate_iff] at hhigh
      refine .surrogate (by omega) ?_ (ih fun k hk => h k (by simp [hk]))
      -- what follows is no unit, so its first unit is that of a character
      intro _
      match items, hitems with
      | [], _ => simp
      | character c :: rest, _ => exact Utf16.head_units_not_low c _
      | unit m :: rest, hitems => exact (hitems m rest rfl).elim
  | case6 n items hhigh hlow ih =>
      rw [isHighSurrogate_iff] at hhigh
      rw [isLowSurrogate_iff] at hlow
      refine .surrogate (by omega) ?_ (ih fun k hk => h k (by simp [hk]))
      intro hle
      omega
  | case7 n items hhigh hlow ih =>
      have hchar := Utf16.Decodes.character (Char.ofNat n) (ih fun k hk => h k (by simp [hk]))
      rwa [units_ofNat (h n (by simp)) hhigh hlow] at hchar

/-! ## What a body denotes -/

/-- A hexadecimal digit, in either case, and its value. -/
def HexDigit (c : Char) (v : Nat) : Prop := v < 16 ∧ (c = v.digitChar ∨ c = v.digitChar.toUpper)

/-- Four hexadecimal digits and the number they write. -/
def HexUnit (digits : List Char) (n : Nat) : Prop :=
  ∃ values, List.Forall₂ HexDigit digits values ∧ values.length = 4 ∧
    Nat.ofDigits 16 values.reverse = n

/-- The one-character escapes of control characters. -/
def controlEscapes : List (Char × Char) :=
  [('n', '\n'), ('f', '\x0c'), ('r', '\r'), ('t', '\t'), ('v', '\x0b')]

/-- A one-character escape and the character it denotes: a control character, or itself. -/
def EscapeOf (e c : Char) : Prop :=
  (e, c) ∈ controlEscapes ∨ (e ≠ 'u' ∧ (∀ p ∈ controlEscapes, e ≠ p.1) ∧ c = e)

/-- A body and the UTF-16 units it denotes. -/
inductive Denotes : List Char → List Nat → Prop
  | nil : Denotes [] []
  | plain {c : Char} {body : List Char} {us : List Nat} (hescape : c ≠ '\\')
      (h : Denotes body us) : Denotes (c :: body) (Utf16.units c ++ us)
  | escape {e c : Char} {body : List Char} {us : List Nat} (he : EscapeOf e c)
      (h : Denotes body us) : Denotes ('\\' :: e :: body) (Utf16.units c ++ us)
  | unit {digits body : List Char} {n : Nat} {us : List Nat} (hdigits : HexUnit digits n)
      (h : Denotes body us) : Denotes ('\\' :: 'u' :: (digits ++ body)) (n :: us)

/-- What is read as a hexadecimal digit is one. -/
theorem hexDigit_of_hexDigit? {c : Char} {v : Nat} (h : hexDigit? c = some v) : HexDigit c v := by
  have hletter : ∀ k < 6, HexDigit (Char.ofNat (97 + k)) (10 + k) ∧
      HexDigit (Char.ofNat (65 + k)) (10 + k) := by
    unfold HexDigit
    decide
  unfold hexDigit? at h
  split at h
  · next hdigit =>
      rw [Char.isDigit, Bool.and_eq_true, decide_eq_true_eq, decide_eq_true_eq] at hdigit
      have hlow : 48 ≤ c.toNat := hdigit.1
      have hhigh : c.toNat ≤ 57 := hdigit.2
      obtain rfl := Option.some.inj h
      refine ⟨by omega, .inl (Char.toNat_inj.mp ?_)⟩
      rw [Nat.toNat_digitChar_of_lt_ten (by omega)]
      omega
  · split at h
    · next hlower =>
        have hlow : 97 ≤ c.toNat := hlower.1
        have hhigh : c.toNat ≤ 102 := hlower.2
        obtain rfl := Option.some.inj h
        have hc := (hletter (c.toNat - 97) (by omega)).1
        rwa [show 97 + (c.toNat - 97) = c.toNat by omega, Char.ofNat_toNat,
          show 10 + (c.toNat - 97) = c.toNat - 87 by omega] at hc
    · split at h
      · next hupper =>
          have hlow : 65 ≤ c.toNat := hupper.1
          have hhigh : c.toNat ≤ 70 := hupper.2
          obtain rfl := Option.some.inj h
          have hc := (hletter (c.toNat - 65) (by omega)).2
          rwa [show 65 + (c.toNat - 65) = c.toNat by omega, Char.ofNat_toNat,
            show 10 + (c.toNat - 65) = c.toNat - 55 by omega] at hc
      · contradiction

/-- The hexadecimal digits are those that are read. -/
theorem hexDigit?_eq_some_iff {c : Char} {v : Nat} : hexDigit? c = some v ↔ HexDigit c v := by
  refine ⟨hexDigit_of_hexDigit?, ?_⟩
  have hdigits : ∀ v < 16,
      hexDigit? v.digitChar = some v ∧ hexDigit? v.digitChar.toUpper = some v := by
    decide
  rintro ⟨hv, rfl | rfl⟩
  · exact (hdigits v hv).1
  · exact (hdigits v hv).2

/-- The number of four digits, written out. -/
theorem ofDigits_four (w x y z : Nat) :
    Nat.ofDigits 16 [w, x, y, z].reverse = ((w * 16 + x) * 16 + y) * 16 + z := by
  simp [Nat.ofDigits_cons]
  omega

/-- Four digits are read as a code unit exactly if they write one. -/
theorem unit?_eq_some_iff {a b c d : Char} {n : Nat} :
    unit? a b c d = some n ↔ HexUnit [a, b, c, d] n := by
  constructor
  · intro h
    unfold unit? at h
    split at h
    · next w x y z hw hx hy hz =>
        rw [hexDigit?_eq_some_iff] at hw hx hy hz
        obtain rfl := Option.some.inj h
        exact ⟨[w, x, y, z], .cons hw (.cons hx (.cons hy (.cons hz .nil))), rfl,
          ofDigits_four w x y z⟩
    · contradiction
  · rintro ⟨values, hvalues, -, rfl⟩
    match values, hvalues with
    | [w, x, y, z], .cons hw (.cons hx (.cons hy (.cons hz .nil))) =>
        rw [← hexDigit?_eq_some_iff] at hw hx hy hz
        simp only [unit?, hw, hx, hy, hz, ofDigits_four]

theorem HexUnit.exists_eq {digits : List Char} {n : Nat} (h : HexUnit digits n) :
    ∃ a b c d, digits = [a, b, c, d] ∧ unit? a b c d = some n := by
  obtain ⟨values, hvalues, hlength, hn⟩ := h
  match digits, hvalues.length_eq.trans hlength with
  | [a, b, c, d], _ => exact ⟨a, b, c, d, rfl, unit?_eq_some_iff.mpr ⟨values, hvalues, hlength, hn⟩⟩

/-- A letter behind a backslash stands for itself, or for a control character. -/
theorem escapeOf_iff {e c : Char} : EscapeOf e c ↔ e ≠ 'u' ∧ escaped e = c := by
  by_cases he : e ∈ controlEscapes.map Prod.fst
  · simp only [controlEscapes, List.map_cons, List.map_nil, List.mem_cons, List.not_mem_nil,
      or_false] at he
    obtain rfl | rfl | rfl | rfl | rfl := he <;>
      simp [EscapeOf, controlEscapes, escaped, eq_comm]
  · have hself : escaped e = e := by
      unfold escaped
      split <;> simp_all [controlEscapes]
    have hpair : (e, c) ∉ controlEscapes := fun h => he (List.mem_map_of_mem h)
    have hne : ∀ p ∈ controlEscapes, e ≠ p.1 := fun p hp h => he (h ▸ List.mem_map_of_mem hp)
    simp only [EscapeOf, hpair, false_or, hself]
    exact ⟨fun ⟨hu, _, hc⟩ => ⟨hu, hc.symm⟩, fun ⟨hu, hc⟩ => ⟨hu, hne, hc.symm⟩⟩

/-- Four digits write a number below 65536. -/
theorem lt_of_unit? {a b c d : Char} {n : Nat} (h : unit? a b c d = some n) : n < 0x10000 := by
  obtain ⟨values, hvalues, -, rfl⟩ := unit?_eq_some_iff.mp h
  match values, hvalues with
  | [w, x, y, z], .cons hw (.cons hx (.cons hy (.cons hz .nil))) =>
      have := hw.1
      have := hx.1
      have := hy.1
      have := hz.1
      rw [ofDigits_four]
      omega

theorem Spelled.lt_of_unit_mem {body : List Char} {items : List StringItem} {n : Nat}
    (h : Spelled body items) (hn : StringItem.unit n ∈ items) : n < 0x10000 := by
  induction h with
  | nil => contradiction
  | plain _ _ ih => exact ih (by simpa using hn)
  | escape _ _ ih => exact ih (by simpa using hn)
  | unit hunit _ ih =>
      obtain heq | hn := List.mem_cons.mp hn
      · cases heq
        exact lt_of_unit? hunit
      · exact ih hn

/-- A body denotes the units of the items it spells. -/
theorem denotes_iff {body : List Char} {us : List Nat} :
    Denotes body us ↔ ∃ items, Spelled body items ∧ us = items.flatMap units := by
  constructor
  · intro h
    induction h with
    | nil => exact ⟨[], .nil, rfl⟩
    | @plain c _ _ hescape _ ih =>
        obtain ⟨items, hitems, rfl⟩ := ih
        exact ⟨character c :: items, .plain hescape hitems, rfl⟩
    | @escape e c _ _ he _ ih =>
        obtain ⟨items, hitems, rfl⟩ := ih
        obtain ⟨hunit, rfl⟩ := escapeOf_iff.mp he
        exact ⟨_, .escape hunit hitems, rfl⟩
    | @unit _ _ n _ hdigits _ ih =>
        obtain ⟨items, hitems, rfl⟩ := ih
        obtain ⟨a, b, c, d, rfl, hunit⟩ := hdigits.exists_eq
        exact ⟨_, .unit hunit hitems, rfl⟩
  · rintro ⟨items, hitems, rfl⟩
    induction hitems with
    | nil => exact .nil
    | plain hescape _ ih => exact .plain hescape ih
    | escape hunit _ ih => exact .escape (escapeOf_iff.mpr ⟨hunit, rfl⟩) ih
    | unit hunit _ ih => exact .unit (unit?_eq_some_iff.mp hunit) ih

/-- Code units of two parts are those of the whole. -/
theorem Denotes.append {xs ys : List Char} {us vs : List Nat} (hx : Denotes xs us)
    (hy : Denotes ys vs) : Denotes (xs ++ ys) (us ++ vs) := by
  obtain ⟨is, his, rfl⟩ := denotes_iff.mp hx
  obtain ⟨js, hjs, rfl⟩ := denotes_iff.mp hy
  exact denotes_iff.mpr ⟨is ++ js, his.append hjs, by simp⟩

/-- A body that denotes units is read as their decoding. -/
theorem decodeString_of_denotes {body : List Char} {us : List Nat} {cs : List Char}
    (h : Denotes body us) (hus : Utf16.Decodes us cs) (offset : Nat) :
    decodeString offset body = .ok (String.ofList cs) := by
  obtain ⟨items, hitems, rfl⟩ := denotes_iff.mp h
  have hdecode := decodes_decode items fun n hn => hitems.lt_of_unit_mem hn
  rw [decodeString, read_of_spelled hitems, hus.unique hdecode]
  rfl

/-! ## Escapes of units in a body -/

open Computability Lexeme

/-- An escape of a unit in a body: characters and two-character escapes, then the backslash and
the `u`, then what follows. -/
def UnitEscapeAt (quote : Char) (body before after : List Char) : Prop :=
  body = before ++ '\\' :: 'u' :: after ∧ before ∈ (bodyItem quote)∗

/-- A text starts with four hexadecimal digits. -/
def StartsWithHexUnit (text : List Char) : Prop :=
  ∃ digits rest n, text = digits ++ rest ∧ HexUnit digits n

/-- The first escape of a unit in a body that lacks its four digits. -/
def FirstFault (quote : Char) (body before after : List Char) : Prop :=
  UnitEscapeAt quote body before after ∧ ¬ StartsWithHexUnit after ∧
    ∀ before' after', UnitEscapeAt quote body before' after' →
      before'.length < before.length → StartsWithHexUnit after'

/-- Whether a text starts with four hexadecimal digits is decided by its first four characters. -/
theorem startsWithHexUnit_iff {text : List Char} :
    StartsWithHexUnit text ↔ StartsWithUnit text := by
  rw [startsWithUnit_iff]
  constructor
  · rintro ⟨digits, rest, n, rfl, hdigits⟩
    obtain ⟨a, b, c, d, rfl, hunit⟩ := hdigits.exists_eq
    exact ⟨a, b, c, d, rest, n, rfl, hunit⟩
  · rintro ⟨a, b, c, d, rest, n, rfl, hunit⟩
    exact ⟨[a, b, c, d], rest, n, rfl, unit?_eq_some_iff.mp hunit⟩

theorem StartsWithUnit.append {text : List Char} (h : StartsWithUnit text) (more : List Char) :
    StartsWithUnit (text ++ more) := by
  obtain ⟨digits, rest, rfl, hdigits⟩ := h
  exact ⟨digits, rest ++ more, by simp, hdigits⟩

/-- A backslash is no digit, so the digits end before it. -/
theorem StartsWithUnit.of_append {text more : List Char}
    (h : StartsWithUnit (text ++ '\\' :: more)) : StartsWithUnit text := by
  obtain ⟨digits, rest, heq, hlength, hdigits⟩ := h
  obtain ⟨mid, rfl, hmid⟩ | ⟨mid, rfl, -⟩ := List.append_eq_append_iff.mp heq
  · cases mid with
    | nil => exact ⟨text, [], by simp, by simpa using hlength, by simpa using hdigits⟩
    | cons c mid =>
        obtain ⟨rfl, -⟩ := List.cons.inj hmid
        exact absurd rfl (ne_backslash_of_isSome_hexDigit? (hdigits '\\' (by simp)))
  · exact ⟨digits, mid, rfl, hlength, hdigits⟩

variable {quote : Char} {body before after : List Char}

/-- An escape is not at a character that stands for itself. -/
theorem UnitEscapeAt.of_plain {c : Char} (hc : c ≠ '\\')
    (h : UnitEscapeAt quote (c :: body) before after) :
    ∃ before', UnitEscapeAt quote body before' after := by
  obtain ⟨heq, hmem⟩ := h
  cases before with
  | nil => exact absurd (List.cons.inj heq).1 hc
  | cons d before =>
      obtain ⟨rfl, rfl⟩ := List.cons.inj heq
      obtain ⟨-, hmem⟩ | ⟨hd, -⟩ := cons_mem_bodyItem_kstar.mp hmem
      · exact ⟨before, rfl, hmem⟩
      · exact absurd hd hc

/-- An escape is the first one, or stands behind the first. -/
theorem UnitEscapeAt.of_escape {e : Char}
    (h : UnitEscapeAt quote ('\\' :: e :: body) before after) :
    (e = 'u' ∧ after = body) ∨ ∃ before', UnitEscapeAt quote body before' after := by
  obtain ⟨heq, hmem⟩ := h
  cases before with
  | nil =>
      obtain ⟨-, heq⟩ := List.cons.inj heq
      obtain ⟨rfl, rfl⟩ := List.cons.inj heq
      exact .inl ⟨rfl, rfl⟩
  | cons d before =>
      obtain ⟨rfl, htail⟩ := List.cons.inj heq
      obtain ⟨⟨-, hd⟩, -⟩ | ⟨-, d, rest, rfl, hrest⟩ := cons_mem_bodyItem_kstar.mp hmem
      · contradiction
      · obtain ⟨rfl, rfl⟩ := List.cons.inj htail
        exact .inr ⟨rest, rfl, hrest⟩

/-- In a body that spells items every escape of a unit has its digits. -/
theorem Spelled.startsWithUnit {items : List StringItem} (h : Spelled body items)
    (hescape : UnitEscapeAt quote body before after) : StartsWithUnit after := by
  induction h generalizing before with
  | nil => exact absurd hescape.1 (by simp)
  | plain hc _ ih =>
      obtain ⟨before, hescape⟩ := hescape.of_plain hc
      exact ih hescape
  | escape hunit _ ih =>
      obtain ⟨hu, -⟩ | ⟨before, hescape⟩ := hescape.of_escape
      · exact absurd hu hunit
      · exact ih hescape
  | @unit a b c d n rest _ hunit _ ih =>
      have hplain := ne_backslash_of_unit? hunit
      obtain ⟨-, rfl⟩ | ⟨before, hescape⟩ := hescape.of_escape
      · exact startsWithUnit_iff.mpr ⟨a, b, c, d, rest, n, rfl, hunit⟩
      · obtain ⟨before, hescape⟩ := hescape.of_plain (hplain a (by simp))
        obtain ⟨before, hescape⟩ := hescape.of_plain (hplain b (by simp))
        obtain ⟨before, hescape⟩ := hescape.of_plain (hplain c (by simp))
        obtain ⟨before, hescape⟩ := hescape.of_plain (hplain d (by simp))
        exact ih hescape

/-- What a body spells first is made of items of a string, whatever follows. -/
theorem Spelled.mem_bodyItem_kstar {items : List StringItem} {rest : List Char}
    (h : Spelled before items) (hmem : before ++ rest ∈ (bodyItem quote)∗) :
    before ∈ (bodyItem quote)∗ := by
  induction h with
  | nil => exact Language.nil_mem_kstar _
  | plain hc _ ih =>
      rw [List.cons_append, cons_mem_bodyItem_kstar] at hmem
      obtain ⟨hplain, hmem⟩ | ⟨hescape, -⟩ := hmem
      · exact cons_mem_bodyItem_kstar.mpr (.inl ⟨hplain, ih hmem⟩)
      · exact absurd hescape hc
  | escape _ _ ih =>
      rw [List.cons_append, cons_mem_bodyItem_kstar] at hmem
      obtain ⟨⟨-, hplain⟩, -⟩ | ⟨-, _, _, heq, hmem⟩ := hmem
      · contradiction
      · obtain ⟨-, rfl⟩ := List.cons.inj heq
        exact cons_mem_bodyItem_kstar.mpr (.inr ⟨rfl, _, _, rfl, ih hmem⟩)
  | @unit a b c d n body _ hunit _ ih =>
      have hplain := ne_backslash_of_unit? hunit
      rw [List.cons_append, cons_mem_bodyItem_kstar] at hmem
      obtain ⟨⟨-, hescape⟩, -⟩ | ⟨-, _, _, heq, hmem⟩ := hmem
      · contradiction
      · obtain ⟨-, rfl⟩ := List.cons.inj heq
        have hdigits := (append_mem_bodyItem_kstar hplain).mp hmem
        refine cons_mem_bodyItem_kstar.mpr (.inr ⟨rfl, 'u', [a, b, c, d] ++ body, rfl, ?_⟩)
        exact (append_mem_bodyItem_kstar hplain).mpr ⟨hdigits.1, ih hdigits.2⟩

/-- An escape that stands before another one ends before it. -/
theorem UnitEscapeAt.of_lt {before' after' : List Char}
    (h' : UnitEscapeAt quote body before' after') (h : body = before ++ '\\' :: 'u' :: after)
    (hlt : before'.length < before.length) :
    ∃ between, UnitEscapeAt quote before before' between ∧
      after' = between ++ '\\' :: 'u' :: after := by
  obtain ⟨heq, hmem⟩ := h'
  obtain ⟨mid, rfl, hmid⟩ | ⟨mid, rfl, -⟩ := List.append_eq_append_iff.mp (heq.symm.trans h)
  · match mid, hmid with
    | [], _ => simp at hlt
    | [_], hmid => simp at hmid
    | _ :: _ :: between, hmid =>
        simp only [List.cons_append, List.cons.injEq] at hmid
        obtain ⟨rfl, rfl, rfl⟩ := hmid
        exact ⟨between, ⟨rfl, hmem⟩, rfl⟩
  · rw [List.length_append] at hlt
    omega

/-- The malformed escape that stops the reader is the first one without its digits. -/
theorem malformed_iff_firstFault (hbody : body ∈ (bodyItem quote)∗) :
    Malformed body before after ↔ FirstFault quote body before after := by
  simp only [FirstFault, startsWithHexUnit_iff]
  constructor
  · rintro ⟨rfl, ⟨items, hitems⟩, hafter⟩
    refine ⟨⟨rfl, hitems.mem_bodyItem_kstar hbody⟩, hafter, ?_⟩
    intro before' after' hescape hlt
    obtain ⟨between, hbetween, rfl⟩ := hescape.of_lt rfl hlt
    exact (hitems.startsWithUnit hbetween).append _
  · rintro ⟨⟨rfl, hmem⟩, hafter, hfirst⟩
    refine ⟨rfl, ?_, hafter⟩
    obtain hspelled | ⟨front, between, rfl, ⟨items, hitems⟩, hbetween⟩ :=
      spelled_or_malformed before hmem
    · exact hspelled
    · have hescape : UnitEscapeAt quote (front ++ '\\' :: 'u' :: between ++ '\\' :: 'u' :: after)
          front (between ++ '\\' :: 'u' :: after) := ⟨by simp, hitems.mem_bodyItem_kstar hmem⟩
      exact absurd (hfirst _ _ hescape (by simp)).of_append hbetween

/-! ## Reading a body -/

/-- A body has a string as its value exactly if it denotes code units that decode to it. -/
theorem decodeString_eq_ok_iff (hbody : body ∈ (bodyItem quote)∗) (offset : Nat) (s : String) :
    decodeString offset body = .ok s ↔ ∃ us, Denotes body us ∧ Utf16.Decodes us s.toList := by
  constructor
  · intro h
    obtain ⟨items, hitems⟩ | ⟨before, after, hmalformed⟩ := spelled_or_malformed body hbody
    · rw [decodeString, read_of_spelled hitems] at h
      cases h
      refine ⟨_, denotes_iff.mpr ⟨items, hitems, rfl⟩, ?_⟩
      rw [String.toList_ofList]
      exact decodes_decode items fun n hn => hitems.lt_of_unit_mem hn
    · rw [decodeString, read_of_malformed hmalformed] at h
      contradiction
  · rintro ⟨us, hdenotes, hdecodes⟩
    rw [decodeString_of_denotes hdenotes hdecodes, String.ofList_toList]

/-- A body has no value exactly at its first malformed escape. -/
theorem decodeString_eq_error_iff (hbody : body ∈ (bodyItem quote)∗) (offset : Nat)
    (e : TokenError) :
    decodeString offset body = .error e ↔
      ∃ before after, FirstFault quote body before after ∧
        e = .invalidUnicodeEscape (offset + byteCount before) (String.ofList (after.take 4)) := by
  simp only [← malformed_iff_firstFault hbody]
  constructor
  · intro h
    obtain ⟨items, hitems⟩ | ⟨before, after, hmalformed⟩ := spelled_or_malformed body hbody
    · rw [decodeString, read_of_spelled hitems] at h
      contradiction
    · rw [decodeString, read_of_malformed hmalformed] at h
      cases h
      exact ⟨before, after, hmalformed, rfl⟩
  · rintro ⟨before, after, hmalformed, rfl⟩
    rw [decodeString, read_of_malformed hmalformed]
    rfl

/-- A body is read exactly if all its escapes of units have their digits. -/
theorem exists_decodeString_eq_ok_iff (hbody : body ∈ (bodyItem quote)∗) (offset : Nat) :
    (∃ s, decodeString offset body = .ok s) ↔
      ∀ before after, UnitEscapeAt quote body before after → StartsWithHexUnit after := by
  constructor
  · rintro ⟨s, h⟩ before after hescape
    obtain ⟨us, hdenotes, -⟩ := (decodeString_eq_ok_iff hbody offset s).mp h
    obtain ⟨items, hitems, -⟩ := denotes_iff.mp hdenotes
    exact startsWithHexUnit_iff.mpr (hitems.startsWithUnit hescape)
  · intro hall
    cases h : decodeString offset body with
    | ok s => exact ⟨s, rfl⟩
    | error e =>
        obtain ⟨before, after, hfault, -⟩ := (decodeString_eq_error_iff hbody offset e).mp h
        exact absurd (hall before after hfault.1) hfault.2.1

/-- The ways to write a character in a string: as it is, as a one-character escape, or as escapes
of its units. -/
inductive Writes : Char → List Char → Prop
  | plain {c : Char} (hescape : c ≠ '\\') : Writes c [c]
  | escape {e c : Char} (he : EscapeOf e c) : Writes c ['\\', e]
  | units {c : Char} {groups : List (List Char)}
      (hgroups : List.Forall₂ HexUnit groups (Utf16.units c)) :
      Writes c (groups.flatMap fun digits => '\\' :: 'u' :: digits)

/-- Escapes denote the code units that their digits write. -/
theorem denotes_flatMap_escapes {groups : List (List Char)} {us : List Nat}
    (h : List.Forall₂ HexUnit groups us) :
    Denotes (groups.flatMap fun digits => '\\' :: 'u' :: digits) us := by
  induction h with
  | nil => exact .nil
  | cons hdigits _ ih => exact .unit hdigits ih

/-- Each way to write a character denotes its code units. -/
theorem Writes.denotes {c : Char} {text : List Char} (h : Writes c text) :
    Denotes text (Utf16.units c) := by
  cases h with
  | plain hescape => simpa using Denotes.plain hescape .nil
  | escape he => simpa using Denotes.escape he .nil
  | units hgroups => exact denotes_flatMap_escapes hgroups

/-- Characters that are written one by one denote their code units, one after the other. -/
theorem denotes_flatten {cs : List Char} {texts : List (List Char)}
    (h : List.Forall₂ Writes cs texts) : Denotes texts.flatten (cs.flatMap Utf16.units) := by
  induction h with
  | nil => exact .nil
  | cons hwrites _ ih => exact hwrites.denotes.append ih

/-- **Strings are read as lossy UTF-16.**  The body of a string is read exactly if every escape of
a unit in it has four hexadecimal digits, and then its value is the lossy decoding of the units
that it denotes; otherwise the fault is at the first escape without its digits, and carries what
follows there.  A text that is written character by character, each in any of its ways, is read
back. -/
theorem decodeString_lossy (offset : Nat) :
    (∀ (quote : Char) (body : List Char), quote :: (body ++ [quote]) ∈ Lexeme.pattern .quoted →
      ((∃ s, decodeString offset body = .ok s) ↔
        ∀ before after, UnitEscapeAt quote body before after → StartsWithHexUnit after) ∧
      (∀ s, decodeString offset body = .ok s ↔
        ∃ us, Denotes body us ∧ Utf16.Decodes us s.toList) ∧
      ∀ e, decodeString offset body = .error e ↔
        ∃ before after, FirstFault quote body before after ∧
          e = .invalidUnicodeEscape (offset + byteCount before) (String.ofList (after.take 4))) ∧
    ∀ (s : String) (texts : List (List Char)), List.Forall₂ Writes s.toList texts →
      decodeString offset texts.flatten = .ok s := by
  constructor
  · intro quote body hquoted
    obtain ⟨quote', body', -, heq, hbody⟩ := Lexeme.exists_body_of_mem_quoted hquoted
    obtain ⟨rfl, heq⟩ := List.cons.inj heq
    obtain rfl : body = body' := List.append_cancel_right heq
    exact ⟨exists_decodeString_eq_ok_iff hbody offset, decodeString_eq_ok_iff hbody offset,
      decodeString_eq_error_iff hbody offset⟩
  · intro s texts htexts
    have hdecodes := Utf16.decodes_flatMap_units s.toList
    rw [decodeString_of_denotes (denotes_flatten htexts) hdecodes, String.ofList_toList]

/-- A high surrogate before a character, an escape cut short behind a character of two bytes, and
a character written as a pair of surrogates. -/
theorem decodeString_lossy_surrogates :
    ('"' :: ("\\ud83dé".toList ++ ['"']) ∈ Lexeme.pattern .quoted ∧
      ∃ us, Denotes "\\ud83dé".toList us ∧ Utf16.Decodes us "\ufffdé".toList) ∧
    ('"' :: ("é\\u12".toList ++ ['"']) ∈ Lexeme.pattern .quoted ∧
      ∃ before after, FirstFault '"' "é\\u12".toList before after ∧
        TokenError.invalidUnicodeEscape 3 "12" =
          .invalidUnicodeEscape (1 + byteCount before) (String.ofList (after.take 4))) ∧
    List.Forall₂ Writes "😀\n".toList ["\\ud83d\\uDE00".toList, "\\n".toList] ∧
      decodeString 1 ["\\ud83d\\uDE00".toList, "\\n".toList].flatten = .ok "😀\n" := by
  have hunpaired : '"' :: ("\\ud83dé".toList ++ ['"']) ∈ Lexeme.pattern .quoted :=
    Lexeme.mem_pattern_of_matchLength? (by decide +kernel)
  have hshort : '"' :: ("é\\u12".toList ++ ['"']) ∈ Lexeme.pattern .quoted :=
    Lexeme.mem_pattern_of_matchLength? (by decide +kernel)
  have hgroups : List.Forall₂ HexUnit [['d', '8', '3', 'd'], ['D', 'E', '0', '0']]
      (Utf16.units '😀') := by
    rw [show Utf16.units '😀' = [0xd83d, 0xde00] by decide +kernel]
    exact .cons (unit?_eq_some_iff.mp (by decide +kernel))
      (.cons (unit?_eq_some_iff.mp (by decide +kernel)) .nil)
  have hwrites : List.Forall₂ Writes "😀\n".toList ["\\ud83d\\uDE00".toList, "\\n".toList] := by
    rw [show "😀\n".toList = ['😀', '\n'] by decide +kernel]
    exact .cons (.units hgroups) (.cons (.escape (.inl (by decide))) .nil)
  have hvalue : decodeString 1 "\\ud83dé".toList = .ok "\ufffdé" := by decide +kernel
  have hfault : decodeString 1 "é\\u12".toList = .error (.invalidUnicodeEscape 3 "12") := by
    decide +kernel
  refine ⟨⟨hunpaired, ?_⟩, ⟨hshort, ?_⟩, hwrites, ?_⟩
  · exact (((decodeString_lossy 1).1 _ _ hunpaired).2.1 _).mp hvalue
  · exact (((decodeString_lossy 1).1 _ _ hshort).2.2 _).mp hfault
  · exact (decodeString_lossy 1).2 _ _ hwrites

end StringItem

end TemplateMigration
