import Mathlib.Computability.Language
import TemplateMigration.Expression.Lexeme

/-!
# TemplateMigration.Proofs.Expression.Pattern

The patterns of lexemes as languages.

`Lexeme.pattern` writes each pattern as a regular expression over characters: union, product and
star of the language library.  `Lexeme.measures_matchLength?` is the one fact about the readers
of `Lexeme`: `matchLength? p` gives the length of the longest prefix of a text that is in
`pattern p`, and nothing when no prefix is.
-/

namespace TemplateMigration

namespace Lexeme

open Computability

/-! ## The patterns -/

/-- One character with a property. -/
def one (p : Char → Prop) : Language Char := {word | ∃ c, p c ∧ word = [c]}

/-- A character of a string that neither closes it nor escapes, or a backslash with any
character. -/
def bodyItem (quote : Char) : Language Char :=
  one (fun c => c ≠ quote ∧ c ≠ '\\') + one (· = '\\') * one (fun _ => True)

/-- A string between two of the same quote. -/
def closedBy (quote : Char) : Language Char :=
  one (· = quote) * ((bodyItem quote)∗ * one (· = quote))

/-- A quote and a body without a closing quote; a lone backslash may stand last. -/
def openedBy (quote : Char) : Language Char :=
  one (· = quote) * ((bodyItem quote)∗ * (1 + one (· = '\\')))

/-- One decimal digit or more. -/
def someDigits : Language Char := one (·.isDigit) * (one (·.isDigit))∗

/-- Digits with an optional point and digits, or a point with digits. -/
def mantissa : Language Char :=
  someDigits * (1 + one (· = '.') * (one (·.isDigit))∗) + one (· = '.') * someDigits

/-- An exponent mark, an optional sign and digits. -/
def exponentPart : Language Char :=
  one (· ∈ ['e', 'E']) * ((1 + one (· ∈ ['+', '-'])) * someDigits)

/-- The operators as they are written. -/
def operatorTexts : List String :=
  ["===", "!==", "==", "!=", "<=", ">=", "&&", "||", "!", "=", "|", "+", "-", "*", "/", "%", "<",
   ">"]

/-- The texts that each pattern stands for. -/
def pattern : Lexeme → Language Char
  | quoted => closedBy '"' + closedBy '\''
  | unterminated => openedBy '"' + openedBy '\''
  | number => mantissa * (1 + exponentPart)
  | danglingExponent => mantissa * (one (· ∈ ['e', 'E']) * one (· ∈ ['+', '-']))
  | identifier =>
      one (fun c => c.isAlpha ∨ c = '_' ∨ c = '$') *
        (one fun c => c.isAlpha ∨ c.isDigit ∨ c = '_' ∨ c = '$')∗
  | punctuation => one (· ∈ ['(', ')', '\x7b', '\x7d', '[', ']', '.', ',', ';', ':', '?'])
  | operator => {word | String.ofList word ∈ operatorTexts}

/-- A reader gives the length of the longest prefix of a text that is in a language. -/
structure Measures (L : Language Char) (length? : List Char → Option Nat) : Prop where
  mem : ∀ {text n}, length? text = some n →
    ∃ word rest, text = word ++ rest ∧ word.length = n ∧ word ∈ L
  le : ∀ {word}, word ∈ L → ∀ rest, ∃ n, length? (word ++ rest) = some n ∧ word.length ≤ n

/-! ## Words of the operations -/

/-- The words of a class of characters are its single characters. -/
theorem mem_one {p : Char → Prop} {word : List Char} : word ∈ one p ↔ ∃ c, p c ∧ word = [c] :=
  Iff.rfl

@[simp] theorem nil_notMem_one {p : Char → Prop} : [] ∉ one p := by simp [mem_one]

@[simp] theorem cons_mem_one {p : Char → Prop} {c : Char} {word : List Char} :
    c :: word ∈ one p ↔ p c ∧ word = [] := by
  simp [mem_one]

/-- A word that starts with a character of a class. -/
theorem mem_one_mul {p : Char → Prop} {L : Language Char} {word : List Char} :
    word ∈ one p * L ↔ ∃ c rest, p c ∧ rest ∈ L ∧ word = c :: rest := by
  simp only [Language.mem_mul, mem_one]
  constructor
  · rintro ⟨_, ⟨c, hc, rfl⟩, rest, hrest, rfl⟩
    exact ⟨c, rest, hc, hrest, rfl⟩
  · rintro ⟨c, rest, hc, hrest, rfl⟩
    exact ⟨[c], ⟨c, hc, rfl⟩, rest, hrest, rfl⟩

@[simp] theorem nil_notMem_one_mul {p : Char → Prop} {L : Language Char} : [] ∉ one p * L := by
  simp [mem_one_mul]

@[simp] theorem cons_mem_one_mul {p : Char → Prop} {L : Language Char} {c : Char}
    {word : List Char} : c :: word ∈ one p * L ↔ p c ∧ word ∈ L := by
  simp [mem_one_mul]

/-- The star of a class holds the texts of its characters. -/
theorem mem_kstar_one {p : Char → Prop} {word : List Char} :
    word ∈ (one p)∗ ↔ ∀ c ∈ word, p c := by
  induction word with
  | nil => simp [Language.nil_mem_kstar]
  | cons c word ih =>
      rw [← Language.one_add_self_mul_kstar_eq_kstar, Language.mem_add]
      simp [ih]

/-! ## Strings -/

/-- A body of string items before something else starts with that or with an item. -/
theorem cons_mem_bodyItem_kstar_mul {quote c : Char} {word : List Char} {L : Language Char} :
    c :: word ∈ (bodyItem quote)∗ * L ↔
      c :: word ∈ L ∨ ((c ≠ quote ∧ c ≠ '\\') ∧ word ∈ (bodyItem quote)∗ * L) ∨
        (c = '\\' ∧ ∃ d rest, word = d :: rest ∧ rest ∈ (bodyItem quote)∗ * L) := by
  have hunfold : (bodyItem quote)∗ * L =
      L + (one (fun c => c ≠ quote ∧ c ≠ '\\') * ((bodyItem quote)∗ * L) +
        one (· = '\\') * (one (fun _ => True) * ((bodyItem quote)∗ * L))) := by
    conv_lhs => rw [← Language.one_add_self_mul_kstar_eq_kstar]
    conv_lhs => enter [1, 2, 1]; rw [bodyItem]
    simp only [add_mul, one_mul, mul_assoc]
  conv_lhs => rw [hunfold]
  simp only [Language.mem_add, mem_one_mul]
  grind

/-- A body can be empty in front of what can be empty. -/
theorem nil_mem_bodyItem_kstar_mul {quote : Char} {L : Language Char} :
    [] ∈ (bodyItem quote)∗ * L ↔ [] ∈ L := by
  simp [Language.mem_mul, Language.nil_mem_kstar]

theorem isQuote_iff {c : Char} : isQuote c ↔ c = '"' ∨ c = '\'' := by simp [isQuote]

theorem ne_backslash_of_isQuote {quote : Char} (h : isQuote quote) : quote ≠ '\\' := by
  rintro rfl
  contradiction

/-- A quoted string is closed by the quote that opens it. -/
theorem mem_pattern_quoted {word : List Char} :
    word ∈ pattern quoted ↔ ∃ quote, isQuote quote ∧ word ∈ closedBy quote := by
  simp only [pattern, Language.mem_add, isQuote_iff, or_and_right, exists_or, exists_eq_left]

/-- A closed string is its body between two equal quotes. -/
theorem exists_body_of_mem_quoted {word : List Char} (h : word ∈ pattern quoted) :
    ∃ quote body, isQuote quote ∧ word = quote :: (body ++ [quote]) ∧
      body ∈ (bodyItem quote)∗ := by
  obtain ⟨quote, hquote, h⟩ := mem_pattern_quoted.mp h
  obtain ⟨_, tail, rfl, htail, rfl⟩ := mem_one_mul.mp h
  obtain ⟨body, hbody, _, ⟨_, rfl, rfl⟩, rfl⟩ := Language.mem_mul.mp htail
  exact ⟨_, body, hquote, rfl, hbody⟩

/-- An unterminated string is not closed by the quote that opens it. -/
theorem mem_pattern_unterminated {word : List Char} :
    word ∈ pattern unterminated ↔ ∃ quote, isQuote quote ∧ word ∈ openedBy quote := by
  simp only [pattern, Language.mem_add, isQuote_iff, or_and_right, exists_or, exists_eq_left]

/-- What `closedBody?` counts is a body with its closing quote. -/
theorem mem_of_closedBody? {quote : Char} {text : List Char} {n : Nat}
    (h : closedBody? quote text = some n) :
    ∃ word rest, text = word ++ rest ∧ word.length = n ∧
      word ∈ (bodyItem quote)∗ * one (· = quote) := by
  fun_induction closedBody? quote text generalizing n with
  | case1 => contradiction
  | case2 cs =>
      obtain rfl : 1 = n := Option.some.inj h
      exact ⟨[quote], cs, rfl, rfl, by simp [cons_mem_bodyItem_kstar_mul]⟩
  | case3 => contradiction
  | case4 c rest _ ih =>
      obtain ⟨k, hk, rfl⟩ := Option.map_eq_some_iff.mp h
      obtain ⟨word, after, rfl, rfl, hword⟩ := ih hk
      refine ⟨'\\' :: c :: word, after, rfl, rfl, ?_⟩
      rw [cons_mem_bodyItem_kstar_mul]
      exact .inr (.inr ⟨rfl, c, word, rfl, hword⟩)
  | case5 c cs hquote hescape ih =>
      obtain ⟨k, hk, rfl⟩ := Option.map_eq_some_iff.mp h
      obtain ⟨word, after, rfl, rfl, hword⟩ := ih hk
      refine ⟨c :: word, after, rfl, rfl, ?_⟩
      rw [cons_mem_bodyItem_kstar_mul]
      exact .inr (.inl ⟨⟨hquote, hescape⟩, hword⟩)

/-- A quote closes the body at once. -/
theorem closedBody?_quote (quote : Char) (cs : List Char) :
    closedBody? quote (quote :: cs) = some 1 := by
  rw [closedBody?.eq_def]
  simp

/-- An ordinary character is passed on the way to the quote that closes the body. -/
theorem closedBody?_plain {quote c : Char} (hquote : c ≠ quote) (hescape : c ≠ '\\')
    (cs : List Char) : closedBody? quote (c :: cs) = (closedBody? quote cs).map (· + 1) := by
  rw [closedBody?.eq_def]
  simp [hquote, hescape]

/-- An ordinary character belongs to the body that is not closed. -/
theorem openBody_plain {quote c : Char} (hquote : c ≠ quote) (hescape : c ≠ '\\')
    (cs : List Char) : openBody quote (c :: cs) = openBody quote cs + 1 := by
  rw [openBody.eq_def]
  simp [hquote, hescape]

/-- Induction along the items of a body. -/
@[elab_as_elim]
theorem bodyItem_kstar_mul_induction {quote : Char} {L : Language Char}
    {motive : List Char → Prop} (last : ∀ word ∈ L, motive word)
    (plain : ∀ c word, c ≠ quote → c ≠ '\\' → motive word → motive (c :: word))
    (escape : ∀ c word, motive word → motive ('\\' :: c :: word)) :
    ∀ word ∈ (bodyItem quote)∗ * L, motive word
  | [], h => last [] (nil_mem_bodyItem_kstar_mul.mp h)
  | [c], h => by
      obtain h | ⟨⟨hquote, hescape⟩, h⟩ | ⟨-, d, rest, h, -⟩ := cons_mem_bodyItem_kstar_mul.mp h
      · exact last _ h
      · exact plain c [] hquote hescape (last [] (nil_mem_bodyItem_kstar_mul.mp h))
      · contradiction
  | c :: d :: word, h => by
      obtain h | ⟨⟨hquote, hescape⟩, h⟩ | ⟨rfl, _, _, hword, h⟩ :=
        cons_mem_bodyItem_kstar_mul.mp h
      · exact last _ h
      · exact plain c _ hquote hescape
          (bodyItem_kstar_mul_induction last plain escape (d :: word) h)
      · cases hword
        exact escape d word (bodyItem_kstar_mul_induction last plain escape word h)

/-- No body with its closing quote is the beginning of another. -/
theorem closedBody?_append {quote : Char} (hquote : isQuote quote) {word : List Char}
    (h : word ∈ (bodyItem quote)∗ * one (· = quote)) (rest : List Char) :
    closedBody? quote (word ++ rest) = some word.length := by
  have hne := ne_backslash_of_isQuote hquote
  refine bodyItem_kstar_mul_induction ?_ ?_ ?_ word h
  · rintro _ ⟨_, rfl, rfl⟩
    exact closedBody?_quote _ _
  · intro c word hc hescape ih
    simp [closedBody?_plain hc hescape, ih]
  · intro c word ih
    simp [closedBody?, hne.symm, ih]

/-- What `openBody` counts is a body without its closing quote. -/
theorem mem_of_openBody (quote : Char) (text : List Char) :
    ∃ word rest, text = word ++ rest ∧ word.length = openBody quote text ∧
      word ∈ (bodyItem quote)∗ * (1 + one (· = '\\')) := by
  fun_induction openBody quote text with
  | case1 => exact ⟨[], [], rfl, rfl, nil_mem_bodyItem_kstar_mul.mpr (.inl rfl)⟩
  | case2 cs =>
      exact ⟨[], quote :: cs, rfl, rfl, nil_mem_bodyItem_kstar_mul.mpr (.inl rfl)⟩
  | case3 =>
      refine ⟨['\\'], [], rfl, rfl, ?_⟩
      exact cons_mem_bodyItem_kstar_mul.mpr (.inl (.inr ⟨_, rfl, rfl⟩))
  | case4 c rest _ ih =>
      obtain ⟨word, after, rfl, hlength, hword⟩ := ih
      refine ⟨'\\' :: c :: word, after, rfl, by simp [hlength], ?_⟩
      exact cons_mem_bodyItem_kstar_mul.mpr (.inr (.inr ⟨rfl, c, word, rfl, hword⟩))
  | case5 c cs hquote hescape ih =>
      obtain ⟨word, after, rfl, hlength, hword⟩ := ih
      refine ⟨c :: word, after, rfl, by simp [hlength], ?_⟩
      exact cons_mem_bodyItem_kstar_mul.mpr (.inr (.inl ⟨⟨hquote, hescape⟩, hword⟩))

/-- A body without a closing quote is never longer than what `openBody` counts. -/
theorem le_openBody_append {quote : Char} (hquote : isQuote quote) {word : List Char}
    (h : word ∈ (bodyItem quote)∗ * (1 + one (· = '\\'))) (rest : List Char) :
    word.length ≤ openBody quote (word ++ rest) := by
  have hne := ne_backslash_of_isQuote hquote
  refine bodyItem_kstar_mul_induction ?_ ?_ ?_ word h
  · rintro _ (rfl | ⟨_, rfl, rfl⟩)
    · simp
    · cases rest <;> simp [openBody, hne.symm]
  · intro c word hc hescape ih
    simpa [openBody_plain hc hescape] using ih
  · intro c word ih
    simpa [openBody, hne.symm] using ih

/-- Quoted strings are measured by `quoted?`. -/
theorem measures_quoted? : Measures (pattern quoted) quoted? where
  mem := by
    intro text n h
    cases text with
    | nil => contradiction
    | cons c cs =>
        rw [quoted?] at h
        split at h
        · next hquote =>
            obtain ⟨k, hk, rfl⟩ := Option.map_eq_some_iff.mp h
            obtain ⟨word, rest, rfl, rfl, hword⟩ := mem_of_closedBody? hk
            refine ⟨c :: word, rest, rfl, rfl, mem_pattern_quoted.mpr ⟨c, hquote, ?_⟩⟩
            exact cons_mem_one_mul.mpr ⟨rfl, hword⟩
        · contradiction
  le := by
    intro word h rest
    obtain ⟨quote, hquote, h⟩ := mem_pattern_quoted.mp h
    obtain ⟨_, body, rfl, hbody, rfl⟩ := mem_one_mul.mp h
    refine ⟨body.length + 1, ?_, Nat.le_refl _⟩
    simp [quoted?, hquote, closedBody?_append hquote hbody]

/-- Unterminated strings are measured by `unterminated?`. -/
theorem measures_unterminated? : Measures (pattern unterminated) unterminated? where
  mem := by
    intro text n h
    cases text with
    | nil => contradiction
    | cons c cs =>
        rw [unterminated?] at h
        split at h
        · next hquote =>
            obtain rfl := Option.some.inj h
            obtain ⟨word, rest, hcs, hlength, hword⟩ := mem_of_openBody c cs
            refine ⟨c :: word, rest, by rw [hcs]; rfl, by rw [← hlength]; rfl, ?_⟩
            exact mem_pattern_unterminated.mpr ⟨c, hquote, cons_mem_one_mul.mpr ⟨rfl, hword⟩⟩
        · contradiction
  le := by
    intro word h rest
    obtain ⟨quote, hquote, h⟩ := mem_pattern_unterminated.mp h
    obtain ⟨_, body, rfl, hbody, rfl⟩ := mem_one_mul.mp h
    have hle := le_openBody_append hquote hbody rest
    exact ⟨_, by simp [unterminated?, hquote]; rfl, by simpa using hle⟩

/-! ## Numbers -/

/-- A word of one or more digits. -/
theorem mem_someDigits {word : List Char} :
    word ∈ someDigits ↔ word ≠ [] ∧ ∀ c ∈ word, c.isDigit := by
  cases word with
  | nil => simp [someDigits]
  | cons c word => simp [someDigits, mem_kstar_one]

/-- Digits in front of a text are counted. -/
theorem digits_append {ds : List Char} (h : ∀ c ∈ ds, c.isDigit) (rest : List Char) :
    digits (ds ++ rest) = ds.length + digits rest := by
  rw [digits, List.takeWhile_append_of_pos h, List.length_append, digits]

/-- Every text starts with as many digits as are counted. -/
theorem exists_eq_digits (text : List Char) :
    ∃ ds rest, text = ds ++ rest ∧ (∀ c ∈ ds, c.isDigit) ∧ digits text = ds.length := by
  refine ⟨_, _, (List.takeWhile_append_dropWhile (p := Char.isDigit)).symm, ?_, rfl⟩
  exact List.all_eq_true.mp List.all_takeWhile

/-- A text that starts with neither a digit nor a point, so that a mantissa before it ends. -/
def EndsMantissa (text : List Char) : Prop := ∀ c ∈ text.head?, ¬ c.isDigit ∧ c ≠ '.'

theorem digits_eq_zero {text : List Char} (h : EndsMantissa text) : digits text = 0 := by
  cases text with
  | nil => rfl
  | cons c cs =>
      have hc := (h c rfl).1
      simp [digits, hc]

/-- After its first digits a text has a point, or the mantissa ends there. -/
theorem exists_digits_append (text : List Char) :
    ∃ ds rest, (∀ c ∈ ds, c.isDigit) ∧
      (text = ds ++ '.' :: rest ∨ text = ds ++ rest ∧ EndsMantissa rest) := by
  induction text with
  | nil => exact ⟨[], [], by simp, .inr ⟨rfl, by simp [EndsMantissa]⟩⟩
  | cons c cs ih =>
      by_cases hc : c.isDigit
      · obtain ⟨ds, rest, hds, htext⟩ := ih
        exact ⟨c :: ds, rest, by simpa [hc] using hds, by simpa using htext⟩
      · by_cases hpoint : c = '.'
        · exact ⟨[], cs, by simp, .inl (by simp [hpoint])⟩
        · exact ⟨[], c :: cs, by simp, .inr ⟨rfl, by simp [EndsMantissa, hc, hpoint]⟩⟩

/-- The mantissa with a point: there are digits on one side of it at least. -/
theorem mantissa?_point {ds : List Char} (h : ∀ c ∈ ds, c.isDigit) (rest : List Char) :
    mantissa? (ds ++ '.' :: rest) =
      if ds.length = 0 ∧ digits rest = 0 then none else some (ds.length + 1 + digits rest) := by
  have hwhole : digits (ds ++ '.' :: rest) = ds.length := by
    rw [digits_append h]
    simp [digits]
  simp only [mantissa?, hwhole, List.drop_left]

/-- The mantissa without a point: there is a digit. -/
theorem mantissa?_digits {ds rest : List Char} (h : ∀ c ∈ ds, c.isDigit)
    (hrest : EndsMantissa rest) :
    mantissa? (ds ++ rest) = if ds.length = 0 then none else some ds.length := by
  have hwhole : digits (ds ++ rest) = ds.length := by
    rw [digits_append h, digits_eq_zero hrest, Nat.add_zero]
  simp only [mantissa?, hwhole, List.drop_left]
  split
  · next after => exact absurd rfl (hrest '.' rfl).2
  · rfl

/-- A mantissa is digits, or digits around a point that are not missing on both sides. -/
theorem mem_mantissa {word : List Char} :
    word ∈ mantissa ↔ word ∈ someDigits ∨
      ∃ ds es, (∀ c ∈ ds, c.isDigit) ∧ (∀ c ∈ es, c.isDigit) ∧ ¬ (ds = [] ∧ es = []) ∧
        word = ds ++ '.' :: es := by
  simp only [mantissa, mul_add, mul_one, Language.mem_add]
  constructor
  · rintro ((h | h) | h)
    · exact .inl h
    · obtain ⟨ds, hds, _, htail, rfl⟩ := Language.mem_mul.mp h
      obtain ⟨_, es, rfl, hes, rfl⟩ := mem_one_mul.mp htail
      obtain ⟨hne, hds⟩ := mem_someDigits.mp hds
      exact .inr ⟨ds, es, hds, mem_kstar_one.mp hes, by simp [hne], rfl⟩
    · obtain ⟨_, es, rfl, hes, rfl⟩ := mem_one_mul.mp h
      obtain ⟨hne, hes⟩ := mem_someDigits.mp hes
      exact .inr ⟨[], es, by simp, hes, by simp [hne], rfl⟩
  · rintro (h | ⟨ds, es, hds, hes, hne, rfl⟩)
    · exact .inl (.inl h)
    · by_cases hempty : ds = []
      · subst hempty
        have hes' : es ∈ someDigits := mem_someDigits.mpr ⟨by simpa using hne, hes⟩
        exact .inr (cons_mem_one_mul.mpr ⟨rfl, hes'⟩)
      · have hds' : ds ∈ someDigits := mem_someDigits.mpr ⟨hempty, hds⟩
        have hes' : '.' :: es ∈ one (· = '.') * (one (·.isDigit))∗ :=
          cons_mem_one_mul.mpr ⟨rfl, mem_kstar_one.mpr hes⟩
        exact .inl (.inr (Language.append_mem_mul hds' hes'))

/-- A mantissa is read exactly where the text after it ends it. -/
theorem mantissa?_append {word rest : List Char} (h : word ∈ mantissa)
    (hrest : EndsMantissa rest) : mantissa? (word ++ rest) = some word.length := by
  obtain h | ⟨ds, es, hds, hes, hne, rfl⟩ := mem_mantissa.mp h
  · obtain ⟨hne, hword⟩ := mem_someDigits.mp h
    rw [mantissa?_digits hword hrest, if_neg (by simpa using hne)]
  · have hplaces : digits (es ++ rest) = es.length := by
      rw [digits_append hes, digits_eq_zero hrest, Nat.add_zero]
    rw [List.append_assoc, List.cons_append, mantissa?_point hds, hplaces,
      if_neg (by simpa using hne)]
    simp only [List.length_append, List.length_cons]
    congr 1
    omega

/-- Mantissas are measured by `mantissa?`. -/
theorem measures_mantissa? : Measures mantissa mantissa? where
  mem := by
    intro text n h
    obtain ⟨ds, rest, hds, rfl | ⟨rfl, hrest⟩⟩ := exists_digits_append text
    · obtain ⟨es, after, rfl, hes, hplaces⟩ := exists_eq_digits rest
      rw [mantissa?_point hds, hplaces] at h
      split at h
      · contradiction
      · next hne =>
          obtain rfl := Option.some.inj h
          refine ⟨ds ++ '.' :: es, after, by simp, by simp; omega, mem_mantissa.mpr (.inr ?_)⟩
          exact ⟨ds, es, hds, hes, by simpa using hne, rfl⟩
    · rw [mantissa?_digits hds hrest] at h
      split at h
      · contradiction
      · next hne =>
          obtain rfl := Option.some.inj h
          refine ⟨ds, rest, rfl, rfl, mem_mantissa.mpr (.inl ?_)⟩
          exact mem_someDigits.mpr ⟨by simpa using hne, hds⟩
  le := by
    intro word h rest
    obtain h | ⟨ds, es, hds, hes, hne, rfl⟩ := mem_mantissa.mp h
    · obtain ⟨hne, hword⟩ := mem_someDigits.mp h
      have hpos : word.length ≠ 0 := by simpa using hne
      obtain ⟨ds, after, hds, htext⟩ := exists_digits_append rest
      have hall : ∀ c ∈ word ++ ds, c.isDigit := by
        intro c hc
        exact (List.mem_append.mp hc).elim (hword c) (hds c)
      obtain rfl | ⟨rfl, hafter⟩ := htext
      · refine ⟨(word ++ ds).length + 1 + digits after, ?_, by simp; omega⟩
        rw [← List.append_assoc, mantissa?_point hall, if_neg (by simp [hne])]
      · refine ⟨(word ++ ds).length, ?_, by simp⟩
        rw [← List.append_assoc, mantissa?_digits hall hafter, if_neg (by simp [hne])]
    · refine ⟨ds.length + 1 + digits (es ++ rest), ?_, ?_⟩
      · rw [List.append_assoc, List.cons_append, mantissa?_point hds, if_neg]
        rw [digits_append hes, Nat.add_eq_zero_iff]
        simp only [List.length_eq_zero_iff]
        exact fun h => hne ⟨h.1, h.2.1⟩
      · rw [digits_append hes]
        simp
        omega

theorem isExponentMark_iff {c : Char} : isExponentMark c ↔ c ∈ ['e', 'E'] := by
  simp [isExponentMark]

theorem isSign_iff {c : Char} : isSign c ↔ c ∈ ['+', '-'] := by simp [isSign]

theorem not_isSign_of_isDigit {c : Char} (h : c.isDigit) : ¬ isSign c := by
  have hsigns : ∀ s ∈ ['+', '-'], ¬ s.isDigit := by simp
  intro hsign
  exact hsigns c (isSign_iff.mp hsign) h

/-- A mantissa does not reach into an exponent. -/
theorem endsMantissa_of_isExponentMark {e : Char} (h : isExponentMark e) (text : List Char) :
    EndsMantissa (e :: text) := by
  have hmarks : ∀ e ∈ ['e', 'E'], ¬ e.isDigit ∧ e ≠ '.' := by simp
  intro c hc
  obtain rfl : e = c := Option.some.inj hc
  exact hmarks e (isExponentMark_iff.mp h)

/-- An exponent is a mark and digits, with a sign between them or without. -/
theorem mem_exponentPart {word : List Char} :
    word ∈ exponentPart ↔ ∃ e ds, isExponentMark e ∧ ds ∈ someDigits ∧
      (word = e :: ds ∨ ∃ s, isSign s ∧ word = e :: s :: ds) := by
  simp only [exponentPart, mem_one_mul, add_mul, one_mul, Language.mem_add, isExponentMark_iff,
    isSign_iff]
  constructor
  · rintro ⟨e, _, he, hds | ⟨s, ds, hs, hds, rfl⟩, rfl⟩
    · exact ⟨e, _, he, hds, .inl rfl⟩
    · exact ⟨e, ds, he, hds, .inr ⟨s, hs, rfl⟩⟩
  · rintro ⟨e, ds, he, hds, rfl | ⟨s, hs, rfl⟩⟩
    · exact ⟨e, ds, he, .inl hds, rfl⟩
    · exact ⟨e, s :: ds, he, .inr ⟨s, ds, hs, hds, rfl⟩, rfl⟩

/-- An exponent without a sign counts if there is a digit behind the mark. -/
theorem exponent_plain {e c : Char} (he : isExponentMark e) (hc : ¬ isSign c) (rest : List Char) :
    exponent (e :: c :: rest) =
      if digits (c :: rest) = 0 then 0 else digits (c :: rest) + 1 := by
  simp [exponent, he, hc]

/-- An exponent with a sign counts if there is a digit behind the sign. -/
theorem exponent_signed {e s : Char} (he : isExponentMark e) (hs : isSign s) (rest : List Char) :
    exponent (e :: s :: rest) = if digits rest = 0 then 0 else digits rest + 2 := by
  simp [exponent, he, hs]

/-- What `exponent` counts is nothing or an exponent. -/
theorem mem_of_exponent (text : List Char) :
    ∃ word rest, text = word ++ rest ∧ word.length = exponent text ∧
      (word = [] ∨ word ∈ exponentPart) := by
  fun_cases exponent text with
  | case1 => exact ⟨[], _, rfl, rfl, .inl rfl⟩
  | case2 => exact ⟨[], _, rfl, rfl, .inl rfl⟩
  | case3 => exact ⟨[], _, rfl, rfl, .inl rfl⟩
  | case4 e he s rest hs hne =>
      obtain ⟨ds, after, rfl, hds, hdigits⟩ := exists_eq_digits rest
      have hmem : ds ∈ someDigits := mem_someDigits.mpr ⟨by rintro rfl; contradiction, hds⟩
      refine ⟨e :: s :: ds, after, rfl, by rw [hdigits]; rfl, .inr ?_⟩
      exact mem_exponentPart.mpr ⟨e, ds, he, hmem, .inr ⟨s, hs, rfl⟩⟩
  | case5 _ _ _ _ _ hzero => exact ⟨[], _, rfl, (if_pos hzero).symm, .inl rfl⟩
  | case6 e he c rest hc hne =>
      rw [if_neg hne]
      obtain ⟨ds, after, htext, hds, hdigits⟩ := exists_eq_digits (c :: rest)
      have hmem : ds ∈ someDigits := mem_someDigits.mpr ⟨by rintro rfl; contradiction, hds⟩
      refine ⟨e :: ds, after, by rw [htext]; rfl, by rw [hdigits]; rfl, .inr ?_⟩
      exact mem_exponentPart.mpr ⟨e, ds, he, hmem, .inl rfl⟩
  | case7 => exact ⟨[], _, rfl, rfl, .inl rfl⟩

/-- An exponent in front of a text is taken, and digits behind it with it. -/
theorem le_exponent_append {word : List Char} (h : word ∈ exponentPart) (rest : List Char) :
    word.length ≤ exponent (word ++ rest) := by
  obtain ⟨e, ds, he, hds, rfl | ⟨s, hs, rfl⟩⟩ := mem_exponentPart.mp h
  · obtain ⟨hne, hds⟩ := mem_someDigits.mp hds
    cases ds with
    | nil => contradiction
    | cons d ds =>
        have hd := not_isSign_of_isDigit (hds d (by simp))
        have hdigits : digits (d :: ds ++ rest) = ds.length + 1 + digits rest := by
          rw [digits_append hds, List.length_cons]
        simp only [List.cons_append] at hdigits ⊢
        rw [exponent_plain he hd, hdigits, if_neg (by omega)]
        simp only [List.length_cons]
        omega
  · obtain ⟨hne, hds⟩ := mem_someDigits.mp hds
    have hpos := List.length_pos_iff.mpr hne
    simp only [List.cons_append]
    rw [exponent_signed he hs, digits_append hds, if_neg (by omega)]
    simp only [List.length_cons]
    omega

theorem endsMantissa_of_mem_exponentPart {word : List Char} (h : word ∈ exponentPart)
    (rest : List Char) : EndsMantissa (word ++ rest) := by
  obtain ⟨e, ds, he, -, rfl | ⟨s, -, rfl⟩⟩ := mem_exponentPart.mp h
  · exact endsMantissa_of_isExponentMark he _
  · exact endsMantissa_of_isExponentMark he _

/-- Numbers are measured by `number?`. -/
theorem measures_number? : Measures (pattern number) number? where
  mem := by
    intro text n h
    obtain ⟨k, hk, rfl⟩ := Option.map_eq_some_iff.mp h
    obtain ⟨digitsPart, tail, rfl, rfl, hdigits⟩ := measures_mantissa?.mem hk
    obtain ⟨power, rest, rfl, hlength, hpower⟩ := mem_of_exponent tail
    refine ⟨digitsPart ++ power, rest, by simp, by simp [hlength], ?_⟩
    exact Language.append_mem_mul hdigits hpower
  le := by
    intro word h rest
    obtain ⟨digitsPart, hdigits, power, hpower, rfl⟩ := Language.mem_mul.mp h
    obtain rfl | hpower := hpower
    · obtain ⟨n, hn, hle⟩ := measures_mantissa?.le hdigits rest
      exact ⟨n + exponent ((digitsPart ++ rest).drop n), by simp [number?, hn],
        by rw [List.append_nil]; omega⟩
    · have hexact := mantissa?_append hdigits (endsMantissa_of_mem_exponentPart hpower rest)
      refine ⟨digitsPart.length + exponent (power ++ rest), ?_, ?_⟩
      · simp [number?, hexact]
      · have hle := le_exponent_append hpower rest
        rw [List.length_append]
        omega

/-- Exponents that dangle are measured by `danglingExponent?`. -/
theorem measures_danglingExponent? : Measures (pattern danglingExponent) danglingExponent? where
  mem := by
    intro text n h
    obtain ⟨k, hk, h⟩ := Option.bind_eq_some_iff.mp h
    obtain ⟨digitsPart, tail, rfl, rfl, hdigits⟩ := measures_mantissa?.mem hk
    rw [List.drop_left] at h
    split at h
    · next e s rest _ =>
        split at h
        · next hmarks =>
            obtain rfl := Option.some.inj h
            rw [Bool.and_eq_true, isExponentMark_iff, isSign_iff] at hmarks
            refine ⟨digitsPart ++ [e, s], rest, by simp, by simp, ?_⟩
            exact Language.append_mem_mul hdigits (by simpa using hmarks)
        · contradiction
    · contradiction
  le := by
    intro word h rest
    obtain ⟨digitsPart, hdigits, marks, hmarks, rfl⟩ := Language.mem_mul.mp h
    obtain ⟨e, _, he, ⟨s, hs, rfl⟩, rfl⟩ := mem_one_mul.mp hmarks
    rw [← isExponentMark_iff] at he
    rw [← isSign_iff] at hs
    have hexact := mantissa?_append hdigits (endsMantissa_of_isExponentMark he (s :: rest))
    exact ⟨digitsPart.length + 2, by simp [danglingExponent?, hexact, he, hs], by simp⟩

/-! ## Names and marks -/

theorem isIdentifierStart_iff {c : Char} :
    isIdentifierStart c ↔ c.isAlpha ∨ c = '_' ∨ c = '$' := by
  simp [isIdentifierStart, or_assoc]

theorem isIdentifierPart_iff {c : Char} :
    isIdentifierPart c ↔ c.isAlpha ∨ c.isDigit ∨ c = '_' ∨ c = '$' := by
  rw [isIdentifierPart, Bool.or_eq_true, isIdentifierStart_iff]
  tauto

/-- Identifiers are measured by `identifier?`. -/
theorem measures_identifier? : Measures (pattern identifier) identifier? where
  mem := by
    intro text n h
    cases text with
    | nil => contradiction
    | cons c cs =>
        rw [identifier?] at h
        split at h
        · next hstart =>
            obtain rfl := Option.some.inj h
            refine ⟨c :: cs.takeWhile isIdentifierPart, cs.dropWhile isIdentifierPart,
              by simp, rfl, cons_mem_one_mul.mpr ⟨isIdentifierStart_iff.mp hstart, ?_⟩⟩
            rw [mem_kstar_one]
            intro d hd
            exact isIdentifierPart_iff.mp (List.all_eq_true.mp List.all_takeWhile d hd)
        · contradiction
  le := by
    intro word h rest
    obtain ⟨c, cs, hstart, hcs, rfl⟩ := mem_one_mul.mp h
    have hparts : ∀ d ∈ cs, isIdentifierPart d := by
      intro d hd
      exact isIdentifierPart_iff.mpr (mem_kstar_one.mp hcs d hd)
    refine ⟨((cs ++ rest).takeWhile isIdentifierPart).length + 1, ?_, ?_⟩
    · simp [identifier?, isIdentifierStart_iff.mpr hstart]
    · rw [List.takeWhile_append_of_pos hparts]
      simp

/-- Punctuation is measured by `punctuation?`. -/
theorem measures_punctuation? : Measures (pattern punctuation) punctuation? where
  mem := by
    intro text n h
    cases text with
    | nil => contradiction
    | cons c cs =>
        rw [punctuation?] at h
        split at h
        · next hmark =>
            obtain rfl := Option.some.inj h
            exact ⟨[c], cs, rfl, rfl, c, List.contains_iff_mem.mp hmark, rfl⟩
        · contradiction
  le := by
    rintro _ ⟨c, hc, rfl⟩ rest
    have hmark : c ∈ punctuationMarks := hc
    exact ⟨1, by simp [punctuation?, hmark], Nat.le_refl _⟩

/-- The operators are the words of their list. -/
theorem mem_pattern_operator {word : List Char} : word ∈ pattern operator ↔ word ∈ operators := by
  have hoperators : operators = operatorTexts.map String.toList := by decide
  rw [hoperators, List.mem_map]
  constructor
  · intro h
    exact ⟨String.ofList word, h, String.toList_ofList⟩
  · rintro ⟨s, hs, rfl⟩
    show String.ofList s.toList ∈ operatorTexts
    rwa [String.ofList_toList]

/-- Of words sorted by length, the first with a property is a longest one with it. -/
theorem length_le_of_find?_eq_some {words : List (List Char)}
    (hsorted : words.Pairwise fun a b => b.length ≤ a.length) {p : List Char → Bool}
    {first word : List Char} (hfirst : words.find? p = some first) (hword : word ∈ words)
    (hp : p word) : word.length ≤ first.length := by
  induction words with
  | nil => contradiction
  | cons w ws ih =>
      obtain ⟨hw, hws⟩ := List.pairwise_cons.mp hsorted
      rw [List.find?_cons] at hfirst
      split at hfirst
      · cases hfirst
        obtain rfl | hword := List.mem_cons.mp hword
        · exact Nat.le_refl _
        · exact hw word hword
      · next hnot =>
          obtain rfl | hword := List.mem_cons.mp hword
          · rw [hp] at hnot
            contradiction
          · exact ih hws hfirst hword

/-- Operators are measured by `operator?`. -/
theorem measures_operator? : Measures (pattern operator) operator? where
  mem := by
    intro text n h
    obtain ⟨op, hop, rfl⟩ := Option.map_eq_some_iff.mp h
    have hstart := List.find?_some hop
    obtain ⟨rest, rfl⟩ := List.isPrefixOf_iff_prefix.mp hstart
    exact ⟨op, rest, rfl, rfl, mem_pattern_operator.mpr (List.mem_of_find?_eq_some hop)⟩
  le := by
    intro word h rest
    rw [mem_pattern_operator] at h
    have hstart : word.isPrefixOf (word ++ rest) := by simp
    cases hop : operators.find? (·.isPrefixOf (word ++ rest)) with
    | none => exact absurd hstart (List.find?_eq_none.mp hop word h)
    | some op =>
        refine ⟨op.length, by rw [operator?, hop]; rfl, ?_⟩
        exact length_le_of_find?_eq_some (by decide) hop h hstart

/-- Each pattern's reader gives the length of its longest match. -/
theorem measures_matchLength? (p : Lexeme) : Measures p.pattern p.matchLength? := by
  cases p with
  | quoted => exact measures_quoted?
  | unterminated => exact measures_unterminated?
  | number => exact measures_number?
  | danglingExponent => exact measures_danglingExponent?
  | identifier => exact measures_identifier?
  | punctuation => exact measures_punctuation?
  | operator => exact measures_operator?

theorem matchLength?_nil (p : Lexeme) : matchLength? p [] = none := by cases p <;> rfl

/-- No lexeme is empty. -/
theorem nil_notMem_pattern (p : Lexeme) : [] ∉ p.pattern := by
  intro h
  obtain ⟨n, hn, -⟩ := (measures_matchLength? p).le h []
  rw [List.append_nil, matchLength?_nil] at hn
  contradiction

/-- A text that a pattern matches whole is a word of it. -/
theorem mem_pattern_of_matchLength? {p : Lexeme} {word : List Char}
    (h : p.matchLength? word = some word.length) : word ∈ p.pattern := by
  obtain ⟨found, rest, heq, hlength, hfound⟩ := (measures_matchLength? p).mem h
  obtain ⟨rfl, -⟩ := List.append_inj ((List.append_nil word).trans heq) hlength.symm
  exact hfound

end Lexeme

end TemplateMigration
