import TemplateMigration.Proofs.Expression.QuotedStrings

/-!
# TemplateMigration.Proofs.Expression.CleanText

Texts that are read without a fault (`Tokens.fault_readFrom_eq_none_iff`).

How much of a text decides the word at its start depends on the word.  A string, and an operator in
front of a clean text, can stand before anything (`longestAt_quoted`,
`Tokens.Clean.operator_append`): an operator may take more of the text than before, but what it
takes is made of operators again.  A name or a mark asks for the next character, and a number for
the next two, if the first of them is the mark of an exponent (`Lexeme.LongestAt.number_congr`).
-/

namespace TemplateMigration

open Computability

namespace Tokens

/-- A text that is read without a fault. -/
inductive Clean : List Char → Prop
  | nil : Clean []
  | blank {c : Char} {text : List Char} (hc : isExpressionBlank c) (h : Clean text) :
      Clean (c :: text)
  | token {p : Lexeme} {found rest : List Char} {kind : TokenKind} (hfound : p.LongestAt found rest)
      (hkind : p.HasKind found kind) (h : Clean rest) : Clean (found ++ rest)

variable {p : Lexeme} {found rest text : List Char} {kind : TokenKind} {offset : Nat}
  {tokens : Tokens}

/-- Blanks in front of a clean text leave it clean. -/
theorem Clean.blanks_append {blanks : List Char} (hblanks : ∀ c ∈ blanks, isExpressionBlank c)
    (h : Clean text) : Clean (blanks ++ text) := by
  induction blanks with
  | nil => exact h
  | cons c blanks ih =>
      obtain ⟨hc, hblanks⟩ := List.forall_mem_cons.mp hblanks
      exact .blank hc (ih hblanks)

/-- A text that is read without a fault is clean. -/
theorem Lexes.clean (h : Lexes offset text tokens) (hfault : tokens.fault = none) : Clean text := by
  induction h with
  | done hskips =>
      obtain ⟨blanks, rfl, hblanks, -, -⟩ := hskips
      exact .blanks_append hblanks .nil
  | fault => contradiction
  | unexpected => contradiction
  | token hskips hfound hkind _ ih =>
      obtain ⟨blanks, rfl, hblanks, -, -⟩ := hskips
      exact .blanks_append hblanks (.token hfound hkind (ih hfault))

/-- A lexeme starts with no blank. -/
theorem not_blank_of_longestAt (hfound : p.LongestAt found rest) :
    ∀ c ∈ (found ++ rest).head?, ¬ isExpressionBlank c := by
  intro c hc hblank
  cases found with
  | nil => exact absurd hfound.mem (Lexeme.nil_notMem_pattern p)
  | cons d found =>
      obtain rfl : d = c := by simpa using hc
      exact Lexeme.head_notMem_blankChars hfound.mem (isExpressionBlank_iff.mp hblank)

/-- A clean text is read without a fault. -/
theorem Clean.exists_lexes (h : Clean text) (offset : Nat) :
    ∃ tokens, Lexes offset text tokens ∧ tokens.fault = none := by
  induction h generalizing offset with
  | nil => exact ⟨⟨[], none⟩, .done (.refl (by simp)), rfl⟩
  | blank hc _ ih =>
      obtain ⟨tokens, hlexes, hfault⟩ := ih (offset + Char.utf8Size _)
      exact ⟨tokens, hlexes.cons hc, hfault⟩
  | @token p found rest kind hfound hkind _ ih =>
      obtain ⟨tokens, hlexes, hfault⟩ := ih (offset + byteCount found)
      exact ⟨_, .token (.refl (not_blank_of_longestAt hfound)) hfound hkind hlexes, hfault⟩

/-- The texts that are read without a fault are the clean ones. -/
theorem fault_readFrom_eq_none_iff : (readFrom offset text).fault = none ↔ Clean text := by
  constructor
  · exact (lexes_readFrom offset text).clean
  · intro h
    obtain ⟨tokens, hlexes, hfault⟩ := h.exists_lexes offset
    rwa [readFrom_eq_of_lexes hlexes]

/-- Behind the first token a text is as clean as in whole. -/
theorem clean_append_iff (hfound : p.LongestAt found rest) (hkind : p.HasKind found kind) :
    Clean (found ++ rest) ↔ Clean rest := by
  refine ⟨fun h => ?_, .token hfound hkind⟩
  generalize htext : found ++ rest = text at h
  cases h with
  | nil =>
      obtain ⟨rfl, -⟩ := List.append_eq_nil_iff.mp htext
      exact absurd hfound.mem (Lexeme.nil_notMem_pattern p)
  | blank hc => exact absurd hc (not_blank_of_longestAt hfound _ (by simp [htext]))
  | token hfound' _ h =>
      obtain ⟨-, -, rfl⟩ := hfound.unique hfound' htext
      exact h

end Tokens

namespace Lexeme

variable {p : Lexeme} {found rest rest' : List Char} {c : Char}

/-- A word is the longest one if no pattern has it with more of the text. -/
theorem longestAt_iff_forall_more :
    p.LongestAt found rest ↔
      found ∈ p.pattern ∧ ∀ q c more after, rest = c :: (more ++ after) →
        found ++ c :: more ∉ pattern q := by
  constructor
  · intro h
    refine ⟨h.mem, ?_⟩
    rintro q c more after rfl hword
    have hle := h.le q _ after hword (by simp)
    rw [List.length_append, List.length_cons] at hle
    omega
  · rintro ⟨hmem, hmore⟩
    refine ⟨hmem, fun q word after hword heq => ?_⟩
    obtain ⟨mid, rfl, -⟩ | ⟨mid, rfl, hmid⟩ := List.append_eq_append_iff.mp heq
    · simp
    · cases mid with
      | nil => simp
      | cons c more => exact absurd hword (hmore q c more after hmid)

theorem exists_cons_of_head?_eq {text : List Char} (hhead : (c :: rest').head? = text.head?) :
    ∃ more, text = c :: more := by
  cases text with
  | nil => contradiction
  | cons d text =>
      obtain rfl : c = d := by simpa using hhead
      exact ⟨text, rfl⟩

/-! ## Names and marks -/

/-- A name ends where the next character is no part of it. -/
theorem LongestAt.identifier_congr (h : identifier.LongestAt found rest)
    (hhead : rest'.head? = rest.head?) : identifier.LongestAt found rest' := by
  rw [longestAt_iff_forall_more] at h ⊢
  refine ⟨h.1, ?_⟩
  rintro q c more after rfl hword
  obtain ⟨rest, rfl⟩ := exists_cons_of_head?_eq hhead
  obtain ⟨d, name, hd, hname, rfl⟩ := mem_one_mul.mp h.1
  have hstart := mem_startingWith_of_mem hword (List.append_nil _)
  rw [startingWith_of_isIdentifierStart (isIdentifierStart_iff.mpr hd)] at hstart
  obtain rfl := List.mem_singleton.mp hstart
  rw [List.cons_append] at hword
  have hparts := mem_kstar_one.mp (cons_mem_one_mul.mp hword).2
  have hlonger : d :: (name ++ [c]) ∈ pattern identifier := by
    refine cons_mem_one_mul.mpr ⟨hd, mem_kstar_one.mpr fun x hx => hparts x ?_⟩
    grind
  exact h.2 identifier c [] rest rfl hlonger

/-- A point in front of a number starts with a digit. -/
theorem isDigit_of_point_mem {more : List Char}
    (h : '.' :: c :: more ∈ pattern number ∨ '.' :: c :: more ∈ pattern danglingExponent) :
    c.isDigit := by
  obtain ⟨whole, hwhole, tail, htail⟩ : ∃ whole ∈ mantissa, ∃ tail,
      whole ++ tail = '.' :: c :: more := by
    obtain h | h := h <;> obtain ⟨whole, hwhole, tail, -, heq⟩ := Language.mem_mul.mp h
    · exact ⟨whole, hwhole, tail, heq⟩
    · exact ⟨whole, hwhole, tail, heq⟩
  have hpoint : ¬ '.'.isDigit := by decide
  obtain hdigits | ⟨ds, es, hds, hes, hne, rfl⟩ := mem_mantissa.mp hwhole
  · obtain ⟨hne, hdigits⟩ := mem_someDigits.mp hdigits
    obtain ⟨d, ds, rfl⟩ := List.exists_cons_of_ne_nil hne
    obtain ⟨rfl, -⟩ := List.cons.inj htail
    exact absurd (hdigits '.' (by simp)) hpoint
  · cases ds with
    | nil =>
        obtain ⟨d, es, rfl⟩ := List.exists_cons_of_ne_nil fun hnil => hne ⟨rfl, hnil⟩
        obtain ⟨-, htail⟩ := List.cons.inj htail
        obtain ⟨rfl, -⟩ := List.cons.inj htail
        exact hes d (by simp)
    | cons d ds =>
        obtain ⟨rfl, -⟩ := List.cons.inj htail
        exact absurd (hds '.' (by simp)) hpoint

theorem mem_number_of_mantissa {word : List Char} (h : word ∈ mantissa) :
    word ∈ pattern number := by
  have hmem : word ++ [] ∈ pattern number := Language.append_mem_mul h (.inl rfl)
  rwa [List.append_nil] at hmem

/-- A mark is read as such, except for a point in front of a digit. -/
theorem longestAt_punctuation_iff (hc : c ∈ punctuationMarks) :
    punctuation.LongestAt [c] rest ↔ (c = '.' → ∀ d ∈ rest.head?, ¬ d.isDigit) := by
  rw [longestAt_iff_forall_more]
  constructor
  · rintro ⟨-, hmore⟩ rfl d hd hdigit
    obtain ⟨after, rfl⟩ := List.head?_eq_some_iff.mp hd
    have hlonger : ['.', d] ∈ mantissa :=
      mem_mantissa.mpr (.inr ⟨[], [d], by simp, by simpa using hdigit, by simp, rfl⟩)
    exact hmore number d [] after rfl (mem_number_of_mantissa hlonger)
  · intro hpoint
    refine ⟨cons_mem_one.mpr ⟨hc, rfl⟩, ?_⟩
    rintro q d more after rfl hword
    have hstart := mem_startingWith_of_mem hword (List.append_nil _)
    have hone : q ≠ punctuation := by
      rintro rfl
      simpa using (cons_mem_one.mp hword).2
    by_cases hc' : c = '.'
    · subst hc'
      have hnumber : q = number ∨ q = danglingExponent := by
        have hstarts : startingWith '.' = [number, danglingExponent, punctuation] := by decide
        simpa [hstarts, hone] using hstart
      exact hpoint rfl d rfl (isDigit_of_point_mem (hnumber.imp (· ▸ hword) (· ▸ hword)))
    · have hmarks : ∀ c ∈ punctuationMarks, c ≠ '.' → startingWith c = [punctuation] := by
        simp [punctuationMarks, startingWith, isQuote, isIdentifierStart]
      rw [hmarks c hc hc', List.mem_singleton] at hstart
      exact hone hstart

/-! ## Numbers -/

theorem digits_eq_zero_iff {text : List Char} :
    digits text = 0 ↔ ∀ c ∈ text.head?, ¬ c.isDigit := by
  cases text with
  | nil => simp [digits]
  | cons c cs => simp [digits, List.takeWhile_cons]

/-- An exponent in front of a text is read with the digits that follow it. -/
theorem exponent_append {power : List Char} (h : power ∈ exponentPart) (rest : List Char) :
    exponent (power ++ rest) = power.length + digits rest := by
  obtain ⟨e, ds, he, hds, rfl | ⟨s, hs, rfl⟩⟩ := mem_exponentPart.mp h
  · obtain ⟨hne, hds⟩ := mem_someDigits.mp hds
    obtain ⟨d, ds, rfl⟩ := List.exists_cons_of_ne_nil hne
    have hd := not_isSign_of_isDigit (hds d (by simp))
    have hdigits := digits_append hds rest
    rw [List.cons_append] at hdigits
    rw [List.cons_append, List.cons_append, exponent_plain he hd, hdigits, if_neg (by simp)]
    simp only [List.length_cons]
    omega
  · obtain ⟨hne, hds⟩ := mem_someDigits.mp hds
    have hpos := List.length_pos_iff.mpr hne
    rw [List.cons_append, List.cons_append, exponent_signed he hs, digits_append hds,
      if_neg (by omega)]
    simp only [List.length_cons]
    omega

theorem one_lt_length_of_mem_exponentPart {power : List Char} (h : power ∈ exponentPart) :
    1 < power.length := by
  obtain ⟨e, ds, -, hds, rfl | ⟨s, -, rfl⟩⟩ := mem_exponentPart.mp h
  · have hpos := List.length_pos_iff.mpr (mem_someDigits.mp hds).1
    rw [List.length_cons]
    omega
  · rw [List.length_cons, List.length_cons]
    omega

/-- A text that starts neither with a signed exponent nor with one of digits. -/
def EndsNumber (text : List Char) : Prop :=
  ∀ e s more, text = e :: s :: more → isExponentMark e → ¬ isSign s ∧ ¬ s.isDigit

/-- Where a number can end there is no exponent. -/
theorem exponent_eq_zero {text : List Char} (h : EndsNumber text) : exponent text = 0 := by
  match text with
  | [] => rfl
  | [e] => simp [exponent]
  | e :: s :: more =>
      by_cases he : isExponentMark e
      · obtain ⟨hs, hdigit⟩ := h e s more rfl he
        rw [exponent_plain he hs, if_pos (digits_eq_zero_iff.mpr (by simpa using hdigit))]
      · simp [exponent, he]

/-- Where a number can end no exponent dangles. -/
theorem danglingExponent?_eq_none {whole text : List Char}
    (hwhole : mantissa? (whole ++ text) = some whole.length) (h : EndsNumber text) :
    danglingExponent? (whole ++ text) = none := by
  rw [danglingExponent?, hwhole, Option.bind_some, List.drop_left]
  split
  · next e s more =>
      have hes : (isExponentMark e && isSign s) = false := by
        by_contra hes
        rw [Bool.not_eq_false, Bool.and_eq_true] at hes
        exact (h e s more rfl hes.1).1 hes.2
      rw [if_neg (by simp [hes])]
  · rfl

/-- A mantissa ends where the next character does not go on with it. -/
theorem mantissa?_congr {whole : List Char} (hwhole : whole ∈ mantissa)
    (h : mantissa? (whole ++ rest) = some whole.length) (hhead : rest'.head? = rest.head?) :
    mantissa? (whole ++ rest') = some whole.length := by
  obtain hdigits | ⟨ds, es, hds, hes, hne, rfl⟩ := mem_mantissa.mp hwhole
  · refine mantissa?_append hwhole fun c hc => ?_
    obtain ⟨hne, hdigits⟩ := mem_someDigits.mp hdigits
    have hshort : whole ++ [c] ∉ mantissa := by
      intro hlonger
      obtain ⟨more, rfl⟩ := List.head?_eq_some_iff.mp (hhead.symm.trans hc)
      obtain ⟨n, hn, hle⟩ := measures_mantissa?.le hlonger more
      rw [List.append_assoc, List.singleton_append, h] at hn
      rw [← Option.some.inj hn, List.length_append, List.length_singleton] at hle
      omega
    constructor
    · intro hc
      refine hshort (mem_mantissa.mpr (.inl (mem_someDigits.mpr ⟨by simp, ?_⟩)))
      simpa [or_imp, forall_and, hc] using hdigits
    · rintro rfl
      exact hshort (mem_mantissa.mpr (.inr ⟨whole, [], hdigits, by simp, by simp [hne], rfl⟩))
  · have hplaces (text : List Char) : mantissa? (ds ++ '.' :: es ++ text) =
        some ((ds ++ '.' :: es).length + digits text) := by
      rw [List.append_assoc, List.cons_append, mantissa?_point hds, digits_append hes, if_neg]
      · simp only [List.length_append, List.length_cons]
        congr 1
        omega
      · rintro ⟨hds, hes⟩
        exact hne ⟨List.length_eq_zero_iff.mp hds, List.length_eq_zero_iff.mp (by omega)⟩
    rw [hplaces, Option.some.injEq] at h ⊢
    have hzero := digits_eq_zero_iff.mp (by omega : digits rest = 0)
    rw [digits_eq_zero_iff.mpr (hhead ▸ hzero), Nat.add_zero]

/-- Nothing behind a number goes on with it. -/
def NumberEnds (found rest : List Char) : Prop :=
  number? (found ++ rest) = some found.length ∧
    ∀ k, danglingExponent? (found ++ rest) = some k → k ≤ found.length

/-- A number without an exponent. -/
theorem numberEnds_mantissa_iff {whole : List Char} (hwhole : whole ∈ mantissa) :
    NumberEnds whole rest ↔ mantissa? (whole ++ rest) = some whole.length ∧ EndsNumber rest := by
  constructor
  · rintro ⟨hnumber, hdangling⟩
    obtain ⟨n, hn, hle⟩ := measures_mantissa?.le hwhole rest
    have hsum : n + exponent ((whole ++ rest).drop n) = whole.length := by
      simpa [number?, hn] using hnumber
    obtain rfl : n = whole.length := by omega
    rw [List.drop_left] at hsum
    refine ⟨hn, ?_⟩
    rintro e s more rfl he
    constructor
    · intro hs
      have hle := hdangling (whole.length + 2) (by simp [danglingExponent?, hn, he, hs])
      omega
    · intro hs
      rw [exponent_plain he (not_isSign_of_isDigit hs), if_neg] at hsum
      · omega
      · simp [digits_eq_zero_iff, hs]
  · rintro ⟨hexact, hends⟩
    constructor
    · rw [number?, hexact, Option.map_some, List.drop_left, exponent_eq_zero hends, Nat.add_zero]
    · simp [danglingExponent?_eq_none hexact hends]

/-- A number with an exponent. -/
theorem numberEnds_exponent_iff {whole power : List Char} (hwhole : whole ∈ mantissa)
    (hpower : power ∈ exponentPart) :
    NumberEnds (whole ++ power) rest ↔ ∀ c ∈ rest.head?, ¬ c.isDigit := by
  have hmantissa := mantissa?_append hwhole (endsMantissa_of_mem_exponentPart hpower rest)
  have hexact :
      number? (whole ++ power ++ rest) = some ((whole ++ power).length + digits rest) := by
    rw [List.append_assoc, number?, hmantissa, Option.map_some, List.drop_left,
      exponent_append hpower, List.length_append, Nat.add_assoc]
  rw [NumberEnds, hexact, ← digits_eq_zero_iff]
  constructor
  · rintro ⟨hlength, -⟩
    rw [Option.some.injEq] at hlength
    omega
  · intro hzero
    refine ⟨by rw [hzero, Nat.add_zero], fun k hk => ?_⟩
    rw [List.append_assoc, danglingExponent?, hmantissa, Option.bind_some, List.drop_left] at hk
    have hlong := one_lt_length_of_mem_exponentPart hpower
    rw [List.length_append]
    grind

/-- A number competes with a dangling exponent only: a mark is one character. -/
theorem longestAt_number_iff (h : found ∈ pattern number) :
    number.LongestAt found rest ↔ NumberEnds found rest := by
  rw [longestAt_iff, longest?_eq_some_iff]
  refine ⟨fun ⟨hnumber, hmax⟩ => ⟨hnumber, fun k hk => hmax danglingExponent k hk⟩,
    fun ⟨hnumber, hdangling⟩ => ⟨hnumber, fun q k hq => ?_⟩⟩
  obtain ⟨c, found, rfl⟩ := List.exists_cons_of_ne_nil fun hnil =>
    nil_notMem_pattern number (hnil ▸ h)
  have hstart : number ∈ startingWith c := mem_startingWith_of_mem h (List.append_nil _)
  have hqstart : q ∈ startingWith c := mem_startingWith hq
  have hcases : q = number ∨ q = danglingExponent ∨ q = punctuation := by
    unfold startingWith at hstart hqstart
    grind
  obtain rfl | rfl | rfl := hcases
  · rw [matchLength?, hnumber] at hq
    exact Nat.le_of_eq (Option.some.inj hq).symm
  · exact hdangling k hq
  · obtain ⟨_, after, -, rfl, ⟨d, -, rfl⟩⟩ := (measures_matchLength? punctuation).mem hq
    simp

/-- A number ends where the next two characters do not go on with it. -/
theorem LongestAt.number_congr (h : number.LongestAt found rest)
    (hhead : rest'.head? = rest.head?)
    (hmark : ∀ c ∈ rest.head?, isExponentMark c → rest'.tail.head? = rest.tail.head?) :
    number.LongestAt found rest' := by
  have hends := (longestAt_number_iff h.mem).mp h
  rw [longestAt_number_iff h.mem]
  obtain ⟨whole, hwhole, power, rfl | hpower, rfl⟩ := Language.mem_mul.mp h.mem
  · rw [List.append_nil, numberEnds_mantissa_iff hwhole] at hends ⊢
    refine ⟨mantissa?_congr hwhole hends.1 hhead, ?_⟩
    rintro e s more rfl he
    obtain ⟨tail, rfl⟩ := exists_cons_of_head?_eq hhead
    obtain ⟨more', rfl⟩ := exists_cons_of_head?_eq (hmark e rfl he)
    exact hends.2 e s more' rfl he
  · rw [numberEnds_exponent_iff hwhole hpower] at hends ⊢
    rwa [hhead]

/-! ## Operators -/

/-- An operator is looked for wherever one of its characters stands. -/
theorem startingWith_of_operator {op : List Char} (hop : op ∈ operators) (hc : c ∈ op) :
    startingWith c = [operator] := by
  have hstarts : ∀ op ∈ operators, ∀ c ∈ op, startingWith c = [operator] := by
    simp [operators, startingWith, isQuote, isIdentifierStart, punctuationMarks]
  exact hstarts op hop c hc

/-- At an operator of one character stands an operator. -/
theorem exists_longestAt_operator (hc : [c] ∈ operators) (text : List Char) :
    ∃ op rest, text = op ++ rest ∧ operator.LongestAt (c :: op) rest := by
  obtain ⟨n, hn, hpos⟩ :=
    (measures_matchLength? operator).le (mem_pattern_operator.mpr hc) text
  obtain ⟨p, k, hlongest, hle⟩ := reaches_longest? hn
  have hfound := longestAt_of_longest? hlongest
  have hp : p = operator := by
    have hstart := mem_startingWith (matchLength?_of_longest? hlongest)
    rw [startingWith_of_operator hc (by simp)] at hstart
    exact List.mem_singleton.mp hstart
  obtain ⟨k, rfl⟩ : ∃ m, k = m + 1 := ⟨k - 1, by rw [List.length_singleton] at hpos; omega⟩
  refine ⟨text.take k, text.drop k, by simp, ?_⟩
  rw [hp] at hfound
  exact hfound

end Lexeme

namespace Tokens

open Lexeme

/-- A row of characters that each leave a text clean leaves it clean. -/
theorem clean_append_iff_of_forall {ops rest : List Char}
    (h : ∀ c ∈ ops, ∀ text : List Char, text.length < (ops ++ rest).length →
      (Clean (c :: text) ↔ Clean text)) : Clean (ops ++ rest) ↔ Clean rest := by
  induction ops with
  | nil => rfl
  | cons c ops ih =>
      rw [List.cons_append, h c (by simp) (ops ++ rest) (by simp)]
      refine ih fun d hd text htext => h d (by simp [hd]) text ?_
      rw [List.cons_append, List.length_cons]
      omega

/-- An operator of one character may stand before a text or be taken from it.  Where it stands, a
longer operator may be read, but the characters that this takes of the text are operators too. -/
theorem clean_cons_iff {c : Char} (hc : [c] ∈ operators) (text : List Char) :
    Clean (c :: text) ↔ Clean text := by
  induction hn : text.length using Nat.strong_induction_on generalizing c text with
  | _ n ih =>
      subst hn
      obtain ⟨op, rest, rfl, hfound⟩ := exists_longestAt_operator hc text
      have hop : ∀ d ∈ op, [d] ∈ operators := by
        have hoperators : ∀ op ∈ operators, op.take 1 ∈ operators →
            ∀ d ∈ op.drop 1, [d] ∈ operators := by
          simp [operators]
        exact hoperators _ (mem_pattern_operator.mp hfound.mem) (by simpa using hc)
      rw [← List.cons_append, clean_append_iff hfound .operator]
      exact (clean_append_iff_of_forall fun d hd text hlt => ih _ hlt (hop d hd) text rfl).symm

/-- An operator may stand before any clean text. -/
theorem Clean.operator_append {op text : List Char} (hop : op ∈ operators) (h : Clean text) :
    Clean (op ++ text) := by
  have hoperators : ∀ op ∈ operators, (∀ c ∈ op, [c] ∈ operators) ∨ op = ['&', '&'] := by
    simp [operators]
  obtain hsingle | rfl := hoperators op hop
  · exact (clean_append_iff_of_forall fun c hc text _ => clean_cons_iff (hsingle c hc) text).mpr h
  · -- a lone `&` is no operator, but nothing longer starts with two of them
    refine .token (p := operator) (longestAt_iff_forall_more.mpr ⟨mem_pattern_operator.mpr hop, ?_⟩)
      .operator h
    rintro q c more after - hword
    have hstart := mem_startingWith_of_mem hword (List.append_nil _)
    rw [startingWith_of_operator hop (by simp), List.mem_singleton] at hstart
    rw [hstart, mem_pattern_operator] at hword
    have hpairs : ∀ op ∈ operators, op.take 2 = ['&', '&'] → op.length = 2 := by decide
    simpa using hpairs _ hword rfl

end Tokens

end TemplateMigration
