import TemplateMigration.Expression.Tokens
import TemplateMigration.Proofs.Expression.Escape

/-!
# TemplateMigration.Proofs.Expression.LongestMatch

Reading tokens is longest-match reading.

`Tokens.Lexes` says what longest-match reading of a text is, with patterns as languages and no
reader in sight: blanks are skipped, the token at the next character is the longest word there
that any pattern has, and reading stops at a faulty lexeme or where no pattern has a word.
`Tokens.read` gives the tokens that this relation allows and no others.  No two patterns have
their longest words at the same length (`Lexeme.eq_of_matchLength?_eq`), so the relation leaves
no choice.
-/

namespace TemplateMigration

namespace Lexeme

open Computability

/-! ## No two patterns match the same length -/

/-- The patterns whose words may start with a character. -/
def startingWith (c : Char) : List Lexeme :=
  if isQuote c then [quoted, unterminated]
  else if c.isDigit then [number, danglingExponent]
  else if c = '.' then [number, danglingExponent, punctuation]
  else if isIdentifierStart c then [identifier]
  else if punctuationMarks.contains c then [punctuation]
  else [operator]

/-- A mantissa starts with a digit or a point. -/
theorem isDigit_or_eq_point_of_mantissa? {c : Char} {cs : List Char} {n : Nat}
    (h : mantissa? (c :: cs) = some n) : c.isDigit ∨ c = '.' := by
  by_contra hc
  have hends : EndsMantissa (c :: cs) := by simpa [EndsMantissa, not_or] using hc
  have hnone : mantissa? ([] ++ c :: cs) = none := mantissa?_digits (by simp) hends
  rw [List.nil_append, h] at hnone
  contradiction

/-- Where a mantissa can be read, a number and an exponent that dangles are looked for. -/
theorem mem_startingWith_of_mantissa? {c : Char} {cs : List Char} {n : Nat}
    (h : mantissa? (c :: cs) = some n) :
    number ∈ startingWith c ∧ danglingExponent ∈ startingWith c := by
  obtain hdigit | rfl := isDigit_or_eq_point_of_mantissa? h
  · have hquote : ¬ isQuote c := by
      intro hquote
      obtain rfl | rfl := isQuote_iff.mp hquote <;> contradiction
    simp [startingWith, hquote, hdigit]
  · decide

theorem not_isDigit_of_isIdentifierStart {c : Char} (h : isIdentifierStart c) : ¬ c.isDigit := by
  intro hdigit
  have hle : c.val ≤ '9'.val := of_decide_eq_true (Bool.and_eq_true_iff.mp hdigit).2
  obtain halpha | rfl | rfl := isIdentifierStart_iff.mp h
  · obtain hupper | hlower := Bool.or_eq_true_iff.mp halpha
    · have hge : 'A'.val ≤ c.val := (of_decide_eq_true hupper).1
      exact absurd (Nat.le_trans hge hle) (by decide)
    · have hge : 'a'.val ≤ c.val := of_decide_eq_true (Bool.and_eq_true_iff.mp hlower).1
      exact absurd (Nat.le_trans hge hle) (by decide)
  · contradiction
  · contradiction

/-- Only an identifier starts with a letter. -/
theorem startingWith_of_isIdentifierStart {c : Char} (h : isIdentifierStart c) :
    startingWith c = [identifier] := by
  have hdigit := not_isDigit_of_isIdentifierStart h
  have hquote : ¬ isQuote c := by
    intro hquote
    obtain rfl | rfl := isQuote_iff.mp hquote <;> contradiction
  have hpoint : c ≠ '.' := by
    rintro rfl
    contradiction
  simp [startingWith, hquote, hdigit, hpoint, h]

/-- A word starts with a character that its pattern may start with. -/
theorem mem_startingWith {p : Lexeme} {c : Char} {cs : List Char} {n : Nat}
    (h : matchLength? p (c :: cs) = some n) : p ∈ startingWith c := by
  cases p with
  | quoted =>
      simp only [matchLength?, quoted?] at h
      split at h
      · next hquote => simp [startingWith, hquote]
      · contradiction
  | unterminated =>
      simp only [matchLength?, unterminated?] at h
      split at h
      · next hquote => simp [startingWith, hquote]
      · contradiction
  | number =>
      obtain ⟨k, hk, -⟩ := Option.map_eq_some_iff.mp h
      exact (mem_startingWith_of_mantissa? hk).1
  | danglingExponent =>
      obtain ⟨k, hk, -⟩ := Option.bind_eq_some_iff.mp h
      exact (mem_startingWith_of_mantissa? hk).2
  | identifier =>
      simp only [matchLength?, identifier?] at h
      split at h
      · next hstart => simp [startingWith_of_isIdentifierStart hstart]
      · contradiction
  | punctuation =>
      simp only [matchLength?, punctuation?] at h
      split at h
      · next hmark =>
          have hmarks : ∀ mark ∈ punctuationMarks, punctuation ∈ startingWith mark := by
            simp [punctuationMarks, startingWith, isQuote, isIdentifierStart]
          exact hmarks c (List.contains_iff_mem.mp hmark)
      · contradiction
  | operator =>
      obtain ⟨op, hop, rfl⟩ := Option.map_eq_some_iff.mp h
      have hmem := List.mem_of_find?_eq_some hop
      have hat := List.find?_some hop
      cases op with
      | nil => contradiction
      | cons d op =>
          have hstarts : ∀ op ∈ operators, ∀ d ∈ op.head?, operator ∈ startingWith d := by
            simp [operators, startingWith, isQuote, isIdentifierStart, punctuationMarks]
          simp only [List.isPrefixOf, Bool.and_eq_true, beq_iff_eq] at hat
          exact hat.1 ▸ hstarts _ hmem d rfl

/-- Every lexeme that matches is looked for. -/
theorem mem_startingWith_of_mem {p : Lexeme} {found rest text : List Char} {c : Char}
    (h : found ∈ p.pattern) (heq : found ++ rest = c :: text) : p ∈ startingWith c := by
  obtain ⟨n, hn, -⟩ := (measures_matchLength? p).le h rest
  rw [heq] at hn
  exact mem_startingWith hn

/-- A closed string is one character longer than its part before the closing quote. -/
theorem openBody_of_closedBody? {quote : Char} {text : List Char} {n : Nat}
    (h : closedBody? quote text = some n) : openBody quote text + 1 = n := by
  fun_induction closedBody? quote text generalizing n with
  | case1 => contradiction
  | case2 cs =>
      obtain rfl := Option.some.inj h
      simp [openBody.eq_def]
  | case3 => contradiction
  | case4 c rest hquote ih =>
      obtain ⟨k, hk, rfl⟩ := Option.map_eq_some_iff.mp h
      have hrest := ih hk
      simp only [openBody, hquote, if_false, if_true]
      omega
  | case5 c cs hquote hescape ih =>
      obtain ⟨k, hk, rfl⟩ := Option.map_eq_some_iff.mp h
      rw [openBody_plain hquote hescape, ih hk]

/-- A string that is closed is not read as one that is not. -/
theorem unterminated_ne_of_quoted {text : List Char} {n : Nat}
    (h : matchLength? quoted text = some n) : matchLength? unterminated text ≠ some n := by
  cases text with
  | nil => contradiction
  | cons c cs =>
      simp only [matchLength?, quoted?, unterminated?] at h ⊢
      split at h
      · next hquote =>
          obtain ⟨k, hk, rfl⟩ := Option.map_eq_some_iff.mp h
          have hopen := openBody_of_closedBody? hk
          simp only [hquote, if_true, ne_eq, Option.some.injEq]
          omega
      · contradiction

/-- An exponent with its digits is longer than its mark and sign alone. -/
theorem danglingExponent_ne_of_number {text : List Char} {n : Nat}
    (h : matchLength? number text = some n) : matchLength? danglingExponent text ≠ some n := by
  intro hdangling
  obtain ⟨k, hk, rfl⟩ := Option.map_eq_some_iff.mp h
  obtain ⟨j, hj, hmarks⟩ := Option.bind_eq_some_iff.mp hdangling
  obtain rfl : k = j := Option.some.inj (hk.symm.trans hj)
  split at hmarks
  · next e s rest htext =>
      split at hmarks
      · next hes =>
          rw [Bool.and_eq_true] at hes
          have hexponent := exponent_signed hes.1 hes.2 rest
          have hlength := Option.some.inj hmarks
          rw [htext] at hlength
          split at hexponent <;> omega
      · contradiction
  · contradiction

/-- A number and an exponent that dangles are never of one length. -/
theorem eq_of_number_or_danglingExponent {p q : Lexeme} {text : List Char} {n : Nat}
    (hp : p = number ∨ p = danglingExponent) (hq : q = number ∨ q = danglingExponent)
    (hpMatch : matchLength? p text = some n) (hqMatch : matchLength? q text = some n) : p = q := by
  obtain rfl | rfl := hp <;> obtain rfl | rfl := hq
  · rfl
  · exact absurd hqMatch (danglingExponent_ne_of_number hpMatch)
  · exact absurd hpMatch (danglingExponent_ne_of_number hqMatch)
  · rfl

/-- A mantissa that starts with a point is longer than the point. -/
theorem one_lt_of_mantissa?_point {cs : List Char} {n : Nat}
    (h : mantissa? ('.' :: cs) = some n) : 1 < n := by
  have hpoint : mantissa? ([] ++ '.' :: cs) = _ := mantissa?_point (by simp) cs
  rw [List.nil_append, h] at hpoint
  split at hpoint
  · contradiction
  · next hne =>
      have hlength := Option.some.inj hpoint
      simp only [List.length_nil, true_and] at hne hlength
      omega

/-- A number that starts with a point is longer than the point. -/
theorem punctuation_ne_of_number_or_danglingExponent {p : Lexeme} {cs : List Char} {n : Nat}
    (hp : p = number ∨ p = danglingExponent) (h : matchLength? p ('.' :: cs) = some n) :
    matchLength? punctuation ('.' :: cs) ≠ some n := by
  have hpunctuation : matchLength? punctuation ('.' :: cs) = some 1 := by
    simp [matchLength?, punctuation?, punctuationMarks]
  have hlt : 1 < n := by
    obtain rfl | rfl := hp
    · obtain ⟨k, hk, rfl⟩ := Option.map_eq_some_iff.mp h
      have := one_lt_of_mantissa?_point hk
      omega
    · obtain ⟨k, hk, hmarks⟩ := Option.bind_eq_some_iff.mp h
      have := one_lt_of_mantissa?_point hk
      grind
  rw [hpunctuation, ne_eq, Option.some.injEq]
  omega

/-- No two patterns have their longest words at the same length. -/
theorem eq_of_matchLength?_eq {p q : Lexeme} {text : List Char} {n : Nat}
    (hp : matchLength? p text = some n) (hq : matchLength? q text = some n) : p = q := by
  cases text with
  | nil =>
      rw [matchLength?_nil] at hp
      contradiction
  | cons c cs =>
      have hpStart := mem_startingWith hp
      have hqStart := mem_startingWith hq
      -- only quotes, digits and the point start words of more than one pattern
      simp only [startingWith] at hpStart hqStart
      split_ifs at hpStart hqStart with hquote hdigit hpoint hname hmark
      · simp only [List.mem_cons, List.not_mem_nil, or_false] at hpStart hqStart
        obtain rfl | rfl := hpStart <;> obtain rfl | rfl := hqStart
        · rfl
        · exact absurd hq (unterminated_ne_of_quoted hp)
        · exact absurd hp (unterminated_ne_of_quoted hq)
        · rfl
      · simp only [List.mem_cons, List.not_mem_nil, or_false] at hpStart hqStart
        exact eq_of_number_or_danglingExponent hpStart hqStart hp hq
      · subst hpoint
        simp only [List.mem_cons, List.not_mem_nil, or_false, ← or_assoc] at hpStart hqStart
        obtain hpStart | rfl := hpStart <;> obtain hqStart | rfl := hqStart
        · exact eq_of_number_or_danglingExponent hpStart hqStart hp hq
        · exact absurd hq (punctuation_ne_of_number_or_danglingExponent hpStart hp)
        · exact absurd hp (punctuation_ne_of_number_or_danglingExponent hqStart hq)
        · rfl
      · rw [List.mem_singleton.mp hpStart, List.mem_singleton.mp hqStart]
      · rw [List.mem_singleton.mp hpStart, List.mem_singleton.mp hqStart]
      · rw [List.mem_singleton.mp hpStart, List.mem_singleton.mp hqStart]

/-! ## The longest match of all patterns -/

/-- A match at least as long as a number. -/
def Reaches (m : Option (Lexeme × Nat)) (k : Nat) : Prop := ∃ p n, m = some (p, n) ∧ k ≤ n

/-- The longer of two matches reaches as far as the first. -/
theorem reaches_longer_left {a : Option (Lexeme × Nat)} {k : Nat} (h : Reaches a k)
    (b : Option (Lexeme × Nat)) : Reaches (longer a b) k := by
  obtain ⟨p, n, rfl, hle⟩ := h
  cases b with
  | none => exact ⟨p, n, rfl, hle⟩
  | some m =>
      simp only [longer]
      split
      · next hlt => exact ⟨_, _, rfl, by omega⟩
      · exact ⟨p, n, rfl, hle⟩

/-- The longer of two matches reaches as far as the second. -/
theorem reaches_longer_right {b : Option (Lexeme × Nat)} {k : Nat} (h : Reaches b k)
    (a : Option (Lexeme × Nat)) : Reaches (longer a b) k := by
  obtain ⟨p, n, rfl, hle⟩ := h
  cases a with
  | none => exact ⟨p, n, rfl, hle⟩
  | some m =>
      simp only [longer]
      split
      · exact ⟨p, n, rfl, hle⟩
      · next hlt => exact ⟨_, _, rfl, by omega⟩

/-- The longest match reaches as far as every match. -/
theorem reaches_longest? {q : Lexeme} {text : List Char} {k : Nat}
    (hq : matchLength? q text = some k) : Reaches (longest? text) k := by
  have hfold : ∀ (ps : List Lexeme) (best : Option (Lexeme × Nat)), Reaches best k ∨ q ∈ ps →
      Reaches (ps.foldl (fun best p => longer best ((matchLength? p text).map fun n => (p, n)))
        best) k := by
    intro ps
    induction ps with
    | nil =>
        intro best h
        simpa using h
    | cons p ps ih =>
        intro best h
        refine ih _ ?_
        obtain h | h := h
        · exact .inl (reaches_longer_left h _)
        · obtain rfl | h := List.mem_cons.mp h
          · exact .inl (reaches_longer_right ⟨q, k, by rw [hq]; rfl, Nat.le_refl k⟩ _)
          · exact .inr h
  exact hfold all none (.inr (by cases q <;> decide))

/-- The longest match belongs to one pattern, and no pattern has a longer one. -/
theorem longest?_eq_some_iff {p : Lexeme} {text : List Char} {n : Nat} :
    longest? text = some (p, n) ↔
      matchLength? p text = some n ∧ ∀ q k, matchLength? q text = some k → k ≤ n := by
  constructor
  · intro h
    refine ⟨matchLength?_of_longest? h, ?_⟩
    intro q k hq
    obtain ⟨p', n', hlongest, hle⟩ := reaches_longest? hq
    obtain ⟨rfl, rfl⟩ : p = p' ∧ n = n' := by simpa [h] using hlongest
    exact hle
  · rintro ⟨hp, hmax⟩
    obtain ⟨q, m, hlongest, hle⟩ := reaches_longest? hp
    have hq := matchLength?_of_longest? hlongest
    obtain rfl : m = n := Nat.le_antisymm (hmax q m hq) hle
    rw [hlongest, eq_of_matchLength?_eq hp hq]

/-- There is no longest match exactly if nothing matches. -/
theorem longest?_eq_none_iff {text : List Char} :
    longest? text = none ↔ ∀ p, matchLength? p text = none := by
  constructor
  · intro h p
    cases hp : matchLength? p text with
    | none => rfl
    | some n =>
        obtain ⟨_, _, hlongest, -⟩ := reaches_longest? hp
        rw [h] at hlongest
        contradiction
  · intro h
    cases hlongest : longest? text with
    | none => rfl
    | some m =>
        have hm := matchLength?_of_longest? hlongest
        rw [h] at hm
        contradiction

/-! ## The longest word of all patterns -/

/-- At the start of a text, `found` is a word of the pattern and no pattern has a longer one. -/
structure LongestAt (p : Lexeme) (found rest : List Char) : Prop where
  mem : found ∈ p.pattern
  le : ∀ q word after, word ∈ pattern q → word ++ after = found ++ rest →
    word.length ≤ found.length

/-- The longest match is found by `longest?`. -/
theorem longestAt_iff {p : Lexeme} {found rest : List Char} :
    p.LongestAt found rest ↔ longest? (found ++ rest) = some (p, found.length) := by
  rw [longest?_eq_some_iff]
  constructor
  · intro h
    have hmax : ∀ q k, matchLength? q (found ++ rest) = some k → k ≤ found.length := by
      intro q k hq
      obtain ⟨word, after, htext, rfl, hword⟩ := (measures_matchLength? q).mem hq
      exact h.le q word after hword htext.symm
    obtain ⟨n, hn, hle⟩ := (measures_matchLength? p).le h.mem rest
    obtain rfl : found.length = n := Nat.le_antisymm hle (hmax p n hn)
    exact ⟨hn, hmax⟩
  · rintro ⟨hp, hmax⟩
    constructor
    · obtain ⟨word, after, htext, hlength, hword⟩ := (measures_matchLength? p).mem hp
      obtain ⟨rfl, -⟩ := List.append_inj htext hlength.symm
      exact hword
    · intro q word after hword htext
      obtain ⟨n, hn, hle⟩ := (measures_matchLength? q).le hword after
      rw [htext] at hn
      exact Nat.le_trans hle (hmax q n hn)

/-- What `longest?` finds is the longest match. -/
theorem longestAt_of_longest? {p : Lexeme} {text : List Char} {n : Nat}
    (h : longest? text = some (p, n)) : p.LongestAt (text.take n) (text.drop n) := by
  obtain ⟨word, rest, rfl, rfl, -⟩ := (measures_matchLength? p).mem (matchLength?_of_longest? h)
  rw [List.take_left, List.drop_left]
  exact longestAt_iff.mpr h

/-- Nothing matches where no pattern has a word. -/
theorem longest?_eq_none_iff_forall_pattern {text : List Char} :
    longest? text = none ↔ ∀ p word after, word ∈ pattern p → word ++ after ≠ text := by
  rw [longest?_eq_none_iff]
  constructor
  · rintro h p word after hword rfl
    obtain ⟨n, hn, -⟩ := (measures_matchLength? p).le hword after
    rw [h] at hn
    contradiction
  · intro h p
    cases hp : matchLength? p text with
    | none => rfl
    | some n =>
        obtain ⟨word, after, htext, -, hword⟩ := (measures_matchLength? p).mem hp
        exact absurd htext.symm (h p word after hword)

/-! ## What a lexeme gives -/

/-- The kind of the token that a lexeme makes.  A string needs all its escapes well formed. -/
inductive HasKind : Lexeme → List Char → TokenKind → Prop
  | quoted {quote : Char} {body : List Char} {items : List StringItem}
      (hbody : StringItem.Spelled body items) :
      HasKind quoted (quote :: (body ++ [quote]))
        (.constant (.string (String.ofList (StringItem.decode items))))
  | number {found : List Char} :
      HasKind number found (.constant (.number (decodeNumber found)))
  | identifier {found : List Char} : HasKind identifier found .identifier
  | punctuation {found : List Char} : HasKind punctuation found .punctuation
  | operator {found : List Char} : HasKind operator found .operator

/-- The fault of a lexeme that makes no token, found at a byte offset. -/
inductive HasFault (offset : Nat) : Lexeme → List Char → TokenError → Prop
  | unterminated {found : List Char} :
      HasFault offset unterminated found (.unterminatedQuote offset)
  | danglingExponent {found : List Char} :
      HasFault offset danglingExponent found (.invalidExponent offset)
  | quoted {quote : Char} {body before after : List Char}
      (hbody : StringItem.Malformed body before after) :
      HasFault offset quoted (quote :: (body ++ [quote]))
        (.invalidUnicodeEscape (offset + 1 + byteCount before) (String.ofList (after.take 4)))

variable {p : Lexeme} {found : List Char} {offset : Nat}

/-- A lexeme that has a kind makes a token of this kind. -/
theorem ofLexeme_of_hasKind {kind : TokenKind} (h : p.HasKind found kind) :
    Token.ofLexeme p offset found = .ok ⟨offset, String.ofList found, kind⟩ := by
  cases h with
  | quoted hbody =>
      simp [Token.ofLexeme, decodeString, StringItem.read_of_spelled hbody, Except.map]
  | number => rfl
  | identifier => rfl
  | punctuation => rfl
  | operator => rfl

/-- A lexeme that has a fault makes an error. -/
theorem ofLexeme_of_hasFault {e : TokenError} (h : HasFault offset p found e) :
    Token.ofLexeme p offset found = .error e := by
  cases h with
  | unterminated => rfl
  | danglingExponent => rfl
  | quoted hbody =>
      simp [Token.ofLexeme, decodeString, StringItem.read_of_malformed hbody, Except.map]

/-- Every word of a pattern makes a token or has a fault. -/
theorem hasKind_or_hasFault (offset : Nat) (h : found ∈ p.pattern) :
    (∃ kind, p.HasKind found kind) ∨ ∃ e, HasFault offset p found e := by
  cases p with
  | quoted =>
      obtain ⟨quote, body, -, rfl, hbody⟩ := exists_body_of_mem_quoted h
      obtain ⟨items, hitems⟩ | ⟨before, after, hmalformed⟩ :=
        StringItem.spelled_or_malformed body hbody
      · exact .inl ⟨_, .quoted hitems⟩
      · exact .inr ⟨_, .quoted hmalformed⟩
  | unterminated => exact .inr ⟨_, .unterminated⟩
  | number => exact .inl ⟨_, .number⟩
  | danglingExponent => exact .inr ⟨_, .danglingExponent⟩
  | identifier => exact .inl ⟨_, .identifier⟩
  | punctuation => exact .inl ⟨_, .punctuation⟩
  | operator => exact .inl ⟨_, .operator⟩

end Lexeme

/-! ## Longest-match reading -/

namespace Tokens

/-- From a byte offset on, a text has blanks up to `start` and goes on with `rest`, which does not
start with a blank. -/
def Skips (offset : Nat) (text : List Char) (start : Nat) (rest : List Char) : Prop :=
  ∃ blanks, text = blanks ++ rest ∧ (∀ c ∈ blanks, isExpressionBlank c) ∧
    start = offset + byteCount blanks ∧ ∀ c ∈ rest.head?, ¬ isExpressionBlank c

/-- Longest-match reading of a text from a byte offset on: the tokens, and the fault that ends
them unless the text does. -/
inductive Lexes : Nat → List Char → Tokens → Prop
  | done {offset start : Nat} {text : List Char} (hskips : Skips offset text start []) :
      Lexes offset text ⟨[], none⟩
  | token {offset start : Nat} {text found rest : List Char} {p : Lexeme} {kind : TokenKind}
      {tokens : Tokens} (hskips : Skips offset text start (found ++ rest))
      (hfound : p.LongestAt found rest) (hkind : p.HasKind found kind)
      (hrest : Lexes (start + byteCount found) rest tokens) :
      Lexes offset text ⟨⟨start, String.ofList found, kind⟩ :: tokens.list, tokens.fault⟩
  | fault {offset start : Nat} {text found rest : List Char} {p : Lexeme} {e : TokenError}
      (hskips : Skips offset text start (found ++ rest)) (hfound : p.LongestAt found rest)
      (hfault : Lexeme.HasFault start p found e) : Lexes offset text ⟨[], some e⟩
  | unexpected {offset start : Nat} {text rest : List Char} {c : Char}
      (hskips : Skips offset text start (c :: rest))
      (hnone : ∀ p word after, word ∈ Lexeme.pattern p → word ++ after ≠ c :: rest) :
      Lexes offset text ⟨[], some (.unexpectedCharacter start c)⟩

/-! ### The reader follows the relation -/

/-- What follows skipped blanks is no blank. -/
theorem Skips.not_blank {offset start : Nat} {text rest : List Char}
    (h : Skips offset text start rest) : ∀ c ∈ rest.head?, ¬ isExpressionBlank c := by
  obtain ⟨_, -, -, -, hrest⟩ := h
  exact hrest

theorem Skips.refl {offset : Nat} {rest : List Char}
    (h : ∀ c ∈ rest.head?, ¬ isExpressionBlank c) : Skips offset rest offset rest :=
  ⟨[], rfl, by simp, rfl, h⟩

theorem Skips.take_append_drop {c : Char} (hc : ¬ isExpressionBlank c) (offset : Nat)
    (cs : List Char) (n : Nat) :
    Skips offset (c :: cs) offset ((c :: cs).take n ++ (c :: cs).drop n) := by
  rw [List.take_append_drop]
  exact .refl (by simpa using hc)

/-- One more blank is skipped. -/
theorem Skips.cons {offset start : Nat} {c : Char} {text rest : List Char}
    (hc : isExpressionBlank c) (h : Skips (offset + c.utf8Size) text start rest) :
    Skips offset (c :: text) start rest := by
  obtain ⟨blanks, rfl, hblanks, rfl, hrest⟩ := h
  exact ⟨c :: blanks, rfl, by simpa [hc] using hblanks, by simp [Nat.add_assoc], hrest⟩

/-- A blank in front of an expression changes no token. -/
theorem Lexes.cons {offset : Nat} {c : Char} {text : List Char} {tokens : Tokens}
    (hc : isExpressionBlank c) (h : Lexes (offset + c.utf8Size) text tokens) :
    Lexes offset (c :: text) tokens := by
  cases h with
  | done hskips => exact .done (hskips.cons hc)
  | token hskips hfound hkind hrest => exact .token (hskips.cons hc) hfound hkind hrest
  | fault hskips hfound hfault => exact .fault (hskips.cons hc) hfound hfault
  | unexpected hskips hnone => exact .unexpected (hskips.cons hc) hnone

/-- The reader reads the tokens that the relation allows. -/
theorem lexes_readFrom (offset : Nat) (text : List Char) :
    Lexes offset text (readFrom offset text) := by
  fun_induction readFrom offset text with
  | case1 offset => exact .done (.refl (by simp))
  | case2 offset c cs hblank ih => exact ih.cons hblank
  | case3 offset c cs hblank hnone =>
      refine .unexpected (.refl (by simpa using hblank)) ?_
      exact Lexeme.longest?_eq_none_iff_forall_pattern.mp hnone
  | case4 offset c cs hblank p n hlongest found e herror =>
      have hfound : p.LongestAt found ((c :: cs).drop n) := Lexeme.longestAt_of_longest? hlongest
      have hskips := Skips.take_append_drop hblank offset cs n
      obtain ⟨kind, hkind⟩ | ⟨e', hfault⟩ := Lexeme.hasKind_or_hasFault offset hfound.mem
      · rw [Lexeme.ofLexeme_of_hasKind hkind] at herror
        contradiction
      · rw [Lexeme.ofLexeme_of_hasFault hfault] at herror
        cases herror
        exact .fault hskips hfound hfault
  | case5 offset c cs hblank p n hlongest found token htoken rest ih =>
      have hfound : p.LongestAt found ((c :: cs).drop n) := Lexeme.longestAt_of_longest? hlongest
      have hskips := Skips.take_append_drop hblank offset cs n
      obtain ⟨kind, hkind⟩ | ⟨e', hfault⟩ := Lexeme.hasKind_or_hasFault offset hfound.mem
      · rw [Lexeme.ofLexeme_of_hasKind hkind] at htoken
        cases htoken
        exact .token hskips hfound hkind ih
      · rw [Lexeme.ofLexeme_of_hasFault hfault] at htoken
        contradiction

/-! ### The relation determines the reader -/

/-- Skipped blanks make no token. -/
theorem readFrom_of_skips {offset start : Nat} {text rest : List Char}
    (h : Skips offset text start rest) : readFrom offset text = readFrom start rest := by
  obtain ⟨blanks, rfl, hblanks, rfl, -⟩ := h
  induction blanks generalizing offset with
  | nil => rfl
  | cons c blanks ih =>
      have hc := hblanks c (by simp)
      rw [List.cons_append, readFrom, if_pos hc, ih (fun d hd => hblanks d (by simp [hd])),
        byteCount_cons, Nat.add_assoc]

/-- One step of the reader at a lexeme: it stops at a fault and goes on after a token. -/
theorem readFrom_of_longestAt {p : Lexeme} {found rest : List Char} (h : p.LongestAt found rest)
    (hblank : ∀ c ∈ (found ++ rest).head?, ¬ isExpressionBlank c) (offset : Nat) :
    (∀ e, Token.ofLexeme p offset found = .error e →
      readFrom offset (found ++ rest) = ⟨[], some e⟩) ∧
    (∀ token, Token.ofLexeme p offset found = .ok token →
      readFrom offset (found ++ rest) =
        ⟨token :: (readFrom (offset + byteCount found) rest).list,
          (readFrom (offset + byteCount found) rest).fault⟩) := by
  have hlongest := Lexeme.longestAt_iff.mp h
  have htake : (found ++ rest).take found.length = found := List.take_left
  have hdrop : (found ++ rest).drop found.length = rest := List.drop_left
  -- the reader's match keeps the equation it matches on, so the text becomes a variable first
  generalize found ++ rest = text at hlongest hblank htake hdrop
  cases text with
  | nil => contradiction
  | cons c cs =>
      rw [readFrom, if_neg (hblank c rfl)]
      split
      · next hnone =>
          rw [hlongest] at hnone
          contradiction
      · next q n hsome =>
          rw [hlongest] at hsome
          cases hsome
          constructor
          · intro e herror
            simp only [htake, herror]
          · intro token htoken
            simp only [htake, hdrop, htoken]

/-- The relation allows only what is read. -/
theorem readFrom_eq_of_lexes {offset : Nat} {text : List Char} {tokens : Tokens}
    (h : Lexes offset text tokens) : readFrom offset text = tokens := by
  induction h with
  | done hskips => rw [readFrom_of_skips hskips, readFrom]
  | @token offset start text found rest p kind tokens hskips hfound hkind _ ih =>
      have hstep := (readFrom_of_longestAt hfound hskips.not_blank start).2 _
        (Lexeme.ofLexeme_of_hasKind hkind)
      rw [readFrom_of_skips hskips, hstep, ih]
  | @fault offset start text found rest p e hskips hfound hfault =>
      have hstep := (readFrom_of_longestAt hfound hskips.not_blank start).1 e
        (Lexeme.ofLexeme_of_hasFault hfault)
      rw [readFrom_of_skips hskips, hstep]
  | @unexpected offset start text rest c hskips hnone =>
      have hlongest := Lexeme.longest?_eq_none_iff_forall_pattern.mpr hnone
      rw [readFrom_of_skips hskips, readFrom, if_neg (hskips.not_blank c rfl)]
      split
      · rfl
      · next hsome =>
          rw [hlongest] at hsome
          contradiction

/-- Reading an expression gives the tokens and the fault of longest-match reading, and these
alone. -/
theorem read_eq_iff_lexes (expression : String) (tokens : Tokens) :
    read expression = tokens ↔ Lexes 0 expression.toList tokens := by
  constructor
  · rintro rfl
    exact lexes_readFrom 0 expression.toList
  · exact readFrom_eq_of_lexes

-- the longest word wins: `===` over `==`, and `.5e+` over `.5`
example : read " a===.5e+" =
    ⟨[⟨1, "a", .identifier⟩, ⟨2, "===", .operator⟩], some (.invalidExponent 5)⟩ := by
  decide +kernel

end Tokens

end TemplateMigration
