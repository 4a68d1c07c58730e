import TemplateMigration.Proofs.Expression.StringArguments
import TemplateMigration.Proofs.Expression.Tiling

/-!
# TemplateMigration.Proofs.Expression.Relexing

Tokens written apart are read as the same tokens.

Only strings hold blanks or quotes, so a word of any other pattern is the longest one before a blank
(`Lexeme.longestAt_of_blank`), whatever followed it where it was found; and a closed string ends
with its own quote (`Lexeme.longestAt_quoted`).
-/

namespace TemplateMigration

namespace Lexeme

open Computability

/-! ## Characters that patterns lack -/

/-- No word of a language holds a character of a list. -/
def Avoids (bad : List Char) (L : Language Char) : Prop := ∀ word ∈ L, ∀ c ∈ word, c ∉ bad

variable {bad : List Char}

theorem avoids_unit : Avoids bad 1 := by
  rintro _ rfl c hc
  contradiction

theorem avoids_one {p : Char → Prop} (h : ∀ c ∈ bad, ¬ p c) : Avoids bad (one p) := by
  rintro _ ⟨d, hd, rfl⟩ c hc hbad
  obtain rfl := List.mem_singleton.mp hc
  exact h c hbad hd

namespace Avoids

variable {L M : Language Char}

theorem add (hL : Avoids bad L) (hM : Avoids bad M) : Avoids bad (L + M) := by
  rintro word (hword | hword)
  · exact hL word hword
  · exact hM word hword

theorem mul (hL : Avoids bad L) (hM : Avoids bad M) : Avoids bad (L * M) := by
  intro word hword c hc
  obtain ⟨xs, hxs, ys, hys, rfl⟩ := Language.mem_mul.mp hword
  obtain hc | hc := List.mem_append.mp hc
  · exact hL xs hxs c hc
  · exact hM ys hys c hc

theorem kstar (hL : Avoids bad L) : Avoids bad L∗ := by
  intro word hword c hc
  obtain ⟨words, rfl, hwords⟩ := Language.mem_kstar.mp hword
  obtain ⟨xs, hxs, hc⟩ := List.mem_flatten.mp hc
  exact hL xs (hwords xs hxs) c hc

end Avoids

/-- Numbers are made of digits, points, exponent marks and signs. -/
theorem avoids_number (hdigit : ∀ c ∈ bad, ¬ c.isDigit)
    (hmarks : ∀ c ∈ bad, c ∉ ['.', 'e', 'E', '+', '-']) :
    Avoids bad (pattern number) ∧ Avoids bad (pattern danglingExponent) := by
  have hdigit : Avoids bad (one (·.isDigit)) := avoids_one hdigit
  have hdigits : Avoids bad someDigits := hdigit.mul hdigit.kstar
  have hpoint : Avoids bad (one (· = '.')) := avoids_one fun c hc => by grind
  have hmark : Avoids bad (one (· ∈ ['e', 'E'])) := avoids_one fun c hc => by grind
  have hsign : Avoids bad (one (· ∈ ['+', '-'])) := avoids_one fun c hc => by grind
  have hmantissa : Avoids bad mantissa :=
    (hdigits.mul (avoids_unit.add (hpoint.mul hdigit.kstar))).add (hpoint.mul hdigits)
  refine ⟨hmantissa.mul (avoids_unit.add (hmark.mul ?_)), hmantissa.mul (hmark.mul hsign)⟩
  exact (avoids_unit.add hsign).mul hdigits

/-- Only strings hold blanks or quotes. -/
theorem avoids_pattern {p : Lexeme} (hquoted : p ≠ quoted) (hopen : p ≠ unterminated) :
    Avoids ('"' :: '\'' :: blankChars) p.pattern := by
  have hnumber : Avoids ('"' :: '\'' :: blankChars) (pattern number) ∧
      Avoids ('"' :: '\'' :: blankChars) (pattern danglingExponent) :=
    avoids_number (by simp [blankChars]) (by simp [blankChars])
  cases p with
  | quoted => contradiction
  | unterminated => contradiction
  | number => exact hnumber.1
  | danglingExponent => exact hnumber.2
  | identifier =>
      exact (avoids_one (by simp [blankChars])).mul (avoids_one (by simp [blankChars])).kstar
  | punctuation => exact avoids_one (by simp [blankChars])
  | operator =>
      intro word hword
      have hoperators : ∀ op ∈ operators, ∀ c ∈ op, c ∉ '"' :: '\'' :: blankChars := by
        simp [operators, blankChars]
      exact hoperators word (mem_pattern_operator.mp hword)

theorem not_isQuote_of_mem_pattern {p : Lexeme} {word : List Char} {c : Char} (hquoted : p ≠ quoted)
    (hopen : p ≠ unterminated) (h : word ∈ p.pattern) (hc : c ∈ word) : ¬ isQuote c := by
  intro hquote
  refine avoids_pattern hquoted hopen word h c hc ?_
  obtain rfl | rfl := isQuote_iff.mp hquote <;> simp

theorem notMem_blankChars_of_mem_pattern {p : Lexeme} {word : List Char} {c : Char}
    (hquoted : p ≠ quoted) (hopen : p ≠ unterminated) (h : word ∈ p.pattern) (hc : c ∈ word) :
    c ∉ blankChars := fun hblank => avoids_pattern hquoted hopen word h c hc (by simp [hblank])

/-! ## Words that stay the longest -/

variable {p : Lexeme} {found rest : List Char} {c : Char}

/-- The words that start with a quote are the strings. -/
theorem isQuote_iff_of_mem (h : c :: found ∈ p.pattern) :
    isQuote c ↔ p = quoted ∨ p = unterminated := by
  have hstart := mem_startingWith_of_mem h (List.append_nil _)
  constructor
  · intro hquote
    simpa [startingWith, hquote] using hstart
  · rintro (rfl | rfl)
    · obtain ⟨quote, hquote, hword⟩ := mem_pattern_quoted.mp h
      obtain ⟨rfl, -⟩ := cons_mem_one_mul.mp hword
      exact hquote
    · obtain ⟨quote, hquote, hword⟩ := mem_pattern_unterminated.mp h
      obtain ⟨rfl, -⟩ := cons_mem_one_mul.mp hword
      exact hquote

/-- A closed string is the longest word at its start, whatever follows. -/
theorem longestAt_quoted (h : found ∈ pattern quoted) (rest : List Char) :
    quoted.LongestAt found rest := by
  obtain ⟨quote, hquote, hword⟩ := mem_pattern_quoted.mp h
  obtain ⟨first, tail, rfl, htail, rfl⟩ := mem_one_mul.mp hword
  have hclosed := closedBody?_append hquote htail rest
  have hmatch : matchLength? quoted (first :: tail ++ rest) = some (first :: tail).length := by
    simp [matchLength?, quoted?, hquote, hclosed]
  refine longestAt_iff.mpr (longest?_eq_some_iff.mpr ⟨hmatch, ?_⟩)
  intro q k hq
  have hstart := mem_startingWith hq
  rw [startingWith, if_pos hquote, List.mem_cons, List.mem_singleton] at hstart
  obtain rfl | rfl := hstart
  · rw [hmatch] at hq
    exact Nat.le_of_eq (Option.some.inj hq).symm
  · -- without its closing quote the string is shorter
    have hopen := openBody_of_closedBody? hclosed
    have hk : openBody first (tail ++ rest) + 1 = k := by
      simpa [matchLength?, unterminated?, hquote] using hq
    rw [List.length_cons]
    omega

/-- Before a blank, a word that is no string is the longest one. -/
theorem longestAt_of_blank (h : found ∈ p.pattern) (hquoted : p ≠ quoted) (hopen : p ≠ unterminated)
    (hrest : ∀ c ∈ rest.head?, c ∈ blankChars) : p.LongestAt found rest := by
  refine ⟨h, fun q word after hword heq => ?_⟩
  obtain ⟨mid, rfl, -⟩ | ⟨mid, rfl, rfl⟩ := List.append_eq_append_iff.mp heq
  · simp
  · cases mid with
    | nil => simp
    | cons b mid =>
        -- a longer word would hold the blank, so it would be a string, and so would `found`
        have hblank : b ∈ blankChars := hrest b rfl
        have hstring : q = quoted ∨ q = unterminated := by
          by_contra hq
          rw [not_or] at hq
          exact notMem_blankChars_of_mem_pattern hq.1 hq.2 hword (by simp) hblank
        cases found with
        | nil => exact absurd h (nil_notMem_pattern p)
        | cons c found =>
            have hquote : isQuote c := (isQuote_iff_of_mem hword).mpr hstring
            exact ((isQuote_iff_of_mem h).mp hquote).elim (absurd · hquoted) (absurd · hopen)

/-- A word that makes a token stays the longest one before a blank. -/
theorem HasKind.longestAt {kind : TokenKind} (hkind : p.HasKind found kind) (h : found ∈ p.pattern)
    (hrest : ∀ c ∈ rest.head?, c ∈ blankChars) : p.LongestAt found rest := by
  cases hkind with
  | quoted => exact longestAt_quoted h rest
  | number => exact longestAt_of_blank h (by simp) (by simp) hrest
  | identifier => exact longestAt_of_blank h (by simp) (by simp) hrest
  | punctuation => exact longestAt_of_blank h (by simp) (by simp) hrest
  | operator => exact longestAt_of_blank h (by simp) (by simp) hrest

/-- No word starts with a blank. -/
theorem head_notMem_blankChars (h : c :: found ∈ p.pattern) : c ∉ blankChars := by
  by_cases hstring : p = quoted ∨ p = unterminated
  · obtain rfl | rfl := isQuote_iff.mp ((isQuote_iff_of_mem h).mpr hstring) <;> simp [blankChars]
  · rw [not_or] at hstring
    exact notMem_blankChars_of_mem_pattern hstring.1 hstring.2 h (by simp)

end Lexeme

/-! ## Reading spaced tokens -/

namespace Tokens

/-- A text with some words in order and blanks behind each, at least one before the next word. -/
inductive Spaced : List String → List Char → Prop
  | nil {gap : List Char} (hgap : ∀ c ∈ gap, c ∈ blankChars) : Spaced [] gap
  | cons {word : String} {words : List String} {gap text : List Char}
      (hgap : ∀ c ∈ gap, c ∈ blankChars)
      (hapart : words ≠ [] → gap ≠ []) (h : Spaced words text) :
      Spaced (word :: words) (word.toList ++ (gap ++ text))

variable {words : List String} {gap text : List Char}

/-- What stands behind a word starts with a blank. -/
theorem Spaced.head_mem_blankChars (h : Spaced words text) (hgap : ∀ c ∈ gap, c ∈ blankChars)
    (hapart : words ≠ [] → gap ≠ []) : ∀ c ∈ (gap ++ text).head?, c ∈ blankChars := by
  intro c hc
  cases gap with
  | cons b gap =>
      obtain rfl : b = c := by simpa using hc
      exact hgap b (by simp)
  | nil =>
      cases h with
      | nil hblank => exact hblank c (List.mem_of_mem_head? hc)
      | cons => exact absurd rfl (hapart (by simp))

theorem Lexes.append_blanks {offset : Nat} {tokens : Tokens} (hgap : ∀ c ∈ gap, c ∈ blankChars)
    (h : Lexes (offset + byteCount gap) text tokens) : Lexes offset (gap ++ text) tokens := by
  induction gap generalizing offset with
  | nil => exact h
  | cons c gap ih =>
      refine Lexes.cons (isExpressionBlank_iff.mpr (hgap c (by simp))) (ih ?_ ?_)
      · exact fun d hd => hgap d (by simp [hd])
      · rwa [byteCount_cons, ← Nat.add_assoc] at h

/-- Words that make tokens are read as these tokens when they are written apart. -/
theorem Spaced.exists_lexes {ts : List Token} (h : Spaced (ts.map Token.text) text) (offset : Nat)
    (hts : ∀ t ∈ ts, ∃ p found, found ∈ Lexeme.pattern p ∧ p.HasKind found t.kind ∧
      t.text = String.ofList found) :
    ∃ tokens, Lexes offset text tokens ∧ tokens.fault = none ∧
      tokens.list.map (fun t => (t.text, t.kind)) = ts.map fun t => (t.text, t.kind) := by
  induction ts generalizing text offset with
  | nil =>
      obtain ⟨hgap⟩ := h
      refine ⟨⟨[], none⟩, .done ⟨text, by simp, ?_, rfl, by simp⟩, rfl, rfl⟩
      exact fun c hc => isExpressionBlank_iff.mpr (hgap c hc)
  | cons t ts ih =>
      obtain _ | @⟨_, _, gap, text, hgap, hapart, hspaced⟩ := h
      obtain ⟨p, found, hmem, hkind, htext⟩ := hts t (by simp)
      obtain ⟨tokens, hlexes, hfault, hmap⟩ :=
        ih hspaced (offset + byteCount found + byteCount gap) fun u hu => hts u (by simp [hu])
      have hlongest := hkind.longestAt hmem (hspaced.head_mem_blankChars hgap hapart)
      have hskips : Skips offset (found ++ (gap ++ text)) offset (found ++ (gap ++ text)) := by
        refine .refl ?_
        cases found with
        | nil => exact absurd hmem (Lexeme.nil_notMem_pattern p)
        | cons c found =>
            rintro _ ⟨⟩
            rw [isExpressionBlank_iff]
            exact Lexeme.head_notMem_blankChars hmem
      refine ⟨⟨⟨offset, String.ofList found, t.kind⟩ :: tokens.list, tokens.fault⟩, ?_, hfault, ?_⟩
      · rw [htext, String.toList_ofList]
        exact .token hskips hlongest hkind (hlexes.append_blanks hgap)
      · simp [hmap, htext]

/-- The texts of the tokens of an expression, written apart by blanks in any way, are read again
as tokens of the same texts, kinds and values and without a fault, also where reading the
expression ended with one. -/
theorem read_of_spaced (expression spaced : String)
    (h : Spaced ((read expression).list.map Token.text) spaced.toList) :
    (read spaced).fault = none ∧
      (read spaced).list.map (fun t => (t.text, t.kind)) =
        (read expression).list.map fun t => (t.text, t.kind) := by
  obtain ⟨tokens, hlexes, hfault, hmap⟩ := h.exists_lexes 0
    fun t ht => (lexes_readFrom 0 expression.toList).exists_hasKind ht
  have hread : read spaced = tokens := readFrom_eq_of_lexes hlexes
  rw [hread]
  exact ⟨hfault, hmap⟩

/-- Neighbours that would be one token without their blanks, and a string with a blank in it. -/
theorem read_of_spaced_neighbours :
    Spaced ((read "1 .5=='a b'").list.map Token.text) "1\u00a0.5 ==\n\t'a b'".toList ∧
      (read "1\u00a0.5 ==\n\t'a b'").fault = none ∧
      (read "1\u00a0.5 ==\n\t'a b'").list.map (fun t => (t.text, t.kind)) =
        (read "1 .5=='a b'").list.map fun t => (t.text, t.kind) := by
  have htexts : (read "1 .5=='a b'").list.map Token.text = ["1", ".5", "==", "'a b'"] := by
    decide +kernel
  have hspaced : Spaced ((read "1 .5=='a b'").list.map Token.text)
      "1\u00a0.5 ==\n\t'a b'".toList := by
    rw [htexts]
    have hlast : Spaced ["'a b'"] ("'a b'".toList ++ ([] ++ [])) :=
      .cons (by simp) (by simp) (.nil (by simp))
    exact @Spaced.cons _ _ ['\u00a0'] _ (by simp [blankChars]) (by simp)
      (@Spaced.cons _ _ [' '] _ (by simp [blankChars]) (by simp)
        (@Spaced.cons _ _ ['\n', '\t'] _ (by simp [blankChars]) (by simp) hlast))
  exact ⟨hspaced, read_of_spaced _ _ hspaced⟩

end Tokens

end TemplateMigration
