import TemplateMigration.Proofs.Expression.CleanText
import TemplateMigration.Proofs.Migration.AliasRemoval

/-!
# TemplateMigration.Proofs.Migration.AliasRelexing

Reading a text without the alias.

The alias outside of strings is a name and a point.  It counts only behind a blank, a string, a mark
or an operator, so of the words around it only operators can come together when it is gone, and they
make operators again.  The words that ask for what follows them end with a character behind which
the alias does not count, so what they ask for stays.  There is one way in which a fault can come
about: the point of the alias may be the point of a number, and without it the number may go on
further than before.
-/

namespace TemplateMigration

open Lexeme

namespace Alias

variable {before text found rest : List Char} {c : Char} {offset : Nat} {tokens : Tokens}

theorem mem_offsetsFrom_append {n : Nat} {xs ys : List Char}
    (h : n ∈ offsetsFrom (offset + byteCount xs) (xs.reverse ++ before) ys) :
    n ∈ offsetsFrom offset before (xs ++ ys) := by
  induction xs generalizing offset before with
  | nil => simpa using h
  | cons x xs ih =>
      have hrest : n ∈ offsetsFrom (offset + x.utf8Size) (x :: before) (xs ++ ys) := by
        refine ih ?_
        simpa [Nat.add_assoc] using h
      rw [List.cons_append, offsetsFrom]
      split
      · exact List.mem_cons_of_mem _ hrest
      · exact hrest

/-- Letters without the first one of the alias stay. -/
theorem clear_append_of_notMem (h : 'v' ∉ found) (before rest : List Char) :
    clear before (found ++ rest) = found ++ clear (found.reverse ++ before) rest := by
  induction found generalizing before with
  | nil => rfl
  | cons c found ih =>
      rw [List.mem_cons, not_or] at h
      rw [List.cons_append, clear_cons_of_ne (Ne.symm h.1), ih h.2]
      simp

/-- What follows where the alias does not count starts as before. -/
theorem head?_clear (h : standsAfter before = false) (text : List Char) :
    (clear before text).head? = text.head? := by
  cases text with
  | nil => rw [clear]
  | cons c text => rw [clear_cons_of_not_standsAfter h, List.head?_cons, List.head?_cons]

/-! ## Ends of words -/

theorem not_standsAfter_reverse (hlast : c ∈ found.getLast?) (hc : continuesName c)
    (before : List Char) : standsAfter (found.reverse ++ before) = false := by
  obtain ⟨front, rfl⟩ := List.getLast?_eq_some_iff.mp hlast
  rw [List.reverse_append]
  exact not_standsAfter_cons hc _

theorem continuesName_of_isDigit (h : c.isDigit) : continuesName c := by
  simp [continuesName, Char.isAlphanum, h]

theorem continuesName_of_isIdentifierPart (h : isIdentifierPart c) : continuesName c := by
  rw [isIdentifierPart_iff] at h
  simp only [continuesName, Char.isAlphanum, Bool.or_eq_true, beq_iff_eq]
  tauto

/-- A number ends with a digit or with a point. -/
theorem exists_getLast?_number (h : found ∈ pattern number) :
    ∃ c ∈ found.getLast?, continuesName c := by
  have hdigits {ds : List Char} (hne : ds ≠ []) (hds : ∀ c ∈ ds, c.isDigit) :
      ∃ c ∈ ds.getLast?, continuesName c :=
    ⟨_, List.getLast?_eq_getLast_of_ne_nil hne,
      continuesName_of_isDigit (hds _ (List.getLast_mem hne))⟩
  obtain ⟨whole, hwhole, power, rfl | hpower, rfl⟩ := Language.mem_mul.mp h
  · rw [List.append_nil]
    obtain hwhole | ⟨ds, es, -, hes, -, rfl⟩ := mem_mantissa.mp hwhole
    · exact (mem_someDigits.mp hwhole).elim hdigits
    · cases es with
      | nil => exact ⟨'.', by simp, rfl⟩
      | cons e es => simpa [List.getLast?_append] using hdigits (by simp) hes
  · obtain ⟨e, ds, -, hds, hpower⟩ := mem_exponentPart.mp hpower
    obtain ⟨hne, hds⟩ := mem_someDigits.mp hds
    obtain ⟨d, ds, rfl⟩ := List.exists_cons_of_ne_nil hne
    obtain rfl | ⟨s, -, rfl⟩ := hpower
    · simpa [List.getLast?_append] using hdigits hne hds
    · simpa [List.getLast?_append] using hdigits hne hds

/-! ## One word -/

variable {p : Lexeme} {kind : TokenKind}

/-- An alias that a word starts with is the word and the point behind it. -/
theorem eq_of_alias_at_identifier (hfound : identifier.LongestAt found rest)
    (h : word.isPrefixOf (found ++ rest) = true) :
    ∃ back, found = ['v', 'm'] ∧ rest = '.' :: back := by
  obtain ⟨back, hback⟩ := List.isPrefixOf_iff_prefix.mp h
  obtain ⟨hmem, hmore⟩ := longestAt_iff_forall_more.mp hfound
  obtain ⟨c, name, hc, hname, rfl⟩ := mem_one_mul.mp hmem
  obtain ⟨rfl, hname'⟩ : 'v' = c ∧ 'm' :: '.' :: back = name ++ rest := List.cons.inj hback
  rw [mem_kstar_one] at hname
  cases name with
  | nil =>
      have hlonger : ['v', 'm'] ∈ pattern identifier :=
        cons_mem_one_mul.mpr ⟨hc, mem_kstar_one.mpr (by simp)⟩
      exact absurd hlonger (hmore identifier 'm' [] ('.' :: back) hname'.symm)
  | cons d name =>
      obtain ⟨rfl, htail⟩ := List.cons.inj hname'
      cases name with
      | nil => exact ⟨back, rfl, htail.symm⟩
      | cons e name =>
          obtain ⟨rfl, -⟩ := List.cons.inj htail
          have hpoint := hname '.' (by simp)
          contradiction

theorem clear_identifier (h : found ∈ pattern identifier)
    (halias : (word.isPrefixOf (found ++ rest) && standsAfter before) = false) :
    clear before (found ++ rest) = found ++ clear (found.reverse ++ before) rest ∧
      standsAfter (found.reverse ++ before) = false := by
  obtain ⟨c, name, hc, hname, rfl⟩ := mem_one_mul.mp h
  have hparts : ∀ d ∈ c :: name, continuesName d := by
    refine List.forall_mem_cons.mpr ⟨?_, fun d hd => ?_⟩
    · exact continuesName_of_isIdentifierPart (isIdentifierPart_iff.mpr (by tauto))
    · exact continuesName_of_isIdentifierPart
        (isIdentifierPart_iff.mpr (mem_kstar_one.mp hname d hd))
  obtain ⟨hfirst, hmore⟩ := List.forall_mem_cons.mp hparts
  constructor
  · rw [List.cons_append] at halias ⊢
    rw [clear_cons halias, clear_append_of_continuesName hmore (not_standsAfter_cons hfirst before)]
    simp
  · have hne : c :: name ≠ [] := by simp
    exact not_standsAfter_reverse (List.getLast?_eq_getLast_of_ne_nil hne)
      (hparts _ (List.getLast_mem hne)) before

/-- A string without an alias stays whole. -/
theorem clear_quoted {quote : Char} {body : List Char} (offset : Nat) (hquote : isQuote quote)
    (hstring : ∀ n ∈ offsetsFrom offset before (quote :: (body ++ [quote]) ++ rest),
      offset + byteCount (quote :: (body ++ [quote])) ≤ n) :
    clear before (quote :: (body ++ [quote]) ++ rest) =
      quote :: (body ++ [quote]) ++
        clear ((quote :: (body ++ [quote])).reverse ++ before) rest := by
  have hletter := notMem_word_of_isQuote hquote
  have hv : quote ≠ 'v' := fun hv => hletter (by simp [hv, word])
  have htext : quote :: (body ++ [quote]) ++ rest = quote :: (body ++ quote :: rest) := by simp
  have hfree : clear (quote :: before) body = body := by
    refine @clear_of_offsetsFrom_eq_nil _ _ (offset + quote.utf8Size) ?_
    refine List.eq_nil_iff_forall_not_mem.mpr fun n hn => ?_
    have hlt := lt_of_mem_offsetsFrom hn
    have hle := hstring n (by
      rw [htext, offsetsFrom_cons_of_ne _ hv, offsetsFrom_append_cons hletter]
      exact List.mem_append_left _ hn)
    simp only [byteCount_cons, byteCount_append] at hle
    omega
  rw [htext, clear_cons_of_ne hv, clear_append_cons hletter, hfree]
  simp

/-- A number is the longest word at its place still: what is removed behind it does not stand right
behind its last digit, nor behind the mark of an exponent. -/
theorem longestAt_number_clear (hfound : number.LongestAt found rest) (before : List Char) :
    number.LongestAt found (clear (found.reverse ++ before) rest) := by
  obtain ⟨c, hc, hlast⟩ := exists_getLast?_number hfound.mem
  have hstands := not_standsAfter_reverse hc hlast before
  refine hfound.number_congr (head?_clear hstands rest) fun e he hmark => ?_
  obtain ⟨tail, rfl⟩ := List.head?_eq_some_iff.mp he
  have hcontinues : continuesName e := by
    simp only [isExponentMark, Bool.or_eq_true, beq_iff_eq] at hmark
    obtain rfl | rfl := hmark <;> rfl
  rw [clear_cons_of_not_standsAfter hstands]
  exact head?_clear (not_standsAfter_cons hcontinues _) tail

/-- The name of the alias goes with the point behind it, and what follows is clean without them: the
point does not start a number. -/
theorem clean_clear_word {back : List Char} (hstands : standsAfter before = true)
    (hrest : Tokens.Clean (clear (['v', 'm'].reverse ++ before) ('.' :: back)))
    (hdigit : ∀ c more, back = c :: more → ¬ c.isDigit) :
    Tokens.Clean (clear before (word ++ back)) := by
  have hpoint : punctuation.LongestAt ['.'] (clear (word.reverse ++ before) back) := by
    refine (longestAt_punctuation_iff (by decide)).mpr fun _ d hd => ?_
    rw [head?_clear (not_standsAfter_word before)] at hd
    obtain ⟨more, rfl⟩ := List.head?_eq_some_iff.mp hd
    exact hdigit d more rfl
  rw [clear_cons_of_ne (by decide)] at hrest
  rw [clear_word hstands]
  exact (Tokens.clean_append_iff hpoint .punctuation).mp hrest

theorem longestAt_punctuation_clear {c : Char} (hc : c ∈ punctuationMarks)
    (hfound : punctuation.LongestAt [c] rest) (before : List Char) :
    punctuation.LongestAt [c] (clear ([c].reverse ++ before) rest) := by
  refine (longestAt_punctuation_iff hc).mpr ?_
  rintro rfl
  have hstands : standsAfter (['.'].reverse ++ before) = false := not_standsAfter_cons rfl _
  rw [head?_clear hstands]
  exact (longestAt_punctuation_iff hc).mp hfound rfl

/-- **One word of a text without the alias.** -/
theorem clean_clear_append (offset : Nat) (hfound : p.LongestAt found rest)
    (hkind : p.HasKind found kind)
    (hrest : Tokens.Clean (clear (found.reverse ++ before) rest))
    (hstring : p = quoted →
      ∀ n ∈ offsetsFrom offset before (found ++ rest), offset + byteCount found ≤ n)
    (hdigit : standsAfter before = true →
      ∀ c back, found ++ rest = word ++ c :: back → ¬ c.isDigit) :
    Tokens.Clean (clear before (found ++ rest)) := by
  cases hkind with
  | @quoted quote body items hspelled =>
      have hquote : isQuote quote := (isQuote_iff_of_mem hfound.mem).mpr (.inl rfl)
      rw [clear_quoted offset hquote (hstring rfl)]
      exact .token (longestAt_quoted hfound.mem _) (.quoted hspelled) hrest
  | number =>
      have hv : 'v' ∉ found := by
        have havoids := (@avoids_number ['v'] (by simp) (by simp)).1 found hfound.mem
        exact fun hv => havoids 'v' hv (by simp)
      rw [clear_append_of_notMem hv]
      exact .token (longestAt_number_clear hfound before) .number hrest
  | identifier =>
      cases halias : word.isPrefixOf (found ++ rest) && standsAfter before with
      | true =>
          rw [Bool.and_eq_true] at halias
          obtain ⟨back, rfl, rfl⟩ := eq_of_alias_at_identifier hfound halias.1
          refine clean_clear_word halias.2 hrest fun c more hback => ?_
          exact hdigit halias.2 c more (by simp [hback, word])
      | false =>
          obtain ⟨hclear, hstands⟩ := clear_identifier hfound.mem halias
          rw [hclear]
          exact .token (hfound.identifier_congr (head?_clear hstands rest)) .identifier hrest
  | punctuation =>
      obtain ⟨c, hc, rfl⟩ := mem_one.mp hfound.mem
      have hv : 'v' ∉ [c] := by
        rintro hv
        obtain rfl := List.mem_singleton.mp hv
        simp at hc
      rw [clear_append_of_notMem hv]
      exact .token (longestAt_punctuation_clear hc hfound before) .punctuation hrest
  | operator =>
      have hv : ∀ op ∈ operators, 'v' ∉ op := by simp [operators]
      rw [clear_append_of_notMem (hv found (mem_pattern_operator.mp hfound.mem))]
      exact .operator_append (mem_pattern_operator.mp hfound.mem) hrest

/-! ## A whole text -/

theorem notMem_blanks {blanks : List Char} (h : ∀ c ∈ blanks, isExpressionBlank c) :
    'v' ∉ blanks := by
  intro hv
  exact absurd (h _ hv) (by decide)

/-- **Reading a text without the alias.**  Where no alias stands in a string or before a digit, what
is left of a text is read without a fault if the text is. -/
theorem clean_clear (h : Tokens.Lexes offset text tokens) (hclean : tokens.fault = none)
    (hstring : ∀ n ∈ offsetsFrom offset before text, ¬ tokens.InString n)
    (hdigit : ∀ n ∈ offsetsFrom offset before text, ∀ front c back, text = front ++ c :: back →
      offset + byteCount front = n + word.length → ¬ c.isDigit) :
    Tokens.Clean (clear before text) := by
  induction h generalizing before with
  | done hskips =>
      obtain ⟨blanks, rfl, hblanks, -, -⟩ := hskips
      rw [clear_append_of_notMem (notMem_blanks hblanks), clear]
      exact .blanks_append hblanks .nil
  | fault => contradiction
  | unexpected => contradiction
  | @token offset start text found rest p kind tokens hskips hfound hkind _ ih =>
      obtain ⟨blanks, rfl, hblanks, rfl, -⟩ := hskips
      rw [clear_append_of_notMem (notMem_blanks hblanks)]
      refine .blanks_append hblanks ?_
      have hmem {n : Nat} (hn : n ∈ offsetsFrom (offset + byteCount blanks)
          (blanks.reverse ++ before) (found ++ rest)) :
          n ∈ offsetsFrom offset before (blanks ++ (found ++ rest)) :=
        mem_offsetsFrom_append hn
      refine clean_clear_append (offset + byteCount blanks) hfound hkind
        (ih hclean (fun n hn hin => ?_) ?_) ?_ ?_
      · exact hstring n (hmem (mem_offsetsFrom_append hn)) (Tokens.inString_cons.mpr (.inr hin))
      · intro n hn front c back heq hoffset
        refine hdigit n (hmem (mem_offsetsFrom_append hn)) (blanks ++ (found ++ front)) c back
          (by simp [heq]) ?_
        rw [← hoffset]
        simp [Nat.add_assoc]
      · rintro rfl n hn
        obtain @⟨quote, body, items, hspelled⟩ := hkind
        by_contra hlt
        refine hstring n (hmem hn) (Tokens.inString_cons.mpr (.inl ⟨rfl, ?_, ?_⟩))
        · exact le_of_mem_offsetsFrom hn
        · rw [Token.stop, byteLength_ofList]
          exact Nat.lt_of_not_le hlt
      · intro hstands c back heq
        have hn : offset + byteCount blanks ∈ offsetsFrom (offset + byteCount blanks)
            (blanks.reverse ++ before) (found ++ rest) := by
          rw [heq, offsetsFrom_word hstands]
          exact List.mem_cons_self
        refine hdigit _ (hmem hn) (blanks ++ word) c back (by simp [heq]) ?_
        rw [byteCount_append, Nat.add_assoc]
        rfl

end Alias

end TemplateMigration
