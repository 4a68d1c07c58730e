import TemplateMigration.Proofs.Expression.Relexing

/-!
# TemplateMigration.Proofs.Expression.QuotedStrings

The strings of a text, found by its quotes.

No token but a string holds a quote.  So the first quote of a text opens its first string, whatever
tokens stand before it, and reading either takes this string and goes on behind it or stops with a
fault (`Tokens.Lexes.first_quote`).  `StringItem.Finishes` says how a string goes on behind its
opening quote.
-/

namespace TemplateMigration

open Computability Lexeme

/-! ## How a string goes on -/

namespace StringItem

/-- Behind an opening quote a text has the given items, the same quote, and then `rest`. -/
inductive Finishes (quote : Char) : List Char → List StringItem → List Char → Prop
  | close (rest : List Char) : Finishes quote (quote :: rest) [] rest
  | plain {c : Char} {text rest : List Char} {items : List StringItem} (hquote : c ≠ quote)
      (hescape : c ≠ '\\') (h : Finishes quote text items rest) :
      Finishes quote (c :: text) (character c :: items) rest
  | escape {c : Char} {text rest : List Char} {items : List StringItem} (hunit : c ≠ 'u')
      (h : Finishes quote text items rest) :
      Finishes quote ('\\' :: c :: text) (character (escaped c) :: items) rest
  | unit {a b c d : Char} {n : Nat} {text rest : List Char} {items : List StringItem}
      (hunit : unit? a b c d = some n) (h : Finishes quote text items rest) :
      Finishes quote ('\\' :: 'u' :: a :: b :: c :: d :: text) (unit n :: items) rest

variable {quote : Char} {text body rest : List Char} {items : List StringItem}

theorem ne_quote_of_isSome_hexDigit? (hquote : isQuote quote) {c : Char}
    (h : (hexDigit? c).isSome) : c ≠ quote := by
  rintro rfl
  obtain rfl | rfl := isQuote_iff.mp hquote <;> contradiction

namespace Finishes

/-! What a string goes on with says how its items start. -/

/-- A plain character is an item of its own. -/
theorem exists_of_plain {c : Char} (hne : c ≠ quote) (hescape : c ≠ '\\')
    (h : Finishes quote (c :: text) items rest) :
    ∃ items', items = character c :: items' ∧ Finishes quote text items' rest := by
  cases h with
  | close => contradiction
  | plain _ _ h => exact ⟨_, rfl, h⟩
  | escape => contradiction
  | unit => contradiction

/-- A backslash and a letter are one item. -/
theorem exists_of_escape {c : Char} (hquote : isQuote quote) (hunit : c ≠ 'u')
    (h : Finishes quote ('\\' :: c :: text) items rest) :
    ∃ items', items = character (escaped c) :: items' ∧ Finishes quote text items' rest := by
  cases h with
  | close => contradiction
  | plain _ hescape => contradiction
  | escape _ h => exact ⟨_, rfl, h⟩
  | unit => contradiction

/-- Four hexadecimal digits behind a `u` are one item. -/
theorem exists_of_unit (hquote : isQuote quote)
    (h : Finishes quote ('\\' :: 'u' :: text) items rest) :
    ∃ a b c d n text' items', text = a :: b :: c :: d :: text' ∧ unit? a b c d = some n ∧
      items = StringItem.unit n :: items' ∧ Finishes quote text' items' rest := by
  cases h with
  | close => contradiction
  | plain _ hescape => contradiction
  | escape hunit => contradiction
  | unit hunit h => exact ⟨_, _, _, _, _, _, _, rfl, hunit, rfl, h⟩

/-- The quote ends the string. -/
theorem eq_of_quote (hquote : isQuote quote) (h : Finishes quote (quote :: text) items rest) :
    items = [] ∧ text = rest := by
  have hne := ne_backslash_of_isQuote hquote
  cases h with
  | close => trivial
  | plain => contradiction
  | escape => contradiction
  | unit => contradiction

/-- A body that is spelled finishes at its quote. -/
theorem of_spelled (h : Spelled body items) (hbody : body ∈ (bodyItem quote)∗)
    (rest : List Char) : Finishes quote (body ++ quote :: rest) items rest := by
  induction h with
  | nil => exact .close rest
  | plain hescape _ ih =>
      obtain ⟨⟨hquote, -⟩, hbody⟩ | ⟨hc, -⟩ := cons_mem_bodyItem_kstar.mp hbody
      · exact .plain hquote hescape (ih hbody)
      · contradiction
  | escape hunit _ ih =>
      obtain ⟨⟨-, hc⟩, -⟩ | ⟨-, d, rest, heq, hbody⟩ := cons_mem_bodyItem_kstar.mp hbody
      · contradiction
      · cases heq
        exact .escape hunit (ih hbody)
  | unit hunit _ ih =>
      obtain ⟨⟨-, hc⟩, -⟩ | ⟨-, d, rest, heq, hbody⟩ := cons_mem_bodyItem_kstar.mp hbody
      · contradiction
      · cases heq
        obtain ⟨-, hbody⟩ := (append_mem_bodyItem_kstar (ne_backslash_of_unit? hunit)).mp hbody
        exact .unit hunit (ih hbody)

/-- What finishes at a quote is a body in front of it. -/
theorem exists_body (hquote : isQuote quote) (h : Finishes quote text items rest) :
    ∃ body, text = body ++ quote :: rest ∧ body ∈ (bodyItem quote)∗ ∧ Spelled body items := by
  induction h with
  | close rest => exact ⟨[], rfl, Language.nil_mem_kstar _, .nil⟩
  | @plain c text rest items hne hescape _ ih =>
      obtain ⟨body, rfl, hbody, hspelled⟩ := ih
      refine ⟨c :: body, rfl, ?_, .plain hescape hspelled⟩
      exact cons_mem_bodyItem_kstar.mpr (.inl ⟨⟨hne, hescape⟩, hbody⟩)
  | @escape c text rest items hunit _ ih =>
      obtain ⟨body, rfl, hbody, hspelled⟩ := ih
      refine ⟨'\\' :: c :: body, rfl, ?_, .escape hunit hspelled⟩
      exact cons_mem_bodyItem_kstar.mpr (.inr ⟨rfl, c, body, rfl, hbody⟩)
  | @unit a b c d n text rest items hunit _ ih =>
      obtain ⟨body, rfl, hbody, hspelled⟩ := ih
      refine ⟨'\\' :: 'u' :: a :: b :: c :: d :: body, rfl, ?_, .unit hunit hspelled⟩
      have hdigits : [a, b, c, d] ++ body ∈ (bodyItem quote)∗ := by
        refine (append_mem_bodyItem_kstar (ne_backslash_of_unit? hunit)).mpr ⟨?_, hbody⟩
        intro x hx
        exact ne_quote_of_isSome_hexDigit? hquote (isSome_hexDigit?_of_unit? hunit x hx)
      exact cons_mem_bodyItem_kstar.mpr (.inr ⟨rfl, 'u', _, rfl, hdigits⟩)

/-- A string ends at one place and has one sequence of items. -/
theorem unique (hquote : isQuote quote) {rest' : List Char} {items' : List StringItem}
    (h : Finishes quote text items rest) (h' : Finishes quote text items' rest') :
    items = items' ∧ rest = rest' := by
  induction h generalizing items' with
  | close rest => exact (h'.eq_of_quote hquote).imp Eq.symm id
  | plain hne hescape _ ih =>
      obtain ⟨more, rfl, hmore⟩ := h'.exists_of_plain hne hescape
      simpa using ih hmore
  | escape hunit _ ih =>
      obtain ⟨more, rfl, hmore⟩ := h'.exists_of_escape hquote hunit
      simpa using ih hmore
  | unit hn _ ih =>
      obtain ⟨_, _, _, _, n', _, more, heq, hn', rfl, hmore⟩ := h'.exists_of_unit hquote
      cases heq
      cases hn.symm.trans hn'
      simpa using ih hmore

/-- What stands behind the closing quote does not matter. -/
theorem of_body (hquote : isQuote quote) (h : Finishes quote (body ++ quote :: rest) items rest)
    (rest' : List Char) : Finishes quote (body ++ quote :: rest') items rest' := by
  obtain ⟨body', heq, hbody, hspelled⟩ := h.exists_body hquote
  obtain rfl := List.append_cancel_right heq
  exact of_spelled hspelled hbody rest'

end Finishes

end StringItem

/-! ## The first quote -/

theorem Lexeme.mem_quoted_of_body {quote : Char} {body : List Char} (hquote : isQuote quote)
    (h : body ∈ (bodyItem quote)∗) : quote :: (body ++ [quote]) ∈ pattern quoted := by
  refine mem_pattern_quoted.mpr ⟨quote, hquote, cons_mem_one_mul.mpr ⟨rfl, ?_⟩⟩
  exact Language.append_mem_mul h (cons_mem_one.mpr ⟨rfl, rfl⟩)

/-- There is one longest match. -/
theorem Lexeme.LongestAt.unique {p q : Lexeme} {found found' rest rest' : List Char}
    (h : p.LongestAt found rest) (h' : q.LongestAt found' rest')
    (heq : found ++ rest = found' ++ rest') : p = q ∧ found = found' ∧ rest = rest' := by
  rw [longestAt_iff, heq, longestAt_iff.mp h'] at h
  obtain ⟨rfl, hlength⟩ : q = p ∧ found'.length = found.length := by simpa using h
  obtain ⟨rfl, rfl⟩ := List.append_inj heq hlength.symm
  exact ⟨rfl, rfl, rfl⟩

namespace Tokens

/-- The values of the strings among tokens. -/
def strings (tokens : Tokens) : List String := tokens.list.filterMap Token.string?

/-- An offset lies in a string among tokens. -/
def InString (tokens : Tokens) (offset : Nat) : Prop :=
  ∃ t ∈ tokens.list, t.string?.isSome ∧ t.offset ≤ offset ∧ offset < t.stop

instance (tokens : Tokens) (offset : Nat) : Decidable (tokens.InString offset) :=
  inferInstanceAs (Decidable (∃ t ∈ tokens.list, _))

/-- The first string among tokens stands between two offsets and has the given value; the others
are those of `tokens'`, which reading `rest` gives. -/
structure FirstString (tokens : Tokens) (start stop : Nat) (value : String) (rest : List Char)
    (tokens' : Tokens) : Prop where
  strings : tokens.strings = value :: tokens'.strings
  inString (offset : Nat) :
    tokens.InString offset ↔ start ≤ offset ∧ offset < stop ∨ tokens'.InString offset
  fault : tokens.fault = tokens'.fault
  lexes : Lexes stop rest tokens'

variable {offset : Nat} {skip text : List Char} {quote : Char} {tokens : Tokens} {t : Token}

/-- The strings of tokens, one after the other. -/
theorem strings_cons (t : Token) (tokens : Tokens) :
    strings ⟨t :: tokens.list, tokens.fault⟩ = t.string?.toList ++ tokens.strings := by
  unfold strings
  cases h : t.string? <;> simp [h]

/-- An offset is in a string of a token or in one of the others. -/
theorem inString_cons {n : Nat} :
    InString ⟨t :: tokens.list, tokens.fault⟩ n ↔
      t.string?.isSome ∧ t.offset ≤ n ∧ n < t.stop ∨ tokens.InString n := by
  simp [InString]

/-- Strings stand behind the start of the text. -/
theorem Lexes.le_offset_of_inString (h : Lexes offset text tokens) {n : Nat}
    (hn : tokens.InString n) : offset ≤ n := by
  induction h with
  | done => simp [InString] at hn
  | fault => simp [InString] at hn
  | unexpected => simp [InString] at hn
  | token hskips _ _ _ ih =>
      obtain ⟨blanks, -, -, rfl, -⟩ := hskips
      obtain ⟨-, hstart, -⟩ | hn := inString_cons.mp hn
      · exact Nat.le_trans (Nat.le_add_right _ _) hstart
      · have := ih hn
        omega

/-- A fault stands behind the start of the text. -/
theorem Lexes.le_fault (h : Lexes offset text tokens) {fault : TokenError}
    (hfault : tokens.fault = some fault) : offset ≤ fault.offset := by
  induction h with
  | done => contradiction
  | fault hskips _ hlexeme =>
      obtain ⟨blanks, -, -, rfl, -⟩ := hskips
      cases hfault
      cases hlexeme <;> simp only [TokenError.offset] <;> omega
  | unexpected hskips =>
      obtain ⟨blanks, -, -, rfl, -⟩ := hskips
      cases hfault
      exact Nat.le_add_right _ _
  | token hskips _ _ _ ih =>
      obtain ⟨blanks, -, -, rfl, -⟩ := hskips
      have := ih hfault
      omega

/-- A token that is no string may stand before the first one. -/
theorem FirstString.cons {start stop : Nat} {value : String} {rest : List Char} {tokens' : Tokens}
    (h : tokens.FirstString start stop value rest tokens') (ht : t.string? = none) :
    FirstString ⟨t :: tokens.list, tokens.fault⟩ start stop value rest tokens' where
  strings := by rw [strings_cons, ht, h.strings]; rfl
  inString := by simp [inString_cons, ht, h.inString]
  fault := h.fault
  lexes := h.lexes

/-- A part without quotes ends before the first quote. -/
theorem exists_eq_append_of_quoteless {xs ys : List Char} (hxs : ∀ c ∈ xs, ¬ isQuote c)
    (hquote : isQuote quote) (heq : skip ++ quote :: text = xs ++ ys) :
    ∃ skip', skip = xs ++ skip' ∧ ys = skip' ++ quote :: text := by
  obtain ⟨mid, rfl, hmid⟩ | ⟨mid, rfl, hmid⟩ := List.append_eq_append_iff.mp heq
  · cases mid with
    | nil => exact ⟨[], by simp, by simpa using hmid.symm⟩
    | cons c mid =>
        obtain ⟨rfl, -⟩ := List.cons.inj hmid
        exact absurd hquote (hxs _ (by simp))
  · exact ⟨mid, rfl, hmid⟩

theorem not_isQuote_of_isExpressionBlank {c : Char} (h : isExpressionBlank c) : ¬ isQuote c := by
  intro hquote
  obtain rfl | rfl := isQuote_iff.mp hquote <;> contradiction

/-- There is no string in a text without quotes. -/
theorem Lexes.string?_eq_none (h : Lexes offset text tokens) (htext : ∀ c ∈ text, ¬ isQuote c) :
    ∀ t ∈ tokens.list, t.string? = none := by
  induction h with
  | done => simp
  | fault => simp
  | unexpected => simp
  | @token offset start _ found rest p kind tokens hskips hfound hkind _ ih =>
      obtain ⟨blanks, rfl, -, -, -⟩ := hskips
      refine List.forall_mem_cons.mpr ⟨?_, ih fun c hc => htext c (by simp [hc])⟩
      cases hkind with
      | quoted =>
          obtain ⟨q, body, hq, hword, -⟩ := exists_body_of_mem_quoted hfound.mem
          exact absurd hq (htext q (by simp [hword]))
      | number => rfl
      | identifier => rfl
      | punctuation => rfl
      | operator => rfl

/-- A closed string at the first quote of a text is opened by it. -/
theorem eq_of_quoted_at_first_quote {body rest : List Char} {q : Char}
    (h : q :: (body ++ [q]) ∈ pattern quoted) (hskip : ∀ c ∈ skip, ¬ isQuote c)
    (heq : q :: (body ++ [q]) ++ rest = skip ++ quote :: text) :
    skip = [] ∧ q = quote ∧ text = body ++ quote :: rest ∧ body ∈ (bodyItem quote)∗ := by
  obtain ⟨q', body', hq, hword, hbody⟩ := exists_body_of_mem_quoted h
  obtain ⟨rfl, hbodies⟩ := List.cons.inj hword
  obtain rfl := List.append_cancel_right hbodies
  cases skip with
  | nil =>
      obtain ⟨rfl, rfl⟩ := List.cons.inj heq
      exact ⟨rfl, rfl, by simp, hbody⟩
  | cons c skip =>
      obtain ⟨rfl, -⟩ := List.cons.inj heq
      exact absurd hq (hskip _ (by simp))

/-- A string with a malformed escape does not finish, whatever stands behind it. -/
theorem not_finishes_of_malformed {body before after rest rest' : List Char}
    {items : List StringItem} (hquote : isQuote quote)
    (hfound : quoted.LongestAt (quote :: (body ++ [quote])) rest)
    (hmalformed : StringItem.Malformed body before after) :
    ¬ StringItem.Finishes quote (body ++ quote :: rest) items rest' := by
  intro hfinishes
  obtain ⟨body', heq, hbody, hspelled⟩ := hfinishes.exists_body hquote
  have hmem := mem_quoted_of_body hquote hbody
  obtain ⟨-, hfound', -⟩ := hfound.unique (longestAt_quoted hmem rest') (by simp [heq])
  obtain rfl : body = body' := by simpa using hfound'
  have hread := StringItem.read_of_spelled hspelled 0
  rw [StringItem.read_of_malformed hmalformed] at hread
  contradiction

/-- **Reading up to the first quote.**  The string that it opens is read, or reading stops before
it or because it is no string. -/
theorem Lexes.first_quote (hskip : ∀ c ∈ skip, ¬ isQuote c) (hquote : isQuote quote)
    (h : Lexes offset (skip ++ quote :: text) tokens) :
    (∃ body items rest tokens', text = body ++ quote :: rest ∧
      StringItem.Finishes quote text items rest ∧
      tokens.FirstString (offset + byteCount skip)
        (offset + byteCount skip + byteCount (quote :: (body ++ [quote])))
        (String.ofList (StringItem.decode items)) rest tokens') ∨
    (tokens.strings = [] ∧ ∃ fault, tokens.fault = some fault ∧
      (fault.offset ≤ offset + byteCount skip ∨
        ∀ items rest, ¬ StringItem.Finishes quote text items rest)) := by
  generalize hwhole : skip ++ quote :: text = whole at h
  have hblank {blanks : List Char} (hblanks : ∀ c ∈ blanks, isExpressionBlank c) :
      ∀ c ∈ blanks, ¬ isQuote c := fun c hc => not_isQuote_of_isExpressionBlank (hblanks c hc)
  induction h generalizing skip with
  | done hskips =>
      obtain ⟨blanks, rfl, hblanks, -, -⟩ := hskips
      obtain ⟨skip, -, hnil⟩ := exists_eq_append_of_quoteless (hblank hblanks) hquote hwhole
      simp at hnil
  | @token offset start _ found rest p kind tokens hskips hfound hkind hlexes ih =>
      obtain ⟨blanks, rfl, hblanks, rfl, -⟩ := hskips
      obtain ⟨skip, rfl, heq⟩ := exists_eq_append_of_quoteless (hblank hblanks) hquote hwhole
      have hskip' : ∀ c ∈ skip, ¬ isQuote c := fun c hc => hskip c (by simp [hc])
      by_cases hstring : p = quoted
      · subst hstring
        obtain @⟨q, body, items, hspelled⟩ := hkind
        obtain ⟨rfl, rfl, rfl, hbody⟩ := eq_of_quoted_at_first_quote hfound.mem hskip' heq
        rw [List.append_nil]
        refine .inl ⟨body, items, rest, tokens, rfl, .of_spelled hspelled hbody rest, ?_⟩
        exact {
          strings := strings_cons _ tokens
          inString := fun n => by
            rw [inString_cons, Token.stop, byteLength_ofList]
            simp [Token.string?]
          fault := rfl
          lexes := hlexes }
      · -- any other token stands before the quote
        have hopen : p ≠ unterminated := by
          rintro rfl
          cases hkind
        obtain ⟨skip, rfl, rfl⟩ := exists_eq_append_of_quoteless
          (fun c hc => not_isQuote_of_mem_pattern hstring hopen hfound.mem hc) hquote heq.symm
        have hnone :
            Token.string? ⟨offset + byteCount blanks, String.ofList found, kind⟩ = none := by
          cases hkind <;> first | rfl | contradiction
        have hsum : offset + byteCount (blanks ++ (found ++ skip)) =
            offset + byteCount blanks + byteCount found + byteCount skip := by
          simp [Nat.add_assoc]
        rw [hsum, strings_cons, hnone]
        obtain ⟨body, items, rest, tokens', hbody, hfinishes, hfirst⟩ | hstops :=
          ih (fun c hc => hskip' c (by simp [hc])) rfl
        · exact .inl ⟨body, items, rest, tokens', hbody, hfinishes, hfirst.cons hnone⟩
        · exact .inr hstops
  | @fault offset start _ found rest p e hskips hfound hfault =>
      obtain ⟨blanks, rfl, hblanks, rfl, -⟩ := hskips
      obtain ⟨skip, rfl, heq⟩ := exists_eq_append_of_quoteless (hblank hblanks) hquote hwhole
      refine .inr ⟨rfl, e, rfl, ?_⟩
      cases hfault with
      | unterminated => exact .inl (by simp [TokenError.offset])
      | danglingExponent => exact .inl (by simp [TokenError.offset])
      | @quoted q body before after hmalformed =>
          obtain ⟨rfl, rfl, rfl, hbody⟩ := eq_of_quoted_at_first_quote hfound.mem
            (fun c hc => hskip c (by simp [hc])) heq
          exact .inr fun items rest' => not_finishes_of_malformed hquote hfound hmalformed
  | @unexpected offset start _ rest c hskips hnone =>
      obtain ⟨blanks, rfl, hblanks, rfl, -⟩ := hskips
      obtain ⟨skip, rfl, heq⟩ := exists_eq_append_of_quoteless (hblank hblanks) hquote hwhole
      exact .inr ⟨rfl, _, rfl, .inl (by simp [TokenError.offset])⟩

end Tokens

end TemplateMigration
