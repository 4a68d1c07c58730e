import TemplateMigration.Proofs.Expression.LongestMatch
import TemplateMigration.Proofs.Expression.Spans

/-!
# TemplateMigration.Proofs.Expression.Tiling

Tokens tile an expression.

`Tokens.Tiles` says what every later offset rests on: each token is the part of the text at its
own offset, tokens follow each other, and nothing but blanks stands around them, up to the end of
the text or to the lexeme that has a fault.  Where tokens stand is `TokensIn`, read token by
token; how reading ends follows the relation `Tokens.Lexes`.
-/

namespace TemplateMigration

/-- The characters that are skipped between tokens. -/
def blankChars : List Char := [' ', '\t', '\r', '\n', '\x0b', '\u00a0']

/-- Nothing but blanks stands between two offsets of a text. -/
def BlankBetween (text : List Char) (start stop : Nat) : Prop :=
  ∃ gap, OccursAt text start gap ∧ start + byteCount gap = stop ∧ ∀ c ∈ gap, c ∈ blankChars

theorem isExpressionBlank_iff {c : Char} : isExpressionBlank c ↔ c ∈ blankChars := by
  simp only [isExpressionBlank, blankChars, Bool.or_eq_true, beq_iff_eq, List.mem_cons,
    List.not_mem_nil, or_false]
  tauto

/-- The place of a fault in the lexeme that has it: at the start of the lexeme, except for a
malformed escape, which lies between the quotes of a string. -/
def TokenError.PlacedIn : TokenError → Nat → List Char → Prop
  | unterminatedQuote offset, start, lexeme =>
      lexeme ∈ Lexeme.pattern .unterminated ∧ offset = start
  | invalidUnicodeEscape offset _, start, lexeme =>
      lexeme ∈ Lexeme.pattern .quoted ∧ start < offset ∧ offset < start + byteCount lexeme
  | invalidExponent offset, start, lexeme =>
      lexeme ∈ Lexeme.pattern .danglingExponent ∧ offset = start
  | unexpectedCharacter offset c, start, lexeme => lexeme = [c] ∧ offset = start

namespace Tokens

/-- Where the last of some tokens ends, or the given start. -/
def lastStop (start : Nat) (ts : List Token) : Nat := (ts.getLast?.map Token.stop).getD start

/-- Reading ends at an offset: at the end of the text, or at the lexeme that has the fault. -/
def EndsAt (text : List Char) (start : Nat) : Option TokenError → Prop
  | none => start = byteCount text
  | some e => ∃ lexeme, OccursAt text start lexeme ∧ e.PlacedIn start lexeme

/-- Tokens tile a text as far as it is read. -/
structure Tiles (text : List Char) (tokens : Tokens) : Prop where
  nonempty : ∀ t ∈ tokens.list, t.text ≠ ""
  occurs : ∀ t ∈ tokens.list, OccursAt text t.offset t.text.toList
  ordered : tokens.list.Pairwise fun t u => t.stop ≤ u.offset
  first : ∀ t ∈ tokens.list.head?, BlankBetween text 0 t.offset
  between : tokens.list.IsChain fun t u => BlankBetween text t.stop u.offset
  ends : ∃ start, BlankBetween text (lastStop 0 tokens.list) start ∧ EndsAt text start tokens.fault

end Tokens

/-! ## Where tokens stand -/

namespace TokensIn

variable {text : List Char} {start : Nat} {t : Token} {ts : List Token}

theorem blankBetween (h : TokensIn text start (t :: ts)) : BlankBetween text start t.offset := by
  obtain ⟨⟨gap, hgap, hoffset, before, after, htext, hbefore⟩, -⟩ := h
  exact ⟨gap, ⟨before, t.text.toList ++ after, by simp [htext], hbefore⟩, hoffset,
    fun c hc => isExpressionBlank_iff.mp (hgap c hc)⟩

theorem blankBetween_head (h : TokensIn text start ts) :
    ∀ t ∈ ts.head?, BlankBetween text start t.offset := by
  cases ts with
  | nil => simp
  | cons t ts =>
      rintro _ ⟨⟩
      exact h.blankBetween

theorem isChain (h : TokensIn text start ts) :
    ts.IsChain fun t u => BlankBetween text t.stop u.offset := by
  induction ts generalizing start with
  | nil => exact .nil
  | cons t ts ih =>
      cases ts with
      | nil => exact .singleton t
      | cons u ts => exact .cons_cons h.tail.blankBetween (ih h.tail)

theorem le_offset_of_mem (h : TokensIn text start ts) (ht : t ∈ ts) : start ≤ t.offset := by
  induction ts generalizing start with
  | nil => contradiction
  | cons u ts ih =>
      obtain rfl | ht := List.mem_cons.mp ht
      · exact h.le_offset
      · exact Nat.le_trans h.le_stop (ih h.tail ht)

theorem pairwise (h : TokensIn text start ts) : ts.Pairwise fun t u => t.stop ≤ u.offset := by
  induction ts generalizing start with
  | nil => exact .nil
  | cons t ts ih =>
      exact List.pairwise_cons.mpr ⟨fun u hu => h.tail.le_offset_of_mem hu, ih h.tail⟩

end TokensIn

/-! ## How reading ends -/

namespace Lexeme

/-- A fault is placed in the lexeme that has it. -/
theorem HasFault.placedIn {start : Nat} {p : Lexeme} {found : List Char} {e : TokenError}
    (h : HasFault start p found e) (hfound : found ∈ p.pattern) : e.PlacedIn start found := by
  cases h with
  | unterminated => exact ⟨hfound, rfl⟩
  | danglingExponent => exact ⟨hfound, rfl⟩
  | @quoted quote body before after hbody =>
      obtain ⟨rfl, -⟩ := hbody
      have hescape : '\\'.utf8Size = 1 := rfl
      refine ⟨hfound, by omega, ?_⟩
      simp only [byteCount_cons, byteCount_append, hescape]
      have hquote := quote.utf8Size_pos
      omega

end Lexeme

namespace Tokens

theorem lastStop_cons (start : Nat) (t : Token) (ts : List Token) :
    lastStop start (t :: ts) = lastStop t.stop ts := by
  rw [lastStop, lastStop, List.getLast?_cons]
  cases ts.getLast? <;> rfl

/-- The blanks that are skipped from an offset on. -/
theorem Skips.blankBetween {before text rest : List Char} {start : Nat}
    (h : Skips (byteCount before) text start rest) :
    ∃ front, before ++ text = front ++ rest ∧ byteCount front = start ∧
      BlankBetween (before ++ text) (byteCount before) start := by
  obtain ⟨blanks, rfl, hblanks, rfl, -⟩ := h
  refine ⟨before ++ blanks, by simp, by simp, blanks, ⟨before, rest, by simp, rfl⟩, rfl, ?_⟩
  exact fun c hc => isExpressionBlank_iff.mp (hblanks c hc)

/-- After the last token stand blanks up to where reading ends.  The induction follows the tokens;
`before` is what stands before the text that is left. -/
theorem Lexes.endsAt {offset : Nat} {text : List Char} {tokens : Tokens}
    (h : Lexes offset text tokens) (before : List Char) (hbefore : byteCount before = offset) :
    ∃ start, BlankBetween (before ++ text) (lastStop offset tokens.list) start ∧
      EndsAt (before ++ text) start tokens.fault := by
  induction h generalizing before with
  | done hskips =>
      subst hbefore
      obtain ⟨front, heq, rfl, hblank⟩ := hskips.blankBetween
      exact ⟨_, hblank, by rw [EndsAt, heq, List.append_nil]⟩
  | @token offset start text found rest p kind tokens hskips hfound hkind _ ih =>
      subst hbefore
      obtain ⟨front, heq, rfl, -⟩ := hskips.blankBetween
      have hstop : byteCount (front ++ found) = byteCount front + byteCount found := by simp
      have hends := ih (front ++ found) hstop
      rw [List.append_assoc, ← heq] at hends
      rw [lastStop_cons, Token.stop, byteLength_ofList]
      exact hends
  | @fault offset start text found rest p e hskips hfound hfault =>
      subst hbefore
      obtain ⟨front, heq, rfl, hblank⟩ := hskips.blankBetween
      refine ⟨_, hblank, found, ⟨front, rest, ?_, rfl⟩, hfault.placedIn hfound.mem⟩
      rw [heq, List.append_assoc]
  | @unexpected offset start text rest c hskips _ =>
      subst hbefore
      obtain ⟨front, heq, rfl, hblank⟩ := hskips.blankBetween
      refine ⟨_, hblank, [c], ⟨front, rest, ?_, rfl⟩, rfl, rfl⟩
      rw [heq, List.append_assoc, List.singleton_append]

/-- The tokens of an expression tile it: nonempty parts at their own offsets, one after the other,
with nothing but blanks around them up to the end or to the lexeme that has the fault. -/
theorem tiles_read (expression : String) : (read expression).Tiles expression.toList := by
  have htokens := tokensIn_read expression
  exact {
    nonempty := fun t ht hempty => by
      have hpos := htokens.byteLength_pos_of_mem ht
      rw [hempty] at hpos
      contradiction
    occurs := fun t ht => htokens.occursAt_of_mem ht
    ordered := htokens.pairwise
    first := htokens.blankBetween_head
    between := htokens.isChain
    ends := (lexes_readFrom 0 expression.toList).endsAt [] rfl }

end Tokens

end TemplateMigration
