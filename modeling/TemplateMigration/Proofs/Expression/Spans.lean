import TemplateMigration.Expression.Filter
import TemplateMigration.Proofs.Expression.Pattern
import TemplateMigration.Proofs.Text.Boundary

/-!
# TemplateMigration.Proofs.Expression.Spans

Where tokens and filters stand in an expression.

Tokens tile the text up to the first fault: each is a nonempty part at its own offset, and nothing
but blanks stands before it (`tokensIn_read`).  Filters are made of neighbouring tokens, so their
ranges are nonempty, end at boundaries and follow each other without overlap (`filtersIn_findAll`).
-/

namespace TemplateMigration

/-! ## Lexemes -/

namespace Lexeme

/-- A closed string is its body between two equal quotes. -/
theorem take_longest?_quoted {cs : List Char} {n : Nat} (h : longest? cs = some (.quoted, n)) :
    ∃ quote body, isQuote quote ∧ cs.take n = quote :: (body ++ [quote]) := by
  have hmatch := matchLength?_of_longest? h
  obtain ⟨word, rest, rfl, rfl, hword⟩ := (measures_matchLength? quoted).mem hmatch
  obtain ⟨quote, body, hquote, rfl, -⟩ := exists_body_of_mem_quoted hword
  exact ⟨quote, body, hquote, List.take_left⟩

end Lexeme

/-! ## Tokens -/

/-- A token keeps the text and the offset of its lexeme. -/
theorem Token.of_ofLexeme {lexeme : Lexeme} {offset : Nat} {text : List Char} {t : Token}
    (h : Token.ofLexeme lexeme offset text = .ok t) :
    t.offset = offset ∧ t.text = String.ofList text := by
  cases lexeme with
  | quoted =>
      rw [ofLexeme] at h
      cases hdecode : decodeString (offset + 1) (text.drop 1).dropLast with
      | error e => rw [hdecode] at h; contradiction
      | ok s =>
          rw [hdecode] at h
          cases h
          exact ⟨rfl, rfl⟩
  | unterminated => contradiction
  | danglingExponent => contradiction
  | number => cases h; exact ⟨rfl, rfl⟩
  | identifier => cases h; exact ⟨rfl, rfl⟩
  | punctuation => cases h; exact ⟨rfl, rfl⟩
  | operator => cases h; exact ⟨rfl, rfl⟩

/-- Tokens that follow each other in a text from an offset on, with blanks before each. -/
def TokensIn (text : List Char) : Nat → List Token → Prop
  | _, [] => True
  | start, t :: ts =>
      (∃ gap, (∀ c ∈ gap, isExpressionBlank c) ∧ start + byteCount gap = t.offset ∧
        OccursAt text start (gap ++ t.text.toList)) ∧
      0 < byteLength t.text ∧ TokensIn text t.stop ts

namespace TokensIn

variable {text : List Char} {start : Nat} {t : Token} {ts : List Token}

theorem occursAt (h : TokensIn text start (t :: ts)) : OccursAt text t.offset t.text.toList := by
  obtain ⟨⟨gap, -, hoffset, before, after, htext, hbefore⟩, -⟩ := h
  exact ⟨before ++ gap, after, by simp [htext], by rw [byteCount_append, hbefore, hoffset]⟩

theorem le_offset (h : TokensIn text start (t :: ts)) : start ≤ t.offset := by
  obtain ⟨⟨gap, -, hoffset, -⟩, -⟩ := h
  omega

theorem offset_lt_stop (h : TokensIn text start (t :: ts)) : t.offset < t.stop :=
  Nat.lt_add_of_pos_right h.2.1

theorem le_stop (h : TokensIn text start (t :: ts)) : start ≤ t.stop :=
  Nat.le_trans h.le_offset (Nat.le_of_lt h.offset_lt_stop)

theorem isBoundary_stop (h : TokensIn text start (t :: ts)) : IsBoundary text t.stop :=
  h.occursAt.isBoundary_stop

theorem tail (h : TokensIn text start (t :: ts)) : TokensIn text t.stop ts := h.2.2

/-- Every token of a text is the first one from some offset on. -/
theorem exists_cons_of_mem (h : TokensIn text start ts) (ht : t ∈ ts) :
    ∃ offset us, TokensIn text offset (t :: us) := by
  induction ts generalizing start with
  | nil => contradiction
  | cons u ts ih =>
      obtain rfl | ht := List.mem_cons.mp ht
      · exact ⟨start, ts, h⟩
      · exact ih h.tail ht

/-- A token of a text stands in the text. -/
theorem occursAt_of_mem (h : TokensIn text start ts) (ht : t ∈ ts) :
    OccursAt text t.offset t.text.toList :=
  have ⟨_, _, hcons⟩ := h.exists_cons_of_mem ht
  hcons.occursAt

/-- A token of a text is not empty. -/
theorem byteLength_pos_of_mem (h : TokensIn text start ts) (ht : t ∈ ts) :
    0 < byteLength t.text :=
  have ⟨_, _, hcons⟩ := h.exists_cons_of_mem ht
  hcons.2.1

/-- One more blank before the first token. -/
theorem cons_blank {c : Char} {before cs : List Char} (htext : text = before ++ c :: cs)
    (hbefore : byteCount before = start) (hblank : isExpressionBlank c)
    (h : TokensIn text (start + c.utf8Size) ts) : TokensIn text start ts := by
  cases ts with
  | nil => trivial
  | cons t ts =>
      obtain ⟨⟨gap, hgap, hoffset, hoccurs⟩, hpos, hrest⟩ := h
      obtain ⟨front, after, hfront, hcount⟩ := hoccurs
      have hsame : before ++ [c] = front ∧ cs = gap ++ t.text.toList ++ after := by
        have hcut := cut?_append front (gap ++ t.text.toList ++ after)
        have hcut' := cut?_append (before ++ [c]) cs
        have hsize : byteCount (before ++ [c]) = byteCount front := by
          simp [hcount, hbefore]
        have heq : before ++ [c] ++ cs = front ++ (gap ++ t.text.toList ++ after) := by
          rw [← List.append_assoc, ← hfront, htext, List.append_assoc, List.singleton_append]
        rw [hsize, heq, hcut] at hcut'
        simpa [eq_comm] using hcut'
      refine ⟨⟨c :: gap, ?_, ?_, before, after, ?_, hbefore⟩, hpos, hrest⟩
      · simpa [hblank] using hgap
      · rw [byteCount_cons, ← hoffset, Nat.add_assoc]
      · rw [htext, hsame.2]
        simp

end TokensIn

/-- The induction follows the reader: `before` is what it has passed. -/
theorem tokensIn_readFrom {text : List Char} (offset : Nat) (cs before : List Char)
    (htext : text = before ++ cs) (hbefore : byteCount before = offset) :
    TokensIn text offset (Tokens.readFrom offset cs).list := by
  fun_induction Tokens.readFrom offset cs generalizing before with
  | case1 => trivial
  | case2 offset c cs hblank ih =>
      refine TokensIn.cons_blank htext hbefore hblank (ih (before ++ [c]) ?_ ?_)
      · rw [htext, List.append_assoc, List.singleton_append]
      · simp [hbefore]
  | case3 => trivial
  | case4 => trivial
  | case5 offset c cs _ lexeme n hlongest found token htoken rest ih =>
      obtain ⟨hoffset, htokenText⟩ := Token.of_ofLexeme htoken
      have hn : 0 < n := Lexeme.pos_of_longest? hlongest
      have hsplit : c :: cs = found ++ (c :: cs).drop n := (List.take_append_drop n _).symm
      have htokenList : token.text.toList = found := by rw [htokenText, String.toList_ofList]
      have hfound : 0 < byteLength token.text := by
        rw [byteLength, htokenList, Nat.pos_iff_ne_zero, Ne, byteCount_eq_zero_iff]
        simp only [found, List.take_eq_nil_iff, reduceCtorEq, or_false]
        omega
      have hstop : token.stop = offset + byteCount found := by
        rw [Token.stop, hoffset, byteLength, htokenList]
      refine ⟨⟨[], by simp, by rw [hoffset]; rfl, before, (c :: cs).drop n, ?_, hbefore⟩, hfound,
        ?_⟩
      · rw [htext, htokenList, List.nil_append, List.append_assoc, ← hsplit]
      · rw [hstop]
        refine ih (before ++ found) ?_ ?_
        · rw [htext, List.append_assoc, ← hsplit]
        · rw [byteCount_append, hbefore]

/-- The tokens of an expression follow each other from its start on. -/
theorem tokensIn_read (expression : String) :
    TokensIn expression.toList 0 (Tokens.read expression).list :=
  tokensIn_readFrom 0 _ [] rfl rfl

/-! ## Filters -/

/-- Filters whose ranges follow each other in a text from an offset on. -/
def FiltersIn (text : List Char) : Nat → List Filter → Prop
  | _, [] => True
  | start, f :: fs =>
      start ≤ f.start ∧ f.start < f.stop ∧ IsBoundary text f.start ∧ IsBoundary text f.stop ∧
        FiltersIn text f.stop fs

theorem FiltersIn.mono {text : List Char} {start start' : Nat} {fs : List Filter}
    (h : FiltersIn text start fs) (hle : start' ≤ start) : FiltersIn text start' fs := by
  cases fs with
  | nil => trivial
  | cons f fs => exact ⟨Nat.le_trans hle h.1, h.2⟩

namespace Filter

variable {text : List Char}

/-- A token and the arguments read after it end at a boundary, no later than an offset. -/
def EndsBy (text : List Char) (name : Token) (args : List Token) (stop : Nat) : Prop :=
  name.stop ≤ (args.getLast?.getD name).stop ∧ (args.getLast?.getD name).stop ≤ stop ∧
    IsBoundary text (args.getLast?.getD name).stop

theorem endsBy_nil {name : Token} (h : IsBoundary text name.stop) :
    ∀ args, some [] = some args → EndsBy text name args name.stop := by
  rintro args ⟨⟩
  exact ⟨Nat.le_refl _, Nat.le_refl _, h⟩

/-- Arguments end no later than where the rest starts. -/
theorem tokensIn_readArgs (name : Token) (ts : List Token) (hname : IsBoundary text name.stop)
    (h : TokensIn text name.stop ts) :
    ∃ stop, name.stop ≤ stop ∧ TokensIn text stop (readArgs ts).2 ∧
      ∀ args, (readArgs ts).1 = some args → EndsBy text name args stop := by
  fun_induction readArgs ts generalizing name with
  | case1 => exact ⟨name.stop, Nat.le_refl _, h, endsBy_nil hname⟩
  | case2 t =>
      refine ⟨name.stop, Nat.le_refl _, trivial, ?_⟩
      intro args hargs
      contradiction
  | case3 t => exact ⟨name.stop, Nat.le_refl _, h, endsBy_nil hname⟩
  | case4 t arg rest _ _ args after hread ih =>
      have harg : TokensIn text t.stop (arg :: rest) := h.tail
      have hle : name.stop ≤ arg.stop := Nat.le_trans h.le_stop harg.le_stop
      obtain ⟨stop, hstop, hrest, hlast⟩ := ih arg harg.isBoundary_stop harg.tail
      rw [hread] at hrest hlast
      refine ⟨stop, Nat.le_trans hle hstop, hrest, ?_⟩
      intro found hfound
      obtain ⟨more, hmore, rfl⟩ := Option.map_eq_some_iff.mp hfound
      obtain ⟨hge, hbound⟩ := hlast more hmore
      rw [EndsBy, List.getLast?_cons, Option.getD_some]
      exact ⟨Nat.le_trans hle hge, hbound⟩
  | case5 t arg rest =>
      refine ⟨t.stop, h.le_stop, h.tail, ?_⟩
      intro args hargs
      contradiction
  | case6 t arg rest => exact ⟨name.stop, Nat.le_refl _, h, endsBy_nil hname⟩

/-- A filter spans its tokens. -/
theorem tokensIn_read {start : Nat} {ts : List Token} (h : TokensIn text start ts) :
    ∃ stop, start ≤ stop ∧ TokensIn text stop (read ts).2 ∧
      ∀ f, (read ts).1 = some f → start ≤ f.start ∧ f.start < f.stop ∧ f.stop ≤ stop ∧
        IsBoundary text f.start ∧ IsBoundary text f.stop := by
  cases ts with
  | nil =>
      refine ⟨start, Nat.le_refl _, trivial, ?_⟩
      intro f hf
      contradiction
  | cons name rest =>
      rw [read]
      split
      · obtain ⟨stop, hstop, hrest, hlast⟩ :=
          tokensIn_readArgs name rest h.isBoundary_stop h.tail
        refine ⟨stop, Nat.le_trans h.le_stop hstop, hrest, ?_⟩
        intro f hf
        obtain ⟨args, hargs, rfl⟩ := Option.map_eq_some_iff.mp hf
        obtain ⟨hge, hle, hboundary⟩ := hlast args hargs
        have hlt : name.offset < (Filter.mk name args).stop :=
          Nat.lt_of_lt_of_le h.offset_lt_stop hge
        exact ⟨h.le_offset, hlt, hle, h.occursAt.isBoundary_start, hboundary⟩
      · refine ⟨start, Nat.le_refl _, h, ?_⟩
        intro f hf
        contradiction

/-- The filters of tokens stand where the tokens do. -/
theorem filtersIn_findAfter (before : Option Token) (ts : List Token) (start : Nat)
    (h : TokensIn text start ts) : FiltersIn text start (findAfter before ts) := by
  fun_induction findAfter before ts generalizing start with
  | case1 => trivial
  | case2 before t rest _ _ found ih =>
      obtain ⟨stop, hstop, hrest, hfound⟩ := tokensIn_read h.tail
      have hle : start ≤ stop := Nat.le_trans h.le_stop hstop
      have hmore : FiltersIn text stop (findAfter before found.2) := ih stop hrest
      cases hf : found.1 with
      | none => exact hmore.mono hle
      | some f =>
          obtain ⟨hstart, hlt, hfstop, hleft, hright⟩ := hfound f hf
          exact ⟨Nat.le_trans h.le_stop hstart, hlt, hleft, hright, hmore.mono hfstop⟩
  | case3 before t rest _ _ ih => exact (ih t.stop h.tail).mono h.le_stop
  | case4 before t rest _ ih => exact (ih t.stop h.tail).mono h.le_stop

/-- The filters of an expression follow each other in it. -/
theorem filtersIn_findAll (expression : String) :
    FiltersIn expression.toList 0 (findAll (Tokens.read expression).list) :=
  filtersIn_findAfter none _ 0 (TemplateMigration.tokensIn_read expression)

end Filter

end TemplateMigration
