import TemplateMigration.Proofs.Expression.LongestMatch
import TemplateMigration.Proofs.Expression.Spans

/-!
# TemplateMigration.Proofs.Expression.StringArguments

Arguments of filters that are written as strings.

The arguments of a filter are the tokens behind its name, each with a colon before it
(`Filter.exists_of_mem_findAll`).  Where a text goes on with a colon and a string without escapes,
the next argument is that string, and the text goes on behind it:
`Tokens.RestAt.string?_of_occursAt`.
-/

namespace TemplateMigration

/-- What starts at an offset is the beginning of what follows that offset. -/
theorem OccursAt.starts {before after part : List Char}
    (h : OccursAt (before ++ after) (byteCount before) part) : part <+: after := by
  obtain ⟨before', after', heq, hcount⟩ := h
  have hcut := cut?_append before' (part ++ after')
  rw [← List.append_assoc, ← heq, hcount, cut?_append] at hcut
  simp only [Option.some.injEq, Prod.mk.injEq] at hcut
  exact ⟨after', hcut.2.symm⟩

/-- Two parts that start at the same offset agree as far as both go. -/
theorem OccursAt.exists_append_eq {text part part' : List Char} {n : Nat}
    (h : OccursAt text n part) (h' : OccursAt text n part') :
    ∃ rest rest', part ++ rest = part' ++ rest' := by
  obtain ⟨before, after, rfl, rfl⟩ := h
  rw [List.append_assoc] at h'
  obtain ⟨after', heq⟩ := h'.starts
  exact ⟨after, after', heq.symm⟩

/-! ## Strings -/

/-- A body without escapes denotes itself. -/
theorem StringItem.decode_of_spelled {body : List Char} {items : List StringItem}
    (h : Spelled body items) (hbody : '\\' ∉ body) : decode items = body := by
  induction h with
  | nil => rfl
  | plain _ _ ih => rw [decode, ih (by simp_all)]
  | escape => simp at hbody
  | unit => simp at hbody

namespace Lexeme

/-- A body without its quote and without escapes ends with the next quote. -/
theorem closedBody?_of_notMem {quote : Char} {body : List Char} (hquote : quote ∉ body)
    (hescape : '\\' ∉ body) (rest : List Char) :
    closedBody? quote (body ++ quote :: rest) = some (body.length + 1) := by
  induction body with
  | nil => exact closedBody?_quote quote rest
  | cons c body ih =>
      rw [List.mem_cons, not_or] at hquote hescape
      rw [List.cons_append, closedBody?_plain (Ne.symm hquote.1) (Ne.symm hescape.1),
        ih hquote.2 hescape.2]
      rfl

/-- A lexeme that makes a token where such a string is written is the string. -/
theorem hasKind_of_quoted {p : Lexeme} {found rest body more : List Char} {kind : TokenKind}
    {quote : Char} (hmem : found ∈ p.pattern) (hkind : p.HasKind found kind)
    (heq : found ++ rest = quote :: (body ++ quote :: more)) (hisQuote : isQuote quote)
    (hquote : quote ∉ body) (hescape : '\\' ∉ body) :
    found = quote :: (body ++ [quote]) ∧ kind = .constant (.string (String.ofList body)) := by
  have hstart := mem_startingWith_of_mem hmem heq
  rw [startingWith, if_pos hisQuote, List.mem_cons, List.mem_singleton] at hstart
  obtain rfl | rfl := hstart
  · cases hkind with
    | @quoted quote' body' items hitems =>
        obtain ⟨_, -, hmem⟩ := mem_pattern_quoted.mp hmem
        obtain ⟨_, tail, rfl, htail, hcons⟩ := mem_one_mul.mp hmem
        obtain ⟨rfl, rfl⟩ := List.cons.inj hcons
        rw [List.cons_append] at heq
        obtain ⟨rfl, heq⟩ := List.cons.inj heq
        -- both bodies end with the first quote
        have hlength := closedBody?_append hisQuote htail rest
        rw [heq, closedBody?_of_notMem hquote hescape, Option.some.injEq] at hlength
        have hsplit : body' ++ [quote'] ++ rest = body ++ [quote'] ++ more := by simpa using heq
        obtain ⟨hbody, -⟩ := List.append_inj hsplit (by simp [← hlength])
        obtain rfl : body' = body := List.append_cancel_right hbody
        exact ⟨rfl, by rw [StringItem.decode_of_spelled hitems hescape]⟩
  · cases hkind

end Lexeme

/-- Each token of an expression is a word of a pattern, with the kind of that word. -/
theorem Tokens.Lexes.exists_hasKind {offset : Nat} {text : List Char} {tokens : Tokens} {t : Token}
    (h : Lexes offset text tokens) (ht : t ∈ tokens.list) :
    ∃ p found, found ∈ Lexeme.pattern p ∧ p.HasKind found t.kind ∧
      t.text = String.ofList found := by
  induction h with
  | done => contradiction
  | token _ hfound hkind _ ih =>
      obtain rfl | ht := List.mem_cons.mp ht
      · exact ⟨_, _, hfound.mem, hkind, rfl⟩
      · exact ih ht
  | fault => contradiction
  | unexpected => contradiction

/-- A token that stands where a string without escapes is written is that string. -/
theorem Tokens.string?_of_mem {expression : String} {t : Token}
    (ht : t ∈ (read expression).list) {rest body more : List Char} {quote : Char}
    (heq : t.text.toList ++ rest = quote :: (body ++ quote :: more))
    (hisQuote : Lexeme.isQuote quote) (hquote : quote ∉ body) (hescape : '\\' ∉ body) :
    t.text.toList = quote :: (body ++ [quote]) ∧ t.string? = some (String.ofList body) := by
  obtain ⟨p, found, hmem, hkind, htext⟩ := (lexes_readFrom 0 expression.toList).exists_hasKind ht
  rw [htext, String.toList_ofList] at heq ⊢
  obtain ⟨hfound, hvalue⟩ := Lexeme.hasKind_of_quoted hmem hkind heq hisQuote hquote hescape
  exact ⟨hfound, by rw [Token.string?, hvalue]⟩

/-! ## Arguments -/

/-- The tokens of an expression that are left at an offset. -/
structure Tokens.RestAt (expression : String) (start : Nat) (ts : List Token) : Prop where
  tokensIn : TokensIn expression.toList start ts
  mem : ∀ t ∈ ts, t ∈ (Tokens.read expression).list

namespace TokensIn

variable {text : List Char} {start : Nat} {t : Token} {ts us : List Token}

theorem of_append (h : TokensIn text start (ts ++ t :: us)) : TokensIn text t.stop us := by
  induction ts generalizing start with
  | nil => exact h.tail
  | cons u ts ih => exact ih h.tail

/-- Where a text does not go on with a blank, the next token stands. -/
theorem offset_eq {whole cs : List Char} {n : Nat} {c : Char} (h : TokensIn text start (t :: ts))
    (hwhole : OccursAt whole n text) (hc : OccursAt whole (n + start) (c :: cs))
    (hblank : ¬ isExpressionBlank c) : t.offset = start := by
  obtain ⟨⟨gap, hgap, hoffset, hoccurs⟩, -⟩ := h
  obtain ⟨rest, rest', heq⟩ := (hwhole.trans hoccurs).exists_append_eq hc
  cases gap with
  | nil => exact hoffset.symm
  | cons d gap =>
      obtain ⟨rfl, -⟩ := List.cons.inj heq
      exact absurd (hgap d List.mem_cons_self) hblank

end TokensIn

namespace Filter

/-- An argument stands behind a colon. -/
theorem exists_of_readArgs {ts args : List Token} {arg : Token}
    (h : (readArgs ts).1 = some (arg :: args)) :
    ∃ colon rest, ts = colon :: arg :: rest ∧ colon.isMark ":" = true ∧
      (readArgs rest).1 = some args := by
  unfold readArgs at h
  split at h
  · simp at h
  · split at h <;> simp at h
  · next colon found rest =>
      split at h
      · next hmark =>
          split at h
          · obtain ⟨more, hmore, heq⟩ := Option.map_eq_some_iff.mp h
            obtain ⟨rfl, rfl⟩ := List.cons.inj heq
            exact ⟨colon, rest, rfl, hmark, hmore⟩
          · simp at h
      · simp at h

theorem readArgs_suffix (ts : List Token) : (readArgs ts).2 <:+ ts := by
  fun_induction readArgs ts with
  | case1 => exact List.suffix_rfl
  | case2 t hmark => exact List.nil_suffix
  | case3 t hmark => exact List.suffix_rfl
  | case4 t arg rest hmark hoperand args rest' hread ih =>
      rw [hread] at ih
      exact ih.trans (List.suffix_append [t, arg] rest)
  | case5 t arg rest hmark hoperand => exact List.suffix_cons t (arg :: rest)
  | case6 t arg rest hmark => exact List.suffix_rfl

theorem read_suffix (ts : List Token) : (read ts).2 <:+ ts := by
  cases ts with
  | nil => exact List.suffix_rfl
  | cons name rest =>
      rw [read]
      split
      · exact (readArgs_suffix rest).trans (List.suffix_cons name rest)
      · exact List.suffix_rfl

theorem exists_of_read {ts : List Token} {f : Filter} (h : (read ts).1 = some f) :
    ∃ after, ts = f.name :: after ∧ (readArgs after).1 = some f.args := by
  cases ts with
  | nil => contradiction
  | cons name after =>
      rw [read] at h
      split at h
      · obtain ⟨args, hargs, rfl⟩ := Option.map_eq_some_iff.mp h
        exact ⟨after, rfl, hargs⟩
      · contradiction

/-- The arguments of a filter are read behind its name. -/
theorem exists_of_mem_findAfter (before : Option Token) (ts : List Token) {f : Filter}
    (h : f ∈ findAfter before ts) :
    ∃ front after, ts = front ++ f.name :: after ∧ (readArgs after).1 = some f.args := by
  fun_induction findAfter before ts with
  | case1 before => contradiction
  | case2 before t rest hmark hallows found ih =>
      obtain hfirst | hmore := List.mem_append.mp h
      · obtain ⟨after, rfl, hargs⟩ := exists_of_read (Option.mem_toList.mp hfirst)
        exact ⟨[t], after, rfl, hargs⟩
      · obtain ⟨front, after, heq, hargs⟩ := ih hmore
        obtain ⟨taken, htaken⟩ := read_suffix rest
        refine ⟨t :: (taken ++ front), after, ?_, hargs⟩
        rw [← htaken, heq]
        simp
  | case3 before t rest hmark hallows ih =>
      obtain ⟨front, after, rfl, hargs⟩ := ih h
      exact ⟨t :: front, after, rfl, hargs⟩
  | case4 before t rest hmark ih =>
      obtain ⟨front, after, rfl, hargs⟩ := ih h
      exact ⟨t :: front, after, rfl, hargs⟩

/-- The tokens behind the name of a filter, of which its arguments are read. -/
theorem exists_of_mem_findAll {expression : String} {f : Filter}
    (h : f ∈ findAll (Tokens.read expression).list) :
    ∃ ts, Tokens.RestAt expression f.name.stop ts ∧ (readArgs ts).1 = some f.args := by
  obtain ⟨front, after, heq, hargs⟩ := exists_of_mem_findAfter none _ h
  refine ⟨after, ⟨?_, ?_⟩, hargs⟩
  · have htokens := TemplateMigration.tokensIn_read expression
    rw [heq] at htokens
    exact htokens.of_append
  · intro t ht
    rw [heq]
    simp [ht]

end Filter

/-- Where a text goes on with a colon and a string without escapes, the next argument is that
string, and the text goes on behind it. -/
theorem Tokens.RestAt.string?_of_occursAt {expression : String} {start : Nat} {ts args : List Token}
    {arg : Token} (h : RestAt expression start ts)
    (hargs : (Filter.readArgs ts).1 = some (arg :: args))
    {whole body more : List Char} {n : Nat} {quote : Char}
    (hwhole : OccursAt whole n expression.toList)
    (hoccurs : OccursAt whole (n + start) (':' :: quote :: (body ++ quote :: more)))
    (hisQuote : Lexeme.isQuote quote) (hquote : quote ∉ body) (hescape : '\\' ∉ body) :
    arg.string? = some (String.ofList body) ∧ OccursAt whole (n + arg.stop) more ∧
      ∃ rest, RestAt expression arg.stop rest ∧ (Filter.readArgs rest).1 = some args := by
  obtain ⟨colon, rest, rfl, hmark, hrest⟩ := Filter.exists_of_readArgs hargs
  have hcolon : colon.text = ":" := by
    rw [Token.isMark, Bool.and_eq_true, beq_iff_eq] at hmark
    exact hmark.2
  have hcolonStop : colon.stop = start + 1 := by
    rw [Token.stop, h.tokensIn.offset_eq hwhole hoccurs (by decide), hcolon]
    rfl
  have hquoteAt : OccursAt whole (n + colon.stop) (quote :: (body ++ quote :: more)) := by
    rw [hcolonStop, ← Nat.add_assoc]
    exact hoccurs.trans ⟨[':'], [], by simp, rfl⟩
  have hblank : ¬ isExpressionBlank quote := by
    obtain rfl | rfl := Lexeme.isQuote_iff.mp hisQuote <;> decide
  have hoffset : arg.offset = colon.stop := h.tokensIn.tail.offset_eq hwhole hquoteAt hblank
  have hargAt : OccursAt whole (n + colon.stop) arg.text.toList := by
    rw [← hoffset]
    exact hwhole.trans h.tokensIn.tail.occursAt
  obtain ⟨after, after', heq⟩ := hargAt.exists_append_eq hquoteAt
  rw [List.cons_append, List.append_assoc, List.cons_append] at heq
  obtain ⟨htext, hstring⟩ :=
    string?_of_mem (h.mem arg (by simp)) heq hisQuote hquote hescape
  have hstop : n + arg.stop = n + colon.stop + byteCount (quote :: (body ++ [quote])) := by
    rw [Token.stop, hoffset, byteLength, htext, Nat.add_assoc]
  refine ⟨hstring, ?_, rest, ⟨h.tokensIn.tail.tail, fun t ht => h.mem t (by simp [ht])⟩, hrest⟩
  rw [hstop]
  exact hquoteAt.trans ⟨quote :: (body ++ [quote]), [], by simp, rfl⟩

end TemplateMigration
