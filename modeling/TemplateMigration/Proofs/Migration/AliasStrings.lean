import TemplateMigration.Proofs.Migration.AliasInStrings
import TemplateMigration.Proofs.Migration.AliasRelexing

/-!
# TemplateMigration.Proofs.Migration.AliasStrings

What removing the alias does to the strings of an expression.  It goes by the text before `vm.`, not
by the tokens, so two things can happen to a string.

* An alias in the string goes like any other, and the value changes (`'vm.x'`).
* An alias before a digit goes, what is left starts with a longer number, and reading can end in
  this number, before the string (`vm.5.e+'a'` leaves an exponent without digits).

`ExpressionTransform.strings_applied_stripAlias_iff` says that there is nothing else: the strings
are kept exactly if neither happens.  `Alias.strings_eq_iff` goes through both texts from string to
string.  What stands between strings holds no quotes, with the alias or without, so the first quote
of each text opens a string (`Tokens.Lexes.first_quote`); the values of these two strings are equal
only if the first holds no alias (`Alias.decode_eq_iff_clear_eq`); then they end at the same quote,
and the texts behind them are again a text and what is left of it.
-/

namespace TemplateMigration

open Lexeme

/-! ## Strings that are read -/

namespace Tokens

variable {offset offset' : Nat} {text rest : List Char} {tokens tokens' : Tokens}

/-- No quote stands at the fault that reading a text ends with, or behind it. -/
def QuotesRead (tokens : Tokens) (offset : Nat) (text : List Char) : Prop :=
  ∀ fault, tokens.fault = some fault → ∀ front quote back, text = front ++ quote :: back →
    isQuote quote → offset + byteCount front < fault.offset

/-- The quotes up to the end of the first string are read. -/
theorem FirstString.quotesRead_iff {start : Nat} {value : String} (part : List Char)
    (h : tokens.FirstString start (offset + byteCount part) value rest tokens') :
    tokens.QuotesRead offset (part ++ rest) ↔
      tokens'.QuotesRead (offset + byteCount part) rest := by
  unfold QuotesRead
  rw [h.fault]
  constructor
  · rintro hread fault hfault front quote back rfl hquote
    have hlt := hread fault hfault (part ++ front) quote back (by simp) hquote
    rw [byteCount_append] at hlt
    omega
  · rintro hread fault hfault front quote back htext hquote
    have hle := h.lexes.le_fault hfault
    obtain ⟨mid, rfl, hmid⟩ | ⟨mid, rfl, hmid⟩ := List.append_eq_append_iff.mp htext
    · have hlt := hread fault hfault mid quote back hmid hquote
      rw [byteCount_append]
      omega
    · cases mid with
      | nil => simpa using hread fault hfault [] quote back hmid.symm hquote
      | cons c mid =>
          have hpos := c.utf8Size_pos
          rw [byteCount_append, byteCount_cons] at hle
          omega

/-- The aliases of a text with one string in front: none is in this string, and none in another. -/
theorem FirstString.forall_not_inString_iff {before skip body rest : List Char} {quote : Char}
    {value : String} (hquote : isQuote quote)
    (h : tokens.FirstString (offset + byteCount skip)
      (offset + byteCount skip + byteCount (quote :: (body ++ [quote]))) value rest tokens') :
    (∀ n ∈ Alias.offsetsFrom offset before (skip ++ quote :: (body ++ quote :: rest)),
      ¬ tokens.InString n) ↔
    Alias.clear (quote :: (skip.reverse ++ before)) body = body ∧
      ∀ n ∈ Alias.offsetsFrom (offset + byteCount skip + byteCount (quote :: (body ++ [quote])))
        (quote :: (body.reverse ++ quote :: (skip.reverse ++ before))) rest,
        ¬ tokens'.InString n := by
  have hword := Alias.notMem_word_of_isQuote hquote
  have hstop : offset + byteCount skip + byteCount (quote :: (body ++ [quote])) =
      offset + byteCount skip + quote.utf8Size + byteCount body + quote.utf8Size := by
    simp [Nat.add_assoc]
  rw [hstop] at h ⊢
  rw [Alias.offsetsFrom_append_cons hword, Alias.offsetsFrom_append_cons hword]
  constructor
  · intro hall
    constructor
    · refine @Alias.clear_of_offsetsFrom_eq_nil _ _ (offset + byteCount skip + quote.utf8Size) ?_
      refine List.eq_nil_iff_forall_not_mem.mpr fun n hn => ?_
      have hle := Alias.le_of_mem_offsetsFrom hn
      have hlt := Alias.lt_of_mem_offsetsFrom hn
      exact hall n (by simp [hn]) ((h.inString n).mpr (.inl (by omega)))
    · intro n hn hin
      exact hall n (by simp [hn]) ((h.inString n).mpr (.inr hin))
  · rintro ⟨hbody, hrest⟩ n hn hin
    rw [Alias.offsetsFrom_of_clear_eq hbody, List.nil_append, List.mem_append] at hn
    obtain hn | hn := hn
    · have hlt := Alias.lt_of_mem_offsetsFrom hn
      obtain hin | hin := (h.inString n).mp hin
      · omega
      · have hle := h.lexes.le_offset_of_inString hin
        omega
    · have hle := Alias.le_of_mem_offsetsFrom hn
      obtain hin | hin := (h.inString n).mp hin
      · omega
      · exact hrest n hn hin

end Tokens

/-! ## The two readings -/

namespace Alias

open StringItem Tokens

variable {before text : List Char} {offset offset' : Nat} {tokens tokens' : Tokens}

/-- No alias stands in a string, and without the alias no string stands behind a fault. -/
def SparesStrings (before text : List Char) (offset offset' : Nat) (tokens tokens' : Tokens) :
    Prop :=
  (∀ n ∈ offsetsFrom offset before text, ¬ tokens.InString n) ∧
    tokens'.QuotesRead offset' (clear before text)

theorem strings_eq_iff_of_quoteless (htext : ∀ c ∈ text, ¬ isQuote c)
    (h : Lexes offset text tokens) (hout : Lexes offset' (clear before text) tokens') :
    tokens'.strings = tokens.strings ↔
      SparesStrings before text offset offset' tokens tokens' := by
  have hclear : ∀ c ∈ clear before text, ¬ isQuote c := fun c hc => htext c (mem_of_mem_clear hc)
  have hnone := h.string?_eq_none htext
  refine iff_of_true ?_ ⟨?_, ?_⟩
  · rw [strings, strings, List.filterMap_eq_nil_iff.mpr hnone,
      List.filterMap_eq_nil_iff.mpr (hout.string?_eq_none hclear)]
  · rintro n - ⟨t, ht, hsome, -⟩
    simp [hnone t ht] at hsome
  · rintro fault - front quote back hfront hquote
    exact absurd hquote (hclear quote (by simp [hfront]))

/-- One string and what stands before it: its value stays if there is no alias in it, and then the
text behind it decides. -/
theorem strings_eq_iff_of_firstString {skip body rest : List Char} {quote : Char}
    {items : List StringItem} {more : Tokens} (hquote : isQuote quote)
    (hskip : ∀ c ∈ skip, ¬ isQuote c)
    (hfinishes : Finishes quote (body ++ quote :: rest) items rest)
    (hfirst : tokens.FirstString (offset + byteCount skip)
      (offset + byteCount skip + byteCount (quote :: (body ++ [quote])))
      (String.ofList (decode items)) rest more)
    (hout : Lexes offset' (clear before (skip ++ quote :: (body ++ quote :: rest))) tokens')
    (hrest : ∀ {before : List Char} {offset' : Nat} {more' : Tokens},
      Lexes offset' (clear before rest) more' →
        (more'.strings = more.strings ↔
          SparesStrings before rest
            (offset + byteCount skip + byteCount (quote :: (body ++ [quote])))
            offset' more more')) :
    tokens'.strings = tokens.strings ↔
      SparesStrings before (skip ++ quote :: (body ++ quote :: rest)) offset offset'
        tokens tokens' := by
  have hword := notMem_word_of_isQuote hquote
  unfold SparesStrings at hrest ⊢
  rw [clear_append_cons hword] at hout ⊢
  rw [hfirst.forall_not_inString_iff hquote, hfirst.strings, and_assoc]
  -- a string without an alias stays whole
  have hwhole (hfree : clear (quote :: (skip.reverse ++ before)) body = body) :
      clear (quote :: (skip.reverse ++ before)) (body ++ quote :: rest) = body ++ quote ::
        clear (quote :: (body.reverse ++ quote :: (skip.reverse ++ before))) rest := by
    rw [clear_append_cons hword, hfree]
  obtain ⟨body', items', rest', more', hbody, hfinishes', hfirst'⟩ |
      ⟨hnil, fault, hfault, hplace⟩ :=
    hout.first_quote (fun c hc => hskip c (mem_of_mem_clear hc)) hquote
  · rw [hfirst'.strings, List.cons.injEq, String.ofList_inj,
      decode_eq_iff_clear_eq hquote hfinishes hfinishes']
    refine and_congr_right fun hfree => ?_
    rw [hwhole hfree] at hbody hfinishes' ⊢
    obtain ⟨-, rfl⟩ := (hfinishes.of_body hquote _).unique hquote hfinishes'
    obtain rfl := List.append_cancel_right hbody
    rw [hrest hfirst'.lexes]
    rw [Nat.add_assoc offset', ← byteCount_append] at hfirst' ⊢
    have hread := hfirst'.quotesRead_iff
    rw [← hread]
    simp
  · refine iff_of_false (by simp [hnil]) ?_
    rintro ⟨hfree, -, hread⟩
    rw [hwhole hfree] at hplace
    have hle := hplace.resolve_right fun hnot => hnot items _ (hfinishes.of_body hquote _)
    have hlt := hread fault hfault _ quote _ rfl hquote
    omega

/-- **The strings of a text without the alias** are the same exactly if it spares them.  The
induction goes from each string to what stands behind it. -/
theorem strings_eq_iff (h : Lexes offset text tokens) (hclean : tokens.fault = none)
    (hout : Lexes offset' (clear before text) tokens') :
    tokens'.strings = tokens.strings ↔
      SparesStrings before text offset offset' tokens tokens' := by
  induction hn : text.length using Nat.strong_induction_on
    generalizing text before offset offset' tokens tokens' with
  | _ n ih =>
      subst hn
      cases hfind : text.find? isQuote with
      | none => exact strings_eq_iff_of_quoteless (List.find?_eq_none.mp hfind) h hout
      | some quote =>
          obtain ⟨hquote, skip, text, rfl, hskip⟩ := List.find?_eq_some_iff_append.mp hfind
          have hskip : ∀ c ∈ skip, ¬ isQuote c := by simpa using hskip
          obtain ⟨body, items, rest, more, rfl, hfinishes, hfirst⟩ | ⟨-, fault, hfault, -⟩ :=
            h.first_quote hskip hquote
          · have hshorter : rest.length < (skip ++ quote :: (body ++ quote :: rest)).length := by
              simp only [List.length_append, List.length_cons]
              omega
            refine strings_eq_iff_of_firstString hquote hskip hfinishes hfirst hout fun hmore => ?_
            exact ih _ hshorter hfirst.lexes (hfirst.fault.symm.trans hclean) hmore rfl
          · rw [hclean] at hfault
            contradiction

/-- Whether a digit stands behind the alias at an offset. -/
def beforeDigit (text : List Char) (offset : Nat) : Bool :=
  ((cut? (offset + word.length) text).bind (·.2.head?)).any Char.isDigit

theorem beforeDigit_of_append {front back : List Char} {c : Char} {n : Nat}
    (htext : text = front ++ c :: back) (hplace : 0 + byteCount front = n + word.length) :
    beforeDigit text n = c.isDigit := by
  rw [beforeDigit, ← hplace, Nat.zero_add, htext, cut?_append]
  rfl

end Alias

/-! ## The strings of an expression -/

namespace ExpressionTransform

/-- What an expression transform makes of an expression. -/
def applied (t : ExpressionTransform) (expression : String) (start : Nat) : String :=
  Edit.applyAll (t.apply expression start).edits expression

theorem toList_applied_stripAlias (expression : String) (start : Nat) :
    (stripAlias.applied expression start).toList = Alias.clear [] expression.toList := by
  have hedits : (stripAlias.apply expression start).edits =
      (Alias.offsetsFrom 0 [] expression.toList).map Alias.edit := rfl
  rw [applied, Edit.applyAll, Edit.applyAll?, hedits, Alias.applyFrom?_edits]
  simp

/-- **Strings and the alias.**  Of an expression that is read without a fault, removing the alias
keeps the values of the strings exactly if no alias stands in a string, and no string stands behind
a fault of what is left.  There is no such fault if no alias stands before a digit either. -/
theorem strings_applied_stripAlias_iff (expression : String) (start : Nat)
    (hread : (Tokens.read expression).fault = none) :
    ((Tokens.read (stripAlias.applied expression start)).strings =
        (Tokens.read expression).strings ↔
      (∀ n ∈ Alias.offsets expression, ¬ (Tokens.read expression).InString n) ∧
        (Tokens.read (stripAlias.applied expression start)).QuotesRead 0
          (stripAlias.applied expression start).toList) ∧
    ((∀ n ∈ Alias.offsets expression, ¬ (Tokens.read expression).InString n ∧
        Alias.beforeDigit expression.toList n = false) →
      (Tokens.read (stripAlias.applied expression start)).fault = none ∧
        (Tokens.read (stripAlias.applied expression start)).strings =
          (Tokens.read expression).strings) := by
  have hlexes := Tokens.lexes_readFrom 0 expression.toList
  have hout := Tokens.lexes_readFrom 0 (Alias.clear [] expression.toList)
  have hiff := Alias.strings_eq_iff hlexes hread hout
  unfold Tokens.read at hread ⊢
  rw [toList_applied_stripAlias]
  refine ⟨hiff, fun hall => ?_⟩
  have hstring n (hn : n ∈ Alias.offsets expression) := (hall n hn).1
  have hclean : (Tokens.readFrom 0 (Alias.clear [] expression.toList)).fault = none := by
    refine Tokens.fault_readFrom_eq_none_iff.mpr (Alias.clean_clear hlexes hread hstring ?_)
    intro n hn front c back htext hplace
    rw [← Alias.beforeDigit_of_append htext hplace, (hall n hn).2]
    exact Bool.false_ne_true
  refine ⟨hclean, hiff.mpr ⟨hstring, ?_⟩⟩
  rintro fault hfault
  rw [hclean] at hfault
  contradiction

/-- Strings that look like the alias, or hold it behind a `//`, keep their values. -/
theorem strings_applied_stripAlias_iff_lookalikes :
    (Tokens.read "vm.f('vm', \"//vm.net\", 'it\\'s')").fault = none ∧
    stripAlias.applied "vm.f('vm', \"//vm.net\", 'it\\'s')" 0 =
      "f('vm', \"//vm.net\", 'it\\'s')" ∧
    (Tokens.read (stripAlias.applied "vm.f('vm', \"//vm.net\", 'it\\'s')" 0)).strings =
      ["vm", "//vm.net", "it's"] := by
  have hread : (Tokens.read "vm.f('vm', \"//vm.net\", 'it\\'s')").fault = none := by
    decide +kernel
  have hvalues : (Tokens.read "vm.f('vm', \"//vm.net\", 'it\\'s')").strings =
      ["vm", "//vm.net", "it's"] := by
    decide +kernel
  refine ⟨hread, by decide +kernel, ?_⟩
  rw [← hvalues]
  exact ((strings_applied_stripAlias_iff _ 0 hread).2 (by decide +kernel)).2

-- no alias stands in the string, and yet it is lost
example : (Tokens.read "vm.5.e+'a'").strings = ["a"] ∧
    (Tokens.read (stripAlias.applied "vm.5.e+'a'" 0)).strings = [] := by
  decide +kernel

/-- An alias in a string is taken out of it. -/
theorem not_forall_strings_applied_stripAlias :
    ¬ ∀ (expression : String) (start : Nat), (Tokens.read expression).fault = none →
      (Tokens.read (stripAlias.applied expression start)).strings =
        (Tokens.read expression).strings := by
  intro h
  exact absurd (h "'vm.x'" 0 (by decide +kernel)) (by decide +kernel)

end ExpressionTransform

end TemplateMigration
