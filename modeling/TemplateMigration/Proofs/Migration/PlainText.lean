import TemplateMigration.Proofs.Expression.PipeText
import TemplateMigration.Proofs.Markup.Exchange
import TemplateMigration.Proofs.Migration.Rewriting

/-!
# TemplateMigration.Proofs.Migration.PlainText

Text stays text.

A `<` of a text is no markup because of the one or two characters behind it.  Every edit of a text
starts at a letter (the name of a filter, or the alias), so it does not stand right behind a `<` or
a `</`, and what it puts there ends neither in `<` nor in `</`.  So the migration makes no markup of
text: `textReads_newText`.
-/

namespace TemplateMigration

/-! ## Edits of text -/

/-- An edit of a text that leaves it text: it starts at a letter, and what it puts there is text
before anything. -/
structure Edit.KeepsText (text : List Char) (e : Edit) : Prop where
  letter : ∃ c, c.isAlpha = true ∧ OccursAt text e.offset [c]
  new : ∀ rest, TextReads rest e.replacement.toList

/-- Edits that leave text text. -/
theorem textReads_of_applyFrom? {text before part out : List Char} {offset : Nat} {es : List Edit}
    (htext : text = before ++ part) (hbefore : byteCount before = offset)
    (h : Edit.applyFrom? offset part es = some out) (hpart : TextReads [] part)
    (hes : ∀ e ∈ es, e.KeepsText text) : TextReads [] out := by
  induction es generalizing before offset part out with
  | nil =>
      obtain rfl : part = out := Option.some.inj h
      exact hpart
  | cons e es ih =>
      obtain ⟨front, gone, after, tail, rfl, hfront, hgone, htail, rfl⟩ :=
        Edit.exists_of_applyFrom?_cons h
      obtain ⟨⟨c, hc, before', after', hoccurs, hbefore'⟩, hnew⟩ := hes e (by simp)
      -- the letter at which the edit starts stands right behind the front
      have hletter : gone ++ after = c :: after' := by
        have hcut : cut? e.offset text = some (before ++ front, gone ++ after) :=
          cut?_eq_some_iff.mpr ⟨by simp [htext], by simp [hbefore, hfront]⟩
        have hcut' : cut? e.offset text = some (before', c :: after') :=
          cut?_eq_some_iff.mpr ⟨by simpa using hoccurs, hbefore'⟩
        rw [hcut] at hcut'
        exact (Prod.mk.inj (Option.some.inj hcut')).2
      rw [List.append_assoc, textReads_append, List.append_nil, hletter] at hpart
      have hfrontText :=
        hpart.1.of_not_endsOpen (hpart.1.not_endsOpen hc) (e.replacement.toList ++ tail)
      have hafter : TextReads [] after := by
        rw [← hletter, textReads_append] at hpart
        exact hpart.2.2
      have htailText := ih (by simp [htext] : text = (before ++ front ++ gone) ++ after)
        (by simp [Edit.stop, hbefore, hgone, ← hfront, Nat.add_assoc]) htail hafter
        (fun d hd => hes d (List.mem_cons_of_mem _ hd))
      rw [List.append_assoc, textReads_append, textReads_append, List.append_nil, List.append_nil]
      exact ⟨hfrontText, hnew tail, htailText⟩

/-! ## Operands -/

namespace Lexeme

theorem mem_of_isExponentMark {c : Char} (h : isExponentMark c) :
    c ∈ ['.', 'e', 'E', '+', '-'] := by
  have hmarks := isExponentMark_iff.mp h
  simp only [List.mem_cons, List.not_mem_nil, or_false] at hmarks ⊢
  tauto

theorem mem_of_isSign {c : Char} (h : isSign c) : c ∈ ['.', 'e', 'E', '+', '-'] := by
  have hmarks := isSign_iff.mp h
  simp only [List.mem_cons, List.not_mem_nil, or_false] at hmarks ⊢
  tauto

/-- The characters of a number. -/
theorem mem_of_mem_number {word : List Char} (h : word ∈ pattern number) {c : Char}
    (hc : c ∈ word) :
    c.isDigit = true ∨ c ∈ ['.', 'e', 'E', '+', '-'] := by
  have hdigits : ∀ {ds}, ds ∈ someDigits → ∀ d ∈ ds, d.isDigit = true := fun hds =>
    (mem_someDigits.mp hds).2
  obtain ⟨m, hm, e, he, rfl⟩ := Language.mem_mul.mp h
  obtain hc | hc := List.mem_append.mp hc
  · obtain hds | ⟨ds, es, hds, hes, -, rfl⟩ := mem_mantissa.mp hm
    · exact .inl (hdigits hds c hc)
    · obtain hc | hc := List.mem_append.mp hc
      · exact .inl (hds c hc)
      · obtain rfl | hc := List.mem_cons.mp hc
        · exact .inr (by simp)
        · exact .inl (hes c hc)
  · obtain rfl | he := (Language.mem_add _ _ _).mp he
    · contradiction
    · obtain ⟨x, ds, hx, hds, rfl | ⟨s, hs, rfl⟩⟩ := mem_exponentPart.mp he
      · obtain rfl | hc := List.mem_cons.mp hc
        · exact .inr (mem_of_isExponentMark hx)
        · exact .inl (hdigits hds c hc)
      · obtain rfl | hc := List.mem_cons.mp hc
        · exact .inr (mem_of_isExponentMark hx)
        · obtain rfl | hc := List.mem_cons.mp hc
          · exact .inr (mem_of_isSign hs)
          · exact .inl (hdigits hds c hc)

/-- The characters of an identifier. -/
theorem mem_of_mem_identifier {word : List Char} (h : word ∈ pattern identifier) {c : Char}
    (hc : c ∈ word) : c.isAlpha = true ∨ c.isDigit = true ∨ c = '_' ∨ c = '$' := by
  obtain ⟨x, rest, hx, hrest, rfl⟩ := mem_one_mul.mp h
  obtain rfl | hc := List.mem_cons.mp hc
  · exact hx.imp_right .inr
  · exact mem_kstar_one.mp hrest c hc

/-- An operand does not end in `<` or `/`. -/
theorem ne_of_getLast? {lexeme : Lexeme} {cs : List Char} {n offset : Nat} {token : Token}
    (hlongest : longest? cs = some (lexeme, n))
    (htoken : Token.ofLexeme lexeme offset (cs.take n) = .ok token)
    (hoperand : token.isOperand = true) {c : Char} (hc : (cs.take n).getLast? = some c) :
    c ≠ '<' ∧ c ≠ '/' := by
  have hmem : c ∈ cs.take n := List.mem_of_getLast? hc
  have hword : ∃ word, cs.take n = word ∧ word ∈ pattern lexeme := by
    obtain ⟨word, rest, rfl, rfl, hword⟩ :=
      (measures_matchLength? lexeme).mem (matchLength?_of_longest? hlongest)
    exact ⟨word, List.take_left, hword⟩
  obtain ⟨word, htake, hword⟩ := hword
  cases lexeme with
  | quoted =>
      obtain ⟨quote, body, hquote, htake⟩ := take_longest?_quoted hlongest
      rw [htake, ← List.cons_append, List.getLast?_concat] at hc
      obtain rfl := Option.some.inj hc
      constructor
      · rintro rfl
        contradiction
      · rintro rfl
        contradiction
  | number =>
      obtain hdigit | hmark := mem_of_mem_number hword (htake ▸ hmem)
      · constructor
        · rintro rfl
          contradiction
        · rintro rfl
          contradiction
      · simp only [List.mem_cons, List.not_mem_nil, or_false] at hmark
        obtain rfl | rfl | rfl | rfl | rfl := hmark <;> decide
  | identifier =>
      obtain halpha | hdigit | rfl | rfl := mem_of_mem_identifier hword (htake ▸ hmem)
      · constructor
        · rintro rfl
          contradiction
        · rintro rfl
          contradiction
      · constructor
        · rintro rfl
          contradiction
        · rintro rfl
          contradiction
      · decide
      · decide
  | punctuation =>
      cases htoken
      contradiction
  | operator =>
      cases htoken
      contradiction
  | unterminated => contradiction
  | danglingExponent => contradiction

end Lexeme

/-- An operand does not end openly. -/
theorem Tokens.not_endsOpen_of_mem (offset : Nat) (cs : List Char) {t : Token}
    (ht : t ∈ (readFrom offset cs).list) (hoperand : t.isOperand = true) :
    t.text.toList ≠ [] ∧ ¬ EndsOpen t.text.toList := by
  fun_induction readFrom offset cs with
  | case1 => contradiction
  | case2 offset c cs hblank ih => exact ih ht
  | case3 => contradiction
  | case4 => contradiction
  | case5 offset c cs hblank lexeme n hlongest found token htoken rest ih =>
      obtain rfl | ht := List.mem_cons.mp ht
      · have hpos : 0 < n := Lexeme.pos_of_longest? hlongest
        have hne : found ≠ [] := by simp [found, Nat.ne_of_gt hpos]
        have hlast := List.getLast?_eq_some_getLast hne
        obtain ⟨hlt, hslash⟩ := Lexeme.ne_of_getLast? hlongest htoken hoperand hlast
        rw [(Token.of_ofLexeme htoken).2, String.toList_ofList]
        exact ⟨hne, not_endsOpen_of_getLast? hlast hlt hslash⟩
      · exact ih ht

/-! ## Edits of the built-in rules -/

theorem OccursAt.head {text cs : List Char} {c : Char} {offset : Nat}
    (h : OccursAt text offset (c :: cs)) : OccursAt text offset [c] := by
  obtain ⟨before, after, rfl, hbefore⟩ := h
  exact ⟨before, cs ++ after, by simp, hbefore⟩

/-- Text that is text before anything. -/
def AlwaysText (cs : List Char) : Prop := ∀ rest, TextReads rest cs

namespace AlwaysText

theorem of_lt_notMem {cs : List Char} (h : '<' ∉ cs) : AlwaysText cs := by
  intro rest
  induction cs with
  | nil => trivial
  | cons c cs ih =>
      rw [List.mem_cons, not_or] at h
      exact ⟨fun hc => absurd hc.symm h.1, ih h.2⟩

theorem append {xs ys : List Char} (hxs : AlwaysText xs) (hys : AlwaysText ys) :
    AlwaysText (xs ++ ys) := fun rest => textReads_append.mpr ⟨hxs _, hys rest⟩

end AlwaysText

/-- What replaces a filter is text before anything, if its arguments are. -/
theorem PipeForm.alwaysText {args : List Token} {new : String} (h : PipeForm args new)
    (hargs : ∀ t ∈ args, AlwaysText t.text.toList) : AlwaysText new.toList := by
  cases h with
  | all => exact .of_lt_notMem (by decide)
  | slice heq =>
      simp only [String.toList_append]
      refine .append (.append (.append ?_ ?_) ?_) ?_
      · exact .of_lt_notMem (by decide)
      · exact hargs _ (by simp [heq])
      · exact .of_lt_notMem (by decide)
      · exact hargs _ (by simp [heq])
  | symbol heq =>
      rw [String.toList_append]
      exact .append (.of_lt_notMem (by decide)) (hargs _ (by simp [heq]))
  | digits heq hn =>
      rw [String.toList_append]
      refine .append (.of_lt_notMem (by decide)) (.of_lt_notMem ?_)
      intro hlt
      rw [Nat.toString_eq_repr, Nat.toList_repr] at hlt
      have := Nat.isDigit_of_mem_toDigits (by decide) (by decide) hlt
      contradiction

namespace RuleSet

/-- The built-in pipe rules. -/
theorem transform_of_pipeTransform? {name : String} {transform : PipeTransform}
    (h : default.pipeTransform? name = some transform) :
    name = "currency" ∧ transform = .currency ∨ name = "limitTo" ∧ transform = .limitToSlice := by
  have htransforms : default.pipeTransforms.entries =
    [("currency", .currency), ("limitTo", .limitToSlice)] := by decide
  rw [pipeTransform?, Table.find?, htransforms, List.lookup_cons, List.lookup_cons] at h
  split at h
  · next hname => exact .inl ⟨by simpa using hname, (Option.some.inj h).symm⟩
  · split at h
    · next hname => exact .inr ⟨by simpa using hname, (Option.some.inj h).symm⟩
    · contradiction

theorem name_of_migrateFilter {f : Filter} {position length : Nat} {new : String}
    (h : (default.migrateFilter f position length).replacement = some new) :
    f.name.text = "currency" ∨ f.name.text = "limitTo" := by
  obtain ⟨transform, htransform, -⟩ := exists_of_replacement h
  exact (transform_of_pipeTransform? htransform).imp And.left And.left

/-- The edits of a text leave it text. -/
theorem keepsText_of_mem {content : List Char} {rest : List Char} {start : Nat} {e : Edit}
    (h : TextReads rest content)
    (he : e ∈ default.filterEdits ⟨String.ofList content, start⟩ ++
      default.clearEdits ⟨String.ofList content, start⟩) : e.KeepsText content := by
  obtain he | he := List.mem_append.mp he
  · obtain ⟨f, hf, hedit⟩ := List.mem_filterMap.mp he
    obtain ⟨new, hnew, rfl⟩ := Option.map_eq_some_iff.mp hedit
    have hoccurs : ∀ t ∈ f.tokens, OccursAt content t.offset t.text.toList := by
      intro t ht
      have htokens := tokensIn_read (String.ofList content)
      rw [String.toList_ofList] at htokens
      exact htokens.occursAt_of_mem (Filter.mem_findAll hf t ht).1
    constructor
    · have hname := hoccurs f.name (by simp [Filter.tokens])
      obtain heq | heq := name_of_migrateFilter hnew
      · rw [heq] at hname
        exact ⟨'c', rfl, hname.head⟩
      · rw [heq] at hname
        exact ⟨'l', rfl, hname.head⟩
    · refine (pipeForm_of_migrateFilter hnew).alwaysText ?_
      intro t ht rest'
      have hmem : t ∈ f.tokens := List.mem_cons_of_mem _ ht
      obtain ⟨htoken, hoperand⟩ := Filter.mem_findAll hf t hmem
      have hinfix : t.text.toList <:+: content := by
        obtain ⟨before, after, heq, -⟩ := hoccurs t hmem
        exact ⟨before, after, heq.symm⟩
      exact (h.of_infix hinfix).of_not_endsOpen
        (Tokens.not_endsOpen_of_mem 0 _ htoken hoperand).2 rest'
  · have hmem := (List.mem_filter.mp he).1
    cases default.edits_migrateExpression (String.ofList content) start with
    | inl hnone =>
        rw [hnone] at hmem
        contradiction
    | inr hedits =>
        rw [hedits] at hmem
        obtain ⟨n, hn, rfl⟩ := List.mem_map.mp hmem
        rw [Alias.offsets, String.toList_ofList] at hn
        have hoccurs : OccursAt content n Alias.word :=
          Alias.occursAt_of_mem_offsetsFrom [] content rfl rfl hn
        exact ⟨⟨'v', rfl, hoccurs.head⟩, fun _ => trivial⟩

/-- **Text stays text.** -/
theorem textReads_newText {content rest : List Char} (h : TextReads rest content) (offset : Nat) :
    TextReads [] (default.newText offset content) := by
  have hcontent : TextReads [] content := h.of_head rfl
  have hlaid := default.laid_filterEdits_append ⟨String.ofList content, offset⟩
  rw [byteLength, String.toList_ofList] at hlaid
  have hsplices := default.splices_newText offset content
  rw [Changes.replacements] at hsplices
  cases default.edits_textChanges ⟨String.ofList content, offset⟩ with
  | inl hnone =>
      rw [hnone] at hsplices
      rw [(Edit.Splices.nil offset content).unique hsplices .nil] at hcontent
      exact hcontent
  | inr hedits =>
      rw [hedits, SourceEdit.map_toEdit_ofEdit] at hsplices
      obtain ⟨out, sorted, hperm, happly⟩ := hlaid.exists_splices (List.nil_append _).symm rfl
      have hshift := (Edit.Splices.of_applyFrom? happly).perm hperm |>.shift offset
      have hapart := hlaid.apart
      have hout : out = default.newText offset content :=
        hshift.unique hsplices (by rw [List.pairwise_map]; exact hapart.imp Edit.apart_shift.mpr)
      rw [← hout]
      refine textReads_of_applyFrom? (List.nil_append _).symm rfl happly hcontent ?_
      intro e he
      exact keepsText_of_mem h (hperm.mem_iff.mp he)

end RuleSet

end TemplateMigration
