import TemplateMigration.Proofs.Expression.Edits

/-!
# TemplateMigration.Proofs.Expression.PipeText

What a filter is replaced by.

The tokens of a filter are operands of the expression in which it was found (`mem_findAll`).  A
replacement has one of four forms (`PipeForm`): it is made of tokens of the filter, of the words of
a pipe and of digits, and neither it nor what is said about it depends on where the filter stands.
-/

namespace TemplateMigration

/-! ## Tokens of filters -/

namespace Filter

/-- The arguments that are read are operands among the tokens, and the rest are tokens. -/
theorem mem_readArgs (ts : List Token) :
    (∀ args, (readArgs ts).1 = some args → ∀ t ∈ args, t ∈ ts ∧ t.isOperand) ∧
      ∀ t ∈ (readArgs ts).2, t ∈ ts := by
  fun_induction readArgs ts with
  | case1 => simp
  | case2 t hmark => simp
  | case3 t hmark => simp
  | case4 t arg rest hmark hoperand args rest' hread ih =>
      rw [hread] at ih
      constructor
      · intro found hfound u hu
        obtain ⟨more, hmore, rfl⟩ := Option.map_eq_some_iff.mp hfound
        cases List.mem_cons.mp hu with
        | inl heq => simp [heq, hoperand]
        | inr hmem =>
            have := ih.1 more hmore u hmem
            simp [this]
      · intro u hu
        have := ih.2 u hu
        simp [this]
  | case5 t arg rest hmark hoperand => simp +contextual
  | case6 t arg rest hmark => simp

theorem mem_read (ts : List Token) :
    (∀ f, (read ts).1 = some f → ∀ t ∈ f.tokens, t ∈ ts ∧ t.isOperand) ∧
      ∀ t ∈ (read ts).2, t ∈ ts := by
  cases ts with
  | nil => simp [read]
  | cons name rest =>
      have hargs := mem_readArgs rest
      rw [read]
      split
      · next hoperand =>
          constructor
          · intro f hf t ht
            obtain ⟨args, hread, rfl⟩ := Option.map_eq_some_iff.mp hf
            cases List.mem_cons.mp ht with
            | inl heq => simp [heq, hoperand]
            | inr hmem =>
                have := hargs.1 args hread t hmem
                simp [this]
          · intro t ht
            exact List.mem_cons_of_mem _ (hargs.2 t ht)
      · simp

theorem mem_findAfter (before : Option Token) (ts : List Token) {f : Filter}
    (h : f ∈ findAfter before ts) : ∀ t ∈ f.tokens, t ∈ ts ∧ t.isOperand := by
  fun_induction findAfter before ts with
  | case1 before => contradiction
  | case2 before t rest hmark hallows found ih =>
      intro u hu
      have hread := mem_read rest
      cases List.mem_append.mp h with
      | inl hfirst =>
          have := hread.1 f (Option.mem_toList.mp hfirst) u hu
          simp [this]
      | inr hmore =>
          have hmem := ih hmore u hu
          exact ⟨List.mem_cons_of_mem _ (hread.2 u hmem.1), hmem.2⟩
  | case3 before t rest hmark hallows ih =>
      intro u hu
      have := ih h u hu
      simp [this]
  | case4 before t rest hmark ih =>
      intro u hu
      have := ih h u hu
      simp [this]

/-- The tokens of a filter are operands among the tokens in which it was found. -/
theorem mem_findAll {ts : List Token} {f : Filter} (h : f ∈ findAll ts) :
    ∀ t ∈ f.tokens, t ∈ ts ∧ t.isOperand :=
  mem_findAfter none ts h

end Filter

/-- A token of a filter is written with characters of the expression. -/
theorem Filter.mem_of_mem_text {expression : String} {f : Filter} {t : Token} {c : Char}
    (hf : f ∈ findAll (Tokens.read expression).list) (ht : t ∈ f.tokens) (hc : c ∈ t.text.toList) :
    c ∈ expression.toList := by
  have hmem := (mem_findAll hf t ht).1
  obtain ⟨before, after, htext, -⟩ :=
    (TemplateMigration.tokensIn_read expression).occursAt_of_mem hmem
  rw [htext]
  simp [hc]

/-! ## Forms of a replacement -/

/-- The forms of what replaces a filter with the given arguments. -/
inductive PipeForm (args : List Token) : String → Prop
  | all : PipeForm args "slice:0"
  | slice {limit start : Token} {more : List Token} (h : args = limit :: start :: more) :
      PipeForm args ("slice:" ++ start.text ++ ":" ++ limit.text)
  | symbol {symbol : Token} (h : args = [symbol]) :
      PipeForm args ("currency:'USD':" ++ symbol.text)
  | digits {currency count : Token} {n : Nat} (h : args = [currency, count])
      (hn : PipeTransform.fractionDigits? count = some n) :
      PipeForm args ("currency:'USD':'symbol':" ++ toString n)

/-- What a transform makes of a filter, unless it leaves it as it is. -/
theorem PipeTransform.pipeForm_apply {t : PipeTransform} {f : Filter}
    (h : (t.apply f).value ≠ f.chain) : PipeForm f.args (t.apply f).value := by
  cases t with
  | limitToSlice =>
      rw [apply, PipeTransform.slice]
      dsimp only
      split
      · next limit start more hargs => exact .slice hargs
      · exact .all
  | currency =>
      rw [apply, currencyPipe] at h ⊢
      dsimp only at h ⊢
      split at h
      · next symbol hargs =>
          split at h
          · contradiction
          · next hcode =>
              rw [if_neg hcode]
              exact .symbol hargs
      · next currency digits hargs =>
          split at h
          · next n hn => exact .digits hargs hn
          · contradiction
      · contradiction

namespace RuleSet

variable {r : RuleSet} {f : Filter} {position length position' length' : Nat} {new : String}

/-- What can become of a filter: there is an error about it, it is left alone, or it is replaced by
the text of a pipe. -/
theorem migrateFilter_cases (r : RuleSet) (f : Filter) (position length : Nat) :
    r.isUnsupportedPipe f.name.text = true ∧ r.migrateFilter f position length =
        ⟨none, [.error position length ("Unsupported filter(pipe) " ++ f.name.text)]⟩ ∨
      r.isUnsupportedPipe f.name.text = false ∧
        (∀ t, r.pipeTransform? f.name.text = some t → (t.apply f).value = f.chain) ∧
        r.migrateFilter f position length = ⟨none, []⟩ ∨
      r.isUnsupportedPipe f.name.text = false ∧
        ∃ t, r.pipeTransform? f.name.text = some t ∧ (t.apply f).value ≠ f.chain ∧
          r.migrateFilter f position length = ⟨some (t.apply f).value, [.info position length
            ("Update filter " ++ f.chain ++ " to pipe " ++ (t.apply f).value)
            (some (t.apply f).url)]⟩ := by
  rw [migrateFilter]
  cases hunsupported : r.isUnsupportedPipe f.name.text with
  | true => exact .inl ⟨rfl, rfl⟩
  | false =>
      refine .inr ?_
      cases htransform : r.pipeTransform? f.name.text with
      | none => exact .inl ⟨rfl, by simp, rfl⟩
      | some t =>
          by_cases hchain : (t.apply f).value = f.chain
          · exact .inl ⟨rfl, by simpa using hchain, by simp [hchain]⟩
          · exact .inr ⟨rfl, t, rfl, hchain, by simp [hchain]⟩

/-- A filter is replaced by the text of a pipe. -/
theorem exists_of_replacement
    (h : (r.migrateFilter f position length).replacement = some new) :
    ∃ transform, r.pipeTransform? f.name.text = some transform ∧
      (transform.apply f).value ≠ f.chain ∧ new = (transform.apply f).value := by
  obtain ⟨-, heq⟩ | ⟨-, -, heq⟩ | ⟨-, t, ht, hne, heq⟩ := r.migrateFilter_cases f position length
  · rw [heq] at h
    contradiction
  · rw [heq] at h
    contradiction
  · rw [heq] at h
    exact ⟨t, ht, hne, (Option.some.inj h).symm⟩

/-- A filter is replaced by one of the forms. -/
theorem pipeForm_of_migrateFilter
    (h : (r.migrateFilter f position length).replacement = some new) : PipeForm f.args new := by
  obtain ⟨transform, -, hne, rfl⟩ := exists_of_replacement h
  exact PipeTransform.pipeForm_apply hne

/-- Where a filter stands decides only where the messages about it are. -/
theorem migrateFilter_eq (r : RuleSet) (f : Filter) (position length position' length' : Nat) :
    (r.migrateFilter f position length).replacement =
        (r.migrateFilter f position' length').replacement ∧
      (r.migrateFilter f position length).messages.map (fun m => (m.text, m.level, m.url)) =
        (r.migrateFilter f position' length').messages.map fun m => (m.text, m.level, m.url) := by
  simp only [migrateFilter]
  split
  · simp [Message.error]
  · split
    · simp
    · split <;> simp [Message.info]

end RuleSet

/-- The characters of the words of a pipe. -/
def pipeWords : List Char := "slice:0currency:'USD':'symbol':".toList

theorem mem_pipeWords {word : String} {c : Char} (h : word.toList.all pipeWords.contains)
    (hc : c ∈ word.toList) : c ∈ pipeWords := by
  simpa using List.all_eq_true.mp h c hc

/-- A replacement is written with characters of the arguments, of the words of a pipe, and
digits. -/
theorem PipeForm.mem {args : List Token} {new : String} {c : Char} (h : PipeForm args new)
    (hc : c ∈ new.toList) :
    (∃ t ∈ args, c ∈ t.text.toList) ∨ c ∈ pipeWords ∨ c.isDigit := by
  cases h with
  | all => exact .inr (.inl (mem_pipeWords (by decide) hc))
  | slice hargs =>
      simp only [String.toList_append, List.mem_append] at hc
      obtain ((hword | hstart) | hcolon) | hlimit := hc
      · exact .inr (.inl (mem_pipeWords (by decide) hword))
      · exact .inl ⟨_, by simp [hargs], hstart⟩
      · exact .inr (.inl (mem_pipeWords (by decide) hcolon))
      · exact .inl ⟨_, by simp [hargs], hlimit⟩
  | symbol hargs =>
      rw [String.toList_append, List.mem_append] at hc
      obtain hword | hsymbol := hc
      · exact .inr (.inl (mem_pipeWords (by decide) hword))
      · exact .inl ⟨_, by simp [hargs], hsymbol⟩
  | digits hargs hn =>
      rw [String.toList_append, List.mem_append, Nat.toString_eq_repr, Nat.toList_repr] at hc
      obtain hword | hdigit := hc
      · exact .inr (.inl (mem_pipeWords (by decide) hword))
      · exact .inr (.inr (Nat.isDigit_of_mem_toDigits (by decide) (by decide) hdigit))

end TemplateMigration
