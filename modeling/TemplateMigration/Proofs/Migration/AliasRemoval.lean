import TemplateMigration.Proofs.Migration.Rewriting

/-!
# TemplateMigration.Proofs.Migration.AliasRemoval

A text without the alias.

The edits of the alias make of a text the text without it (`applyFrom?_edits`).  Behind a removed
alias stands what stood behind its point, and there another alias counts now, but did not count
before. Everywhere else what counts now has counted before, and is gone.  So only an alias that is
written twice in a row leaves one behind: `offsetsFrom_clear`.
-/

namespace TemplateMigration

namespace Alias

variable {before cs : List Char}

/-- A text without the alias; `before` is what precedes it, last character first. -/
def clear (before : List Char) (cs : List Char) : List Char :=
  match cs with
  | [] => []
  | c :: cs =>
      if word.isPrefixOf (c :: cs) && standsAfter before then
        clear (word.reverse ++ before) (cs.drop 2)
      else c :: clear (c :: before) cs
termination_by cs.length
decreasing_by
  · simp only [List.length_drop, List.length_cons]
    omega
  · simp

/-- The alias is written twice in a row. -/
def Doubled (cs : List Char) : Prop := word ++ word <:+: cs

instance (cs : List Char) : Decidable (Doubled cs) := inferInstanceAs (Decidable (_ <:+: _))

/-! ## Removal by edits -/

theorem eq_word_append {c : Char} (h : word.isPrefixOf (c :: cs) = true) :
    c :: cs = word ++ cs.drop 2 := by
  obtain ⟨rest, hrest⟩ := List.isPrefixOf_iff_prefix.mp h
  obtain ⟨rfl, rfl⟩ := List.cons.inj hrest
  rfl

/-- Nothing else counts inside an alias. -/
theorem offsetsFrom_word (h : standsAfter before = true) (offset : Nat) (cs : List Char) :
    offsetsFrom offset before (word ++ cs) =
      offset :: offsetsFrom (offset + 3) (word.reverse ++ before) cs := by
  simp [word, offsetsFrom, h, Char.utf8Size]

/-- **The edits of the alias make the text without it.** -/
theorem applyFrom?_edits (before cs : List Char) (offset : Nat) :
    Edit.applyFrom? offset cs ((offsetsFrom offset before cs).map edit) =
      some (clear before cs) := by
  fun_induction clear before cs generalizing offset with
  | case1 before => rfl
  | case2 before c cs halias ih =>
      rw [Bool.and_eq_true] at halias
      rw [eq_word_append halias.1, offsetsFrom_word halias.2, List.map_cons]
      have hword : Edit.applyFrom? offset word [edit offset] = some [] := by
        have hpass : Edit.applyFrom? offset ([] ++ word ++ []) [edit offset] = _ :=
          Edit.applyFrom?_cons rfl rfl
        simpa [Edit.applyFrom?, edit] using hpass
      exact Edit.applyFrom?_append hword (ih (offset + 3))
  | case3 before c cs halias ih =>
      rw [offsetsFrom, if_neg halias]
      exact Edit.applyFrom?_append (rfl : Edit.applyFrom? offset [c] [] = some [c]) (ih _)

/-- Removing aliases makes no text longer. -/
theorem length_clear_le (before cs : List Char) : (clear before cs).length ≤ cs.length := by
  fun_induction clear before cs with
  | case1 before => simp
  | case2 before c cs halias ih =>
      rw [List.length_drop] at ih
      rw [List.length_cons]
      omega
  | case3 before c cs halias ih =>
      rw [List.length_cons, List.length_cons]
      omega

/-- A text stays as it is only if there is no alias in it. -/
theorem offsetsFrom_of_clear_eq (h : clear before cs = cs) (offset : Nat) :
    offsetsFrom offset before cs = [] := by
  fun_induction clear before cs generalizing offset with
  | case1 before => rfl
  | case2 before c cs halias ih =>
      have hle := length_clear_le (word.reverse ++ before) (cs.drop 2)
      rw [h, List.length_drop, List.length_cons] at hle
      omega
  | case3 before c cs halias ih =>
      rw [offsetsFrom, if_neg halias, ih (List.cons.inj h).2]

/-! ## Parts of a text -/

section Parts

variable {c : Char} {offset n : Nat}

/-- A character that starts no alias is kept. -/
theorem clear_cons (h : (word.isPrefixOf (c :: cs) && standsAfter before) = false) :
    clear before (c :: cs) = c :: clear (c :: before) cs := by
  rw [clear, h, if_neg Bool.false_ne_true]

theorem clear_cons_of_ne (hc : c ≠ 'v') (before cs : List Char) :
    clear before (c :: cs) = c :: clear (c :: before) cs :=
  clear_cons (by simp [word, List.isPrefixOf, hc.symm])

/-- An alias is dropped. -/
theorem clear_word (h : standsAfter before = true) (cs : List Char) :
    clear before (word ++ cs) = clear (word.reverse ++ before) cs := by
  simp [word, clear, h]

/-- A character that is no letter of the alias ends it. -/
theorem isPrefixOf_word_append (hc : c ∉ word) (xs ys : List Char) :
    word.isPrefixOf (xs ++ c :: ys) = word.isPrefixOf xs := by
  simp only [word, List.mem_cons, List.not_mem_nil, or_false, not_or] at hc
  rcases xs with _ | ⟨x, _ | ⟨y, _ | ⟨z, xs⟩⟩⟩ <;> simp [word, List.isPrefixOf, hc, Ne.symm]

/-- What stands before such a character and behind it are cleared one by one. -/
theorem clear_append_cons (hc : c ∉ word) (before xs ys : List Char) :
    clear before (xs ++ c :: ys) =
      clear before xs ++ c :: clear (c :: (xs.reverse ++ before)) ys := by
  fun_induction clear before xs with
  | case1 before => exact clear_cons_of_ne (fun h => hc (by simp [h, word])) before ys
  | case2 before d xs halias ih =>
      rw [Bool.and_eq_true] at halias
      have heq := eq_word_append halias.1
      rw [heq, List.append_assoc, clear_word halias.2, ih]
      simp
  | case3 before d xs halias ih =>
      rw [← isPrefixOf_word_append hc (d :: xs) ys, Bool.not_eq_true, List.cons_append] at halias
      rw [List.cons_append, clear_cons halias, ih]
      simp

theorem notMem_word_of_isQuote (h : Lexeme.isQuote c) : c ∉ word := by
  obtain rfl | rfl := Lexeme.isQuote_iff.mp h <;> decide

/-- Aliases stand inside the text. -/
theorem lt_of_mem_offsetsFrom (h : n ∈ offsetsFrom offset before cs) :
    n < offset + byteCount cs := by
  induction cs generalizing offset before with
  | nil => simp [offsetsFrom] at h
  | cons c cs ih =>
      have hpos := c.utf8Size_pos
      have hrest : n ∈ offsetsFrom (offset + c.utf8Size) (c :: before) cs →
          n < offset + byteCount (c :: cs) := by
        intro hn
        have hlt := ih hn
        rw [byteCount_cons]
        omega
      rw [offsetsFrom] at h
      split at h
      · obtain rfl | h := List.mem_cons.mp h
        · rw [byteCount_cons]
          omega
        · exact hrest h
      · exact hrest h

/-- Nothing is removed where there is no alias. -/
theorem clear_of_offsetsFrom_eq_nil (h : offsetsFrom offset before cs = []) :
    clear before cs = cs := by
  induction cs generalizing before offset with
  | nil => rw [clear]
  | cons c cs ih =>
      rw [offsetsFrom] at h
      split at h
      · contradiction
      · next halias => rw [clear_cons (by simpa using halias), ih h]

/-- The offsets before a character that is no letter of the alias, and those behind it. -/
theorem offsetsFrom_append_cons (hc : c ∉ word) (offset : Nat) (before xs ys : List Char) :
    offsetsFrom offset before (xs ++ c :: ys) =
      offsetsFrom offset before xs ++
        offsetsFrom (offset + byteCount xs + c.utf8Size) (c :: (xs.reverse ++ before)) ys := by
  induction xs generalizing offset before with
  | nil => exact offsetsFrom_cons_of_ne ys fun h => hc (by simp [h, word])
  | cons x xs ih =>
      rw [List.cons_append, offsetsFrom, offsetsFrom, ← List.cons_append,
        isPrefixOf_word_append hc, ih]
      split <;> simp [Nat.add_assoc]

theorem mem_of_mem_clear (h : c ∈ clear before cs) : c ∈ cs := by
  fun_induction clear before cs with
  | case1 => exact h
  | case2 before d cs _ ih => exact List.mem_cons_of_mem d (List.mem_of_mem_drop (ih h))
  | case3 before d cs _ ih => grind

end Parts

/-! ## What is left -/

/-- Nothing is removed where the alias does not count. -/
theorem clear_cons_of_not_standsAfter (h : standsAfter before = false) (c : Char) (cs : List Char) :
    clear before (c :: cs) = c :: clear (c :: before) cs := by
  rw [clear, h, Bool.and_false, if_neg Bool.false_ne_true]

theorem not_standsAfter_cons {c : Char} (h : continuesName c = true) (before : List Char) :
    standsAfter (c :: before) = false := by
  simp [standsAfter, h]

/-- One alias does not count right behind another. -/
theorem not_standsAfter_word (before : List Char) :
    standsAfter (word.reverse ++ before) = false := not_standsAfter_cons rfl _

/-- An alias that counts, and what is left of the text. -/
theorem exists_of_alias {c : Char}
    (h : (word.isPrefixOf (c :: cs) && standsAfter before) = true) :
    ∃ text, c = 'v' ∧ cs = 'm' :: '.' :: text ∧
      clear before (c :: cs) = clear (word.reverse ++ before) text := by
  rw [Bool.and_eq_true, List.isPrefixOf_iff_prefix] at h
  obtain ⟨⟨text, hword⟩, hstands⟩ := h
  obtain ⟨rfl, rfl⟩ : 'v' = c ∧ 'm' :: '.' :: text = cs := List.cons.inj hword
  exact ⟨text, rfl, rfl, clear_word hstands text⟩

/-- Letters that continue a name stay where the alias does not count. -/
theorem clear_append_of_continuesName {xs : List Char} (hxs : ∀ c ∈ xs, continuesName c)
    (h : standsAfter before = false) (ys : List Char) :
    clear before (xs ++ ys) = xs ++ clear (xs.reverse ++ before) ys := by
  induction xs generalizing before with
  | nil => rfl
  | cons x xs ih =>
      obtain ⟨hx, hxs⟩ := List.forall_mem_cons.mp hxs
      rw [List.cons_append, clear_cons_of_not_standsAfter h,
        ih hxs (not_standsAfter_cons hx before)]
      simp

/-- An alias can stand behind a character that continues no name and ends no `//`. -/
theorem standsAfter_cons {c : Char} :
    standsAfter (c :: before) = true ↔
      continuesName c = false ∧ (c = '/' → before.head? ≠ some '/') := by
  have hslashes : List.isPrefixOf ['/', '/'] (c :: before) = true ↔
      c = '/' ∧ before.head? = some '/' := by
    rw [List.isPrefixOf_iff_prefix, List.cons_prefix_cons]
    cases before with
    | nil => simp
    | cons d before => simp [List.cons_prefix_cons, @eq_comm Char '/']
  rw [standsAfter, Bool.and_eq_true, Bool.not_eq_true', Bool.not_eq_true', List.head?_cons,
    Option.any_some, ← Bool.not_eq_true (List.isPrefixOf _ _), hslashes, not_and]

/-- The letters of an alias are not brought together by the removal of others. -/
theorem prefix_of_clear {c : Char} (h : word <+: c :: clear (c :: before) cs) :
    word <+: c :: cs := by
  obtain ⟨rfl, h⟩ := List.cons_prefix_cons.mp h
  rcases cs with _ | ⟨d, cs⟩
  · simp [clear] at h
  · rw [clear_cons_of_not_standsAfter (not_standsAfter_cons rfl _)] at h
    obtain ⟨rfl, h⟩ := List.cons_prefix_cons.mp h
    rcases cs with _ | ⟨e, cs⟩
    · simp [clear] at h
    · rw [clear_cons_of_not_standsAfter (not_standsAfter_cons rfl _)] at h
      obtain ⟨rfl, -⟩ := List.cons_prefix_cons.mp h
      exact List.prefix_append word cs

theorem Doubled.cons (h : Doubled cs) (c : Char) : Doubled (c :: cs) :=
  h.trans (List.suffix_cons c cs).isInfix

/-- **Nothing is left of the alias, unless it is doubled.** -/
theorem offsetsFrom_clear (before' : List Char) (offset : Nat) (hdoubled : ¬ Doubled cs)
    (hslash : before.head? = some '/' → before'.head? = some '/')
    (hhead : word <+: cs → standsAfter before' = true → standsAfter before = true) :
    offsetsFrom offset before' (clear before cs) = [] := by
  -- `before'` precedes what is left: it ends like `before`, except behind a removed alias
  fun_induction clear before cs generalizing before' offset with
  | case1 before => rfl
  | case2 before c cs halias ih =>
      rw [Bool.and_eq_true] at halias
      have hcs := eq_word_append halias.1
      rw [hcs] at hdoubled
      refine ih before' offset ?_ (by simp [word]) ?_
      · exact fun hrest => hdoubled (hrest.trans (List.suffix_append _ _).isInfix)
      · rintro ⟨rest, hrest⟩
        exact absurd ⟨[], rest, by rw [← hrest]; simp⟩ hdoubled
  | case3 before c cs halias ih =>
      have hrest := ih (c :: before') (offset + c.utf8Size) (fun h => hdoubled (h.cons c)) id ?_
      · rw [offsetsFrom, if_neg ?_, hrest]
        rw [Bool.and_eq_true, List.isPrefixOf_iff_prefix]
        rintro ⟨hword, hstands⟩
        have hword' := prefix_of_clear hword
        refine halias ?_
        rw [Bool.and_eq_true, List.isPrefixOf_iff_prefix]
        exact ⟨hword', hhead hword' hstands⟩
      · intro _ hstands
        rw [standsAfter_cons] at hstands ⊢
        exact ⟨hstands.1, fun hc hd => hstands.2 hc (hslash hd)⟩

theorem offsetsFrom_eq_nil (h : 'v' ∉ cs) (before : List Char) (offset : Nat) :
    offsetsFrom offset before cs = [] := by
  induction cs generalizing before offset with
  | nil => rfl
  | cons c cs ih =>
      rw [List.mem_cons, not_or] at h
      have hword : word.isPrefixOf (c :: cs) = false := by
        rw [word, List.isPrefixOf, beq_eq_false_iff_ne.mpr h.1, Bool.false_and]
      rw [offsetsFrom, hword, Bool.false_and, if_neg Bool.false_ne_true, ih h.2]

/-- What is left of a whole text. -/
theorem offsets_clear (hdoubled : ¬ Doubled cs) :
    offsets (String.ofList (clear [] cs)) = [] := by
  rw [offsets, String.toList_ofList]
  exact offsetsFrom_clear [] 0 hdoubled id fun _ => id

/-- Edits of the alias that change nothing are none. -/
theorem offsets_of_not_change {expression : String}
    (h : Edit.change ((offsets expression).map edit) expression = false) :
    offsets expression = [] := by
  by_contra hne
  have hclear : Edit.applyAll ((offsets expression).map edit) expression =
      String.ofList (clear [] expression.toList) := by
    rw [Edit.applyAll, Edit.applyAll?, offsets, applyFrom?_edits]
    rfl
  rw [Edit.change, hclear] at h
  have hsame : String.ofList (clear [] expression.toList) = expression := by simpa [hne] using h
  refine hne (offsetsFrom_of_clear_eq ?_ 0)
  simpa using congrArg String.toList hsame

end Alias

/-- The built-in expression transforms remove the alias. -/
theorem RuleSet.edits_migrateExpression_default (expression : String) (start : Nat) :
    (default.migrateExpression expression start).edits =
      (Alias.offsets expression).map Alias.edit := by
  have hdefault : default.migrateExpression expression start =
      ([ExpressionTransform.stripAlias.apply expression start].find?
        fun migrated => Edit.change migrated.edits expression).getD ⟨[], []⟩ := rfl
  rw [hdefault, List.find?_singleton]
  split
  · rfl
  · next hchange =>
      rw [Bool.not_eq_true] at hchange
      rw [Alias.offsets_of_not_change hchange]
      rfl

/-- A part of a template in which the alias is all that is edited becomes the text without it. -/
theorem Alias.eq_clear_of_splices {expression : String} {out : List Char} {offset : Nat}
    (h : Edit.Splices offset expression.toList
      (((offsets expression).map edit).map (Edit.shift offset)) out) :
    out = clear [] expression.toList := by
  have hclear := Edit.Splices.shift
    (Edit.Splices.of_applyFrom? (applyFrom?_edits [] expression.toList 0)) offset
  have hlaid := RuleSet.default.laid_migrateExpression expression 0
  rw [RuleSet.edits_migrateExpression_default] at hlaid
  refine h.unique hclear ?_
  rw [List.pairwise_map]
  exact hlaid.apart.imp Edit.apart_shift.mpr

end TemplateMigration
