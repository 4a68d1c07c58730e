import TemplateMigration.Proofs.Expression.Spans
import TemplateMigration.Rule.Apply

/-!
# TemplateMigration.Proofs.Expression.Edits

Edits of one text that can be made.

Edits in ascending order without overlap, with both ends of each at boundaries (`EditsIn`), can be
made in one pass from the front, and making them one by one from the back gives the same text
(`applyBackward?_eq_applyAll?`).  The edits that the rules find in an expression are of this kind:
those of its filters (`editsIn_editsOf`) and those of its aliases (`editsIn_migrateExpression`).
-/

namespace TemplateMigration

/-- The byte offset after the range that an edit replaces. -/
def Edit.stop (e : Edit) : Nat := e.offset + e.length

/-- Edits that follow each other in a text from an offset on. -/
def EditsIn (text : List Char) : Nat → List Edit → Prop
  | _, [] => True
  | start, e :: es =>
      start ≤ e.offset ∧ IsBoundary text e.offset ∧ IsBoundary text e.stop ∧ EditsIn text e.stop es

namespace EditsIn

variable {text : List Char} {start : Nat} {e : Edit} {es : List Edit}

/-- Only the first edit bounds the start. -/
theorem of_le {start' : Nat} (h : EditsIn text start es) (hle : ∀ e ∈ es, start' ≤ e.offset) :
    EditsIn text start' es := by
  cases es with
  | nil => trivial
  | cons e es => exact ⟨hle e (by simp), h.2⟩

theorem mono {start' : Nat} (h : EditsIn text start es) (hle : start' ≤ start) :
    EditsIn text start' es := by
  cases es with
  | nil => trivial
  | cons e es => exact ⟨Nat.le_trans hle h.1, h.2⟩

/-- The first edit divides what is left of the text in three, and the other edits stand in the
last part. -/
theorem exists_eq_append (h : EditsIn text start (e :: es)) {before rest : List Char}
    (htext : text = before ++ rest) (hbefore : byteCount before = start) :
    ∃ front gone after, rest = front ++ gone ++ after ∧ start + byteCount front = e.offset ∧
      byteCount gone = e.length ∧ text = before ++ front ++ gone ++ after ∧
      byteCount (before ++ front ++ gone) = e.stop := by
  obtain ⟨hle, hleft, hright, -⟩ := h
  rw [Edit.stop] at hright
  rw [htext, isBoundary_append_of_ge (by omega)] at hleft hright
  obtain ⟨front, tail, rfl, hfront⟩ := hleft
  rw [isBoundary_append_of_ge (by omega)] at hright
  obtain ⟨gone, after, rfl, hgone⟩ := hright
  refine ⟨front, gone, after, by simp, by omega, by omega, by simp [htext], ?_⟩
  rw [byteCount_append, byteCount_append, Edit.stop]
  omega

end EditsIn

/-! ## Making edits -/

namespace Edit

variable {text : List Char} {start : Nat} {e : Edit} {es : List Edit}

/-- The first edit of a pass: what stands before it is kept, its range is replaced. -/
theorem applyFrom?_cons {front gone after : List Char} (hfront : start + byteCount front = e.offset)
    (hgone : byteCount gone = e.length) :
    applyFrom? start (front ++ gone ++ after) (e :: es) =
      (applyFrom? e.stop after es).map fun tail => front ++ e.replacement.toList ++ tail := by
  have hge : ¬ e.offset < start := by omega
  have hsub : e.offset - start = byteCount front := by omega
  rw [applyFrom?, if_neg hge, hsub, List.append_assoc, cut?_append, Option.bind_some, stop, ← hgone]
  simp only [cut?_append, Option.bind_some]

/-- One edit of a text. -/
theorem replaceIn?_append {front gone after : List Char} (hfront : byteCount front = e.offset)
    (hgone : byteCount gone = e.length) :
    e.replaceIn? (front ++ gone ++ after) = some (front ++ e.replacement.toList ++ after) := by
  rw [replaceIn?, ← hfront, List.append_assoc, cut?_append, Option.bind_some, ← hgone]
  simp only [cut?_append, Option.map_some]

/-- A pass over edits that follow each other gives a text. -/
theorem isSome_applyFrom? {before rest : List Char} (h : EditsIn text start es)
    (htext : text = before ++ rest) (hbefore : byteCount before = start) :
    (applyFrom? start rest es).isSome := by
  induction es generalizing start before rest with
  | nil => rfl
  | cons e es ih =>
      obtain ⟨front, gone, after, rfl, hfront, hgone, hrest, hstop⟩ :=
        h.exists_eq_append htext hbefore
      rw [applyFrom?_cons hfront hgone, Option.isSome_map]
      exact ih h.2.2.2 hrest hstop

/-- From the back or from the front: the edits behind an edit leave alone what it looks at. -/
theorem foldr_replaceIn? {before rest : List Char} (h : EditsIn text start es)
    (htext : text = before ++ rest) (hbefore : byteCount before = start) :
    es.foldr (fun e done => done.bind e.replaceIn?) (some text) =
      (applyFrom? start rest es).map (before ++ ·) := by
  induction es generalizing start before rest with
  | nil => rw [htext]; rfl
  | cons e es ih =>
      obtain ⟨front, gone, after, rfl, hfront, hgone, hrest, hstop⟩ :=
        h.exists_eq_append htext hbefore
      have hoffset : byteCount (before ++ front) = e.offset := by
        rw [byteCount_append, hbefore, hfront]
      rw [List.foldr_cons, ih h.2.2.2 hrest hstop, applyFrom?_cons hfront hgone]
      cases applyFrom? e.stop after es with
      | none => rfl
      | some tail =>
          rw [Option.map_some, Option.bind_some, replaceIn?_append hoffset hgone]
          simp

/-- Edits in a text apply to it. -/
theorem isSome_applyAll? {text : String} (h : EditsIn text.toList 0 es) :
    (applyAll? es text).isSome := by
  rw [applyAll?, Option.isSome_map]
  exact isSome_applyFrom? h (List.nil_append _).symm rfl

/-- Edits that follow each other can be made from either end. -/
theorem applyBackward?_eq_applyAll? {text : String} (h : EditsIn text.toList 0 es) :
    applyBackward? es text = applyAll? es text := by
  rw [applyBackward?, foldr_replaceIn? h (List.nil_append _).symm rfl, applyAll?]
  simp

end Edit

/-! ## Aliases -/

namespace Alias

theorem le_of_mem_offsetsFrom {offset n : Nat} {before cs : List Char}
    (h : n ∈ offsetsFrom offset before cs) : offset ≤ n := by
  induction cs generalizing offset before with
  | nil => simp [offsetsFrom] at h
  | cons c cs ih =>
      rw [offsetsFrom] at h
      split at h
      · cases List.mem_cons.mp h with
        | inl heq => omega
        | inr hmem => exact Nat.le_of_add_right_le (ih hmem)
      · exact Nat.le_of_add_right_le (ih h)

/-- An alias starts with its first letter. -/
theorem offsetsFrom_cons_of_ne {offset : Nat} {before : List Char} {c : Char} (cs : List Char)
    (hc : c ≠ 'v') :
    offsetsFrom offset before (c :: cs) = offsetsFrom (offset + c.utf8Size) (c :: before) cs := by
  rw [offsetsFrom]
  simp [word, List.isPrefixOf, hc.symm]

/-- Where the offsets of the alias are, there is the alias. -/
theorem occursAt_of_mem_offsetsFrom {text : List Char} (before cs : List Char) {offset n : Nat}
    (htext : text = before.reverse ++ cs) (hoffset : byteCount before.reverse = offset)
    (h : n ∈ offsetsFrom offset before cs) : OccursAt text n word := by
  induction cs generalizing offset before with
  | nil => contradiction
  | cons c cs ih =>
      have hrest : n ∈ offsetsFrom (offset + c.utf8Size) (c :: before) cs →
          OccursAt text n word := by
        refine ih (c :: before) ?_ ?_
        · rw [htext, List.reverse_cons, List.append_assoc, List.singleton_append]
        · rw [List.reverse_cons, byteCount_append, hoffset]
          rfl
      rw [offsetsFrom] at h
      split at h
      · next hmatch =>
          obtain rfl | h := List.mem_cons.mp h
          · rw [Bool.and_eq_true, List.isPrefixOf_iff_prefix] at hmatch
            obtain ⟨after, hafter⟩ := hmatch.1
            exact ⟨before.reverse, after, by rw [htext, ← hafter, List.append_assoc], hoffset⟩
          · exact hrest h
      · exact hrest h

/-- An alias stands at each of its offsets. -/
theorem occursAt_of_mem_offsets {expression : String} {n : Nat} (h : n ∈ offsets expression) :
    OccursAt expression.toList n word :=
  occursAt_of_mem_offsetsFrom [] _ rfl rfl h

/-- Two aliases do not overlap: the other letters of an alias do not start one. -/
theorem editsIn_offsetsFrom {text : List Char} (offset : Nat) (before cs : List Char)
    (htext : text = before.reverse ++ cs) (hoffset : byteCount before.reverse = offset) :
    EditsIn text offset ((offsetsFrom offset before cs).map edit) := by
  induction cs generalizing offset before with
  | nil => trivial
  | cons c cs ih =>
      have hrest : EditsIn text (offset + c.utf8Size)
          ((offsetsFrom (offset + c.utf8Size) (c :: before) cs).map edit) := by
        refine ih _ _ ?_ ?_
        · rw [htext, List.reverse_cons, List.append_assoc, List.singleton_append]
        · rw [List.reverse_cons, byteCount_append, hoffset]
          rfl
      rw [offsetsFrom]
      split
      · next hmatch =>
          have hword : word <+: c :: cs := by
            rw [Bool.and_eq_true, List.isPrefixOf_iff_prefix] at hmatch
            exact hmatch.1
          obtain ⟨after, hafter⟩ := hword
          obtain ⟨rfl, rfl⟩ : 'v' = c ∧ 'm' :: '.' :: after = cs := List.cons.inj hafter
          have hoccurs : OccursAt text offset word :=
            ⟨before.reverse, after, by rw [htext, ← hafter, List.append_assoc], hoffset⟩
          refine ⟨Nat.le_refl _, hoccurs.isBoundary_start, hoccurs.isBoundary_stop, ?_⟩
          refine hrest.of_le ?_
          intro e he
          obtain ⟨n, hn, rfl⟩ := List.mem_map.mp he
          rw [offsetsFrom_cons_of_ne _ (by decide), offsetsFrom_cons_of_ne _ (by decide)] at hn
          exact le_of_mem_offsetsFrom hn
      · exact hrest.mono (Nat.le_add_right _ _)

theorem editsIn_offsets (expression : String) :
    EditsIn expression.toList 0 ((offsets expression).map edit) :=
  editsIn_offsetsFrom 0 [] _ rfl rfl

end Alias

namespace RuleSet

/-- An expression is left alone, or every alias in it is dropped and reported. -/
theorem migrateExpression_cases (r : RuleSet) (expression : String) (start : Nat) :
    r.migrateExpression expression start = ⟨[], []⟩ ∨
      r.migrateExpression expression start = ⟨(Alias.offsets expression).map Alias.edit,
        (Alias.offsets expression).map fun offset => Alias.message (start + offset)⟩ := by
  rw [migrateExpression]
  cases hfind : (r.expressionTransforms.map (·.apply expression start)).find?
      fun migrated => Edit.change migrated.edits expression with
  | none => exact .inl rfl
  | some migrated =>
      obtain ⟨t, -, rfl⟩ := List.mem_map.mp (List.mem_of_find?_eq_some hfind)
      cases t with
      | stripAlias => exact .inr rfl

theorem edits_migrateExpression (r : RuleSet) (expression : String) (start : Nat) :
    (r.migrateExpression expression start).edits = [] ∨
      (r.migrateExpression expression start).edits = (Alias.offsets expression).map Alias.edit :=
  (r.migrateExpression_cases expression start).imp
    (congrArg ExpressionMigration.edits) (congrArg ExpressionMigration.edits)

/-- The edits of an expression stand in it, one after the other. -/
theorem editsIn_migrateExpression (r : RuleSet) (expression : String) (start : Nat) :
    EditsIn expression.toList 0 (r.migrateExpression expression start).edits := by
  cases r.edits_migrateExpression expression start with
  | inl hnone =>
      rw [hnone]
      trivial
  | inr hedits =>
      rw [hedits]
      exact Alias.editsIn_offsets expression

theorem pos_length_of_mem_migrateExpression {r : RuleSet} {expression : String} {start : Nat}
    {e : Edit} (h : e ∈ (r.migrateExpression expression start).edits) : 0 < e.length := by
  cases r.edits_migrateExpression expression start with
  | inl hnone =>
      rw [hnone] at h
      contradiction
  | inr hedits =>
      rw [hedits] at h
      obtain ⟨n, -, rfl⟩ := List.mem_map.mp h
      exact Nat.succ_pos _

end RuleSet

/-! ## Filters -/

namespace Filter

/-- The edits that put texts in the place of filters, wherever there is one. -/
def editsOf (replacement : Filter → Option String) (fs : List Filter) : List Edit :=
  fs.filterMap fun f => (replacement f).map fun text => Edit.mk f.start (f.stop - f.start) text

/-- The edits of filters stand where the filters do. -/
theorem editsIn_editsOf {text : List Char} {start : Nat} {fs : List Filter}
    (replacement : Filter → Option String) (h : FiltersIn text start fs) :
    EditsIn text start (editsOf replacement fs) := by
  induction fs generalizing start with
  | nil => trivial
  | cons f fs ih =>
      obtain ⟨hstart, hlt, hleft, hright, hrest⟩ := h
      rw [editsOf, List.filterMap_cons, ← editsOf]
      cases replacement f with
      | none => exact (ih hrest).mono (by omega)
      | some text =>
          have hstop : f.start + (f.stop - f.start) = f.stop := by omega
          refine ⟨hstart, hleft, ?_, ?_⟩
          · rw [Edit.stop, hstop]
            exact hright
          · rw [Edit.stop, hstop]
            exact ih hrest

theorem lt_of_mem_filtersIn {text : List Char} {start : Nat} {fs : List Filter} {f : Filter}
    (h : FiltersIn text start fs) (hf : f ∈ fs) : f.start < f.stop := by
  induction fs generalizing start with
  | nil => contradiction
  | cons g fs ih =>
      cases List.mem_cons.mp hf with
      | inl heq => rw [heq]; exact h.2.1
      | inr hmem => exact ih h.2.2.2.2 hmem

end Filter

/-- The value that the rules make of a chain of filters is the expression with its filters
replaced in one pass. -/
theorem RuleSet.value_migrateFilterChain (r : RuleSet) (expression : String)
    (position length : Nat) :
    Edit.applyAll? (Filter.editsOf (fun f => (r.migrateFilter f position length).replacement)
        (Filter.findAll (Tokens.read expression).list)) expression =
      some (r.migrateFilterChain expression position length).value := by
  have hin := Filter.editsIn_editsOf (fun f => (r.migrateFilter f position length).replacement)
    (Filter.filtersIn_findAll expression)
  obtain ⟨value, hvalue⟩ := Option.isSome_iff_exists.mp (Edit.isSome_applyAll? hin)
  have hbackward := Edit.applyBackward?_eq_applyAll? hin
  rw [hvalue] at hbackward
  rw [hvalue, migrateFilterChain]
  simp only [List.filterMap_map, Function.comp_def]
  rw [← Filter.editsOf, hbackward, Option.getD_some]

end TemplateMigration
