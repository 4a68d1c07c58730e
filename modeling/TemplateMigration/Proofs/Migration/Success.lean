import TemplateMigration.Proofs.Markup.Fidelity
import TemplateMigration.Proofs.Migration.Layout
import TemplateMigration.Proofs.Patch.Sheet
import TemplateMigration.Session

/-!
# TemplateMigration.Proofs.Migration.Success

Migrating a template never fails.

An edit of the source is a short sequence of calls on a patch (`SourceEdit.calls`).  The edits of a
migration are laid in the source, so every call they make names boundaries of it and succeeds.
The offsets rest on the scan and on the reading of expressions: whatever they cut out of a text
stands in that text where it is said to stand (`ScanFaithful`, `ExpressionFaithful`).
-/

namespace TemplateMigration

/-! ## Edits as calls -/

namespace SourceEdit

/-- The calls that an edit makes on a patch. -/
def calls : SourceEdit → List PatchCall
  | replace offset length text =>
      .remove offset length :: if text.isEmpty then [] else [.insertLeft offset text]
  | insert offset text => [.insertRight offset text]

theorem apply_eq_foldlM (p : Patch) (e : SourceEdit) :
    apply p e = e.calls.foldlM PatchCall.apply p := by
  cases e with
  | replace offset length text =>
      rw [apply, calls, List.foldlM_cons]
      congr 1
      funext q
      split
      · rfl
      · simp [PatchCall.apply]
  | insert offset text => simp [apply, calls, PatchCall.apply]

theorem foldlM_apply_eq (es : List SourceEdit) (p : Patch) :
    es.foldlM apply p = (es.flatMap calls).foldlM PatchCall.apply p := by
  induction es generalizing p with
  | nil => rfl
  | cons e es ih =>
      rw [List.foldlM_cons, List.flatMap_cons, List.foldlM_append, apply_eq_foldlM]
      congr 1
      funext q
      exact ih q

/-- The calls of an edit name its two ends. -/
theorem admissible_of_mem_calls {text : List Char} {e : SourceEdit}
    (hmax : e.toEdit.stop ≤ Patch.maxOffset) (hleft : IsBoundary text e.toEdit.offset)
    (hright : IsBoundary text e.toEdit.stop) {call : PatchCall} (hcall : call ∈ e.calls) :
    call.Admissible text := by
  cases e with
  | replace offset length new =>
      obtain rfl | hinsert := List.mem_cons.mp hcall
      · exact ⟨hmax, hleft, hright⟩
      · split at hinsert
        · contradiction
        · rw [List.mem_singleton.mp hinsert]
          exact hleft
  | insert offset new =>
      rw [List.mem_singleton.mp hcall]
      exact hleft

end SourceEdit

namespace RuleSet

/-- The calls on a patch that a migration makes. -/
def callsOf (r : RuleSet) (source : String) : List PatchCall :=
  (r.forestChanges (Node.parse source)).edits.flatMap SourceEdit.calls

/-- Every call of a migration is admissible. -/
theorem admissible_of_mem_callsOf (r : RuleSet) {source : String}
    (hsize : byteLength source ≤ Patch.maxOffset) {call : PatchCall}
    (hcall : call ∈ r.callsOf source) : call.Admissible source.toList := by
  obtain ⟨e, he, hcall⟩ := List.mem_flatMap.mp hcall
  have hwithin := (r.laid_forestChanges source).within e.toEdit (List.mem_map_of_mem he)
  exact SourceEdit.admissible_of_mem_calls (Nat.le_trans hwithin.stop_le hsize) hwithin.left
    hwithin.right hcall

/-- The edits of a migration are made by its calls, none of which is refused. -/
theorem foldlM_apply_edits (r : RuleSet) {source : String}
    (hsize : byteLength source ≤ Patch.maxOffset) :
    (r.forestChanges (Node.parse source)).edits.foldlM SourceEdit.apply (.ofText source) =
      .ok (Patch.run source (r.callsOf source)) := by
  rw [SourceEdit.foldlM_apply_eq]
  exact Patch.foldlM_apply (Patch.shows_ofText source)
    (fun call hcall => r.admissible_of_mem_callsOf hsize hcall)

end RuleSet

/-! ## Parts that stand where they should -/

/-- What a scan takes out of a source stands in the source, and so does the cursor after every
piece of markup. -/
structure ScanFaithful (source : String) : Prop where
  items : ∀ i ∈ Node.contents (Node.parse source), i.Placed source.toList
  cursors : ∀ (c after : Cursor) (xs : List Char) (event : Option MarkupEvent),
    c.StandsIn source.toList → c.rest = '<' :: xs →
      MarkupEvent.readMarkup? c = some (event, after) → after.StandsIn source.toList

theorem scanFaithful (source : String) : ScanFaithful source where
  items := fun _ hi => placed_of_mem_contents_parse hi
  cursors := by
    intro c after xs event hc hrest hread
    exact (MarkupEvent.placed_readMarkup? hc hrest hread).2.1

/-- What the rules take out of an expression stands in the expression, and the edits they find can
be made in it. -/
structure ExpressionFaithful (r : RuleSet) (expression : String) : Prop where
  tokens : TokensIn expression.toList 0 (Tokens.read expression).list
  strings : ∀ (before rest : List Char) (n : Nat), expression.toList = before ++ rest →
    Lexeme.longest? rest = some (.quoted, n) →
      ∃ quote body, Lexeme.isQuote quote ∧ rest.take n = quote :: (body ++ [quote])
  filters : FiltersIn expression.toList 0 (Filter.findAll (Tokens.read expression).list)
  filterEdits : ∀ position length : Nat,
    Edit.applyBackward? (Filter.editsOf
        (fun f => (r.migrateFilter f position length).replacement)
        (Filter.findAll (Tokens.read expression).list)) expression =
      some (r.migrateFilterChain expression position length).value
  transformEdits : ∀ start : Nat,
    (Edit.applyAll? (r.migrateExpression expression start).edits expression).isSome

theorem expressionFaithful (r : RuleSet) (expression : String) :
    ExpressionFaithful r expression where
  tokens := tokensIn_read expression
  strings := fun _ _ _ _ h => Lexeme.take_longest?_quoted h
  filters := Filter.filtersIn_findAll expression
  filterEdits := by
    intro position length
    rw [Edit.applyBackward?_eq_applyAll?
      (Filter.editsIn_editsOf _ (Filter.filtersIn_findAll expression))]
    exact r.value_migrateFilterChain expression position length
  transformEdits := fun start =>
    Edit.isSome_applyAll? (r.editsIn_migrateExpression expression start)

/-! ## Success -/

/-- What a migration gives: the source with the edits of the walk, without end tags of void
elements, and the messages of the walk. -/
theorem Migration.ofTemplate_eq_ok (rules : RuleSet) {source : String}
    (hsize : byteLength source ≤ Patch.maxOffset) :
    ofTemplate rules source =
      .ok ⟨source, VoidEndTag.strip (Patch.run source (rules.callsOf source)).render,
        (Message.errorsFirst (rules.forestChanges (Node.parse source)).messages).map
          (·.place source)⟩ := by
  rw [ofTemplate, ofForest, ofChanges, rules.foldlM_apply_edits hsize]
  rfl

/-- **Migration succeeds.**  Every template whose offsets are numbers that an offset can have is
migrated by a new session.  Each call made on the patch names boundaries of the source, and every
part on which those offsets rest stands where it is said to stand. -/
theorem Session.exists_migrate_eq_ok (rules : RuleSet) (source : String)
    (hsize : byteLength source ≤ Patch.maxOffset) :
    (∃ m, ((start rules).migrate source).1 = .ok m) ∧
      (∀ call ∈ rules.callsOf source, call.Admissible source.toList) ∧
      ScanFaithful source ∧ ∀ expression : String, ExpressionFaithful rules expression := by
  refine ⟨⟨_, Migration.ofTemplate_eq_ok rules hsize⟩, ?_, scanFaithful source, ?_⟩
  · intro call hcall
    exact rules.admissible_of_mem_callsOf hsize hcall
  · exact expressionFaithful rules

/-- A tag that is cut off inside a value, and characters of several bytes. -/
theorem Session.exists_migrate_eq_ok_truncated :
    let source := "<ü>\x7b\x7b vm.ß | limitTo:3:1 \x7d\x7d<p ng-model=\"vm.é"
    byteLength source ≤ Patch.maxOffset ∧ RuleSet.default.callsOf source ≠ [] ∧
      (∃ m, ((start .default).migrate source).1 = .ok m) ∧
      (∀ call ∈ RuleSet.default.callsOf source, call.Admissible source.toList) ∧
      ScanFaithful source ∧ ∀ expression : String, ExpressionFaithful .default expression := by
  intro source
  have hsize : byteLength source ≤ Patch.maxOffset := by decide
  exact ⟨hsize, by decide +kernel, exists_migrate_eq_ok .default source hsize⟩

end TemplateMigration
