import TemplateMigration.Proofs.Markup.Fidelity
import TemplateMigration.Proofs.Migration.AliasRemoval
import TemplateMigration.Proofs.Migration.Anchors

/-!
# TemplateMigration.Proofs.Migration.Blocking

What an error blocks.

An error about an attribute blocks the attribute: a patch that takes its edits stays as it was, and
without an error a rename takes place and is reported once.  The parts of an attribute are looked
at one after the other, so this rests on where errors can come from: the edits of a value come
with no error (`edits_valueChanges_of_anyError`), and neither the alias nor a rename brings one.

In a run of text an error is about one filter and blocks that filter only.  Other filters are
replaced all the same, and the alias is dropped even inside the filter that the error is about.
-/

namespace TemplateMigration

/-! ## Patches that take edits -/

namespace Patch

variable {p q : Patch} {text : List Char} {s : Sheet}

/-- A call that succeeds has its effect on the sheet. -/
theorem Shows.of_apply (h : p.Shows text s) {call : PatchCall} (hq : call.apply p = .ok q) :
    q.Shows text (call.effect s) := by
  obtain ⟨q', hq', hshows⟩ := exists_apply h ((exists_apply_iff h call).mp ⟨q, hq⟩)
  rw [hq] at hq'
  cases hq'
  exact hshows

theorem Shows.of_foldlM_apply (h : p.Shows text s) {calls : List PatchCall}
    (hq : calls.foldlM PatchCall.apply p = .ok q) :
    q.Shows text (calls.foldl PatchCall.effect s) := by
  induction calls generalizing p s with
  | nil =>
      cases hq
      exact h
  | cons call calls ih =>
      rw [List.foldlM_cons] at hq
      cases hcall : call.apply p with
      | error failure => simp [hcall, bind, Except.bind] at hq
      | ok p' =>
          rw [hcall] at hq
          exact ih (h.of_apply hcall) hq

/-- Edits that are all made have the effects of their calls on the sheet. -/
theorem Shows.of_edits (h : p.Shows text s) {es : List SourceEdit}
    (hq : es.foldlM SourceEdit.apply p = .ok q) :
    q.Shows text ((es.flatMap SourceEdit.calls).foldl PatchCall.effect s) := by
  rw [SourceEdit.foldlM_apply_eq] at hq
  exact h.of_foldlM_apply hq

end Patch

/-- A replacement removes its range and puts its text on the left of the range. -/
theorem SourceEdit.foldl_effect_replace (s : Sheet) (offset length : Nat) (new : String) :
    (replace offset length new).calls.foldl PatchCall.effect s =
      (s.remove offset length).insertLeft offset new.toList := by
  rw [calls, List.foldl_cons, PatchCall.effect_remove]
  by_cases hnew : new = ""
  · simp [hnew]
  · simp [hnew, PatchCall.effect]

/-! ## Messages -/

@[simp] theorem Changes.messages_append (a b : Changes) :
    (a ++ b).messages = a.messages ++ b.messages := rfl

@[simp] theorem Message.anyError_append (ms ms' : List Message) :
    anyError (ms ++ ms') = (anyError ms || anyError ms') := by
  simp [anyError]

/-- Whether a message reports a new name of an attribute. -/
def Message.isRename (m : Message) : Bool := "Update property ".toList.isPrefixOf m.text.toList

namespace RuleSet

variable {r : RuleSet} {a : Attribute} {m : Message}

/-- What is said about an expression is no renaming. -/
theorem Says.isRename_eq_false {position length : Nat} (h : r.Says position length m) :
    m.isRename = false := by
  have herrors : repeatErrors.all (fun text => !"Update property ".toList.isPrefixOf text.toList) =
      true := by decide
  cases h with
  | fault htext url => simpa [Message.isRename] using List.all_eq_true.mp herrors _ htext
  | _ => simp [Message.error, Message.info, Message.isRename, List.isPrefixOf]

/-- What is said about a value is never that its attribute has a new name. -/
theorem isRename_of_mem_valueChanges (h : m ∈ (r.valueChanges a).messages) :
    m.isRename = false := by
  rw [valueChanges] at h
  split at h
  · contradiction
  · extract_lets transformed migrated at h
    have htransformed : m ∈ transformed.messages → m.isRename = false := by
      intro hm
      simp only [transformed] at hm
      split at hm
      · exact (says_of_mem_apply hm).isRename_eq_false
      · contradiction
    split at h
    · exact htransformed h
    · split at h
      · exact htransformed h
      · obtain hm | hm := List.mem_append.mp h
        · exact htransformed hm
        · obtain ⟨offset, -, rfl⟩ := exists_of_mem_migrateExpression hm
          simp [Alias.message, Message.info, Message.isRename, List.isPrefixOf]

/-- A rename brings no error. -/
theorem anyError_nameChanges (r : RuleSet) (a : Attribute) :
    Message.anyError (r.nameChanges a).messages = false := by
  unfold nameChanges
  split <;> simp [Message.anyError, Message.isError, Message.info, Changes.none]

/-- An attribute with an error is not edited. -/
theorem edits_attributeChanges_of_anyError
    (h : Message.anyError (r.attributeChanges a).messages = true) :
    (r.attributeChanges a).edits = [] := by
  simp only [attributeChanges] at h ⊢
  by_cases hname : r.isUnsupportedAttribute a.name = true
  · simp [hname]
  · by_cases hvalue : Message.anyError (r.valueChanges a).messages = true
    · simpa [hname, hvalue] using edits_valueChanges_of_anyError hvalue
    · -- The value has no error and the name brings none.
      simp [hname, hvalue, anyError_nameChanges] at h

/-- Without an error the value and the name are both migrated. -/
theorem attributeChanges_of_not_anyError
    (h : Message.anyError (r.attributeChanges a).messages = false) :
    r.attributeChanges a = r.valueChanges a ++ r.nameChanges a := by
  simp only [attributeChanges] at h ⊢
  by_cases hname : r.isUnsupportedAttribute a.name = true
  · simp [hname, Message.anyError, Message.isError, Message.error] at h
  · by_cases hvalue : Message.anyError (r.valueChanges a).messages = true
    · simp [hname, hvalue] at h
    · simp [hname, hvalue]

/-- **An error blocks the whole attribute.**  A patch, with any calls behind it, that takes the
edits of an attribute with an error is left as it was.  When there is no error and the name has a
rename, the bytes of the name are removed after what the value asks for, the new name stands in
their place, and one message says so. -/
theorem attribute_blocked_or_renamed (r : RuleSet) (a : Attribute) (text : String)
    (calls : List PatchCall) {q : Patch}
    (h : (r.attributeChanges a).edits.foldlM SourceEdit.apply (Patch.run text calls) = .ok q) :
    (Message.anyError (r.attributeChanges a).messages = true → q = Patch.run text calls) ∧
      (Message.anyError (r.attributeChanges a).messages = false →
        ∀ rule, r.rename? a.name = some rule →
          q.Shows text.toList
            (((((r.valueChanges a).edits.flatMap SourceEdit.calls).foldl PatchCall.effect
              (Sheet.run text calls)).remove a.start (byteLength a.name)).insertLeft a.start
                rule.newName.toList) ∧
          (r.attributeChanges a).messages.filter Message.isRename =
            [.info a.start (byteLength a.name)
              ("Update property " ++ a.name ++ " to " ++ rule.newName) rule.url]) := by
  constructor
  · intro herror
    rw [edits_attributeChanges_of_anyError herror] at h
    cases h
    rfl
  · intro hnone rule hrule
    have hshows := (Patch.shows_run text calls).of_edits h
    have hname : r.nameChanges a = ⟨[.replace a.start (byteLength a.name) rule.newName],
        [.info a.start (byteLength a.name)
          ("Update property " ++ a.name ++ " to " ++ rule.newName) rule.url]⟩ := by
      simp only [nameChanges, hrule]
    have hvalue : (r.valueChanges a).messages.filter Message.isRename = [] :=
      List.filter_eq_nil_iff.mpr fun m hm => by simp [isRename_of_mem_valueChanges hm]
    rw [attributeChanges_of_not_anyError hnone] at hshows ⊢
    constructor
    · simpa [hname, SourceEdit.foldl_effect_replace] using hshows
    · simp [hname, hvalue, Message.isRename, Message.info, List.isPrefixOf]

/-- An attribute whose value loses an alias, in a patch with an insertion and a removal behind it,
and an attribute whose value has an error. -/
theorem attribute_blocked_or_renamed_mixed :
    (∃ q, (default.attributeChanges ⟨"ng-if", "vm.ok", 3, 16, true⟩).edits.foldlM SourceEdit.apply
        (Patch.run "<p ng-if='vm.ok'>" [.insertLeft 0 "é", .remove 1 1]) = .ok q ∧
      q.render = "é< *ngIf='ok'>" ∧
      q.Shows "<p ng-if='vm.ok'>".toList
        ((((Sheet.run "<p ng-if='vm.ok'>" [.insertLeft 0 "é", .remove 1 1]).remove 10 3).remove
          3 5).insertLeft 3 "*ngIf".toList)) ∧
      ∃ q, (default.attributeChanges
          ⟨"ng-repeat", "(a,b) in vm.c | limitTo:2", 3, 40, true⟩).edits.foldlM SourceEdit.apply
            (Patch.run "<p ng-repeat='(a,b) in vm.c | limitTo:2'>" []) = .ok q ∧
        q = Patch.run "<p ng-repeat='(a,b) in vm.c | limitTo:2'>" [] := by
  constructor
  · have hrender : ((default.attributeChanges ⟨"ng-if", "vm.ok", 3, 16, true⟩).edits.foldlM
        SourceEdit.apply (Patch.run "<p ng-if='vm.ok'>"
          [.insertLeft 0 "é", .remove 1 1])).toOption.map Patch.render = some "é< *ngIf='ok'>" := by
      decide +kernel
    have hcalls : (default.valueChanges ⟨"ng-if", "vm.ok", 3, 16, true⟩).edits.flatMap
        SourceEdit.calls = [.remove 10 3] := by
      decide +kernel
    have hrule : default.rename? "ng-if" =
        some ⟨"ng-if", "*ngIf", some "https://angular.io/api/common/NgIf"⟩ := by
      decide +kernel
    cases hq : (default.attributeChanges ⟨"ng-if", "vm.ok", 3, 16, true⟩).edits.foldlM
        SourceEdit.apply (Patch.run "<p ng-if='vm.ok'>" [.insertLeft 0 "é", .remove 1 1]) with
    | error failure => simp [hq, Except.toOption] at hrender
    | ok q =>
        have hshows := ((attribute_blocked_or_renamed default _ _ _ hq).2 (by decide +kernel)
          _ hrule).1
        rw [hcalls] at hshows
        exact ⟨q, rfl, by simpa [hq, Except.toOption] using hrender, hshows⟩
  · have hnone : (default.attributeChanges
        ⟨"ng-repeat", "(a,b) in vm.c | limitTo:2", 3, 40, true⟩).edits = [] := by
      decide +kernel
    have hq : (default.attributeChanges
        ⟨"ng-repeat", "(a,b) in vm.c | limitTo:2", 3, 40, true⟩).edits.foldlM SourceEdit.apply
          (Patch.run "<p ng-repeat='(a,b) in vm.c | limitTo:2'>" []) =
        .ok (Patch.run "<p ng-repeat='(a,b) in vm.c | limitTo:2'>" []) := by
      rw [hnone]
      rfl
    exact ⟨_, hq, (attribute_blocked_or_renamed default _ _ _ hq).1 (by decide +kernel)⟩

end RuleSet

/-! ## Runs of text -/

namespace FiltersIn

variable {text : List Char} {start : Nat} {fs : List Filter} {f g : Filter}

theorem le_start_of_mem (h : FiltersIn text start fs) (hf : f ∈ fs) : start ≤ f.start := by
  induction fs generalizing start with
  | nil => contradiction
  | cons k fs ih =>
      obtain ⟨hstart, hlt, -, -, hrest⟩ := h
      obtain rfl | hmem := List.mem_cons.mp hf
      · exact hstart
      · have := ih hrest hmem
        omega

/-- Two filters of a text have no byte in common. -/
theorem apart (h : FiltersIn text start fs) (hf : f ∈ fs) (hg : g ∈ fs) (hne : f ≠ g) :
    f.stop ≤ g.start ∨ g.stop ≤ f.start := by
  induction fs generalizing start with
  | nil => contradiction
  | cons k fs ih =>
      obtain ⟨-, -, -, -, hrest⟩ := h
      obtain rfl | hf := List.mem_cons.mp hf
      · obtain rfl | hg := List.mem_cons.mp hg
        · contradiction
        · exact .inl (hrest.le_start_of_mem hg)
      · obtain rfl | hg := List.mem_cons.mp hg
        · exact .inr (hrest.le_start_of_mem ‹_›)
        · exact ih hrest hf hg

end FiltersIn

/-- The filters of a run of text. -/
def TextRun.filters (run : TextRun) : List Filter := Filter.findAll (Tokens.read run.content).list

namespace RuleSet

variable {r : RuleSet} {run : TextRun} {f : Filter} {e : Edit}

/-- Whether the rules replace a filter. -/
def replaces (r : RuleSet) (f : Filter) : Bool :=
  !r.isUnsupportedPipe f.name.text &&
    (r.pipeTransform? f.name.text).any fun transform => (transform.apply f).value != f.chain

theorem isSome_replacement (r : RuleSet) (f : Filter) (position length : Nat) :
    (r.migrateFilter f position length).replacement.isSome = r.replaces f := by
  rw [replaces]
  obtain ⟨hname, heq⟩ | ⟨hname, hsame, heq⟩ | ⟨hname, t, ht, hne, heq⟩ :=
    r.migrateFilter_cases f position length
  · simp [heq, hname]
  · rw [heq, hname, Bool.not_false, Bool.true_and]
    cases htransform : r.pipeTransform? f.name.text with
    | none => rfl
    | some t => simp [hsame t htransform]
  · simp [heq, hname, ht, hne]

/-- Text is not edited by filters exactly if none of its filters is replaced. -/
theorem filterEdits_eq_nil_iff (r : RuleSet) (run : TextRun) :
    r.filterEdits run = [] ↔ ∀ f ∈ run.filters, r.replaces f = false := by
  simp only [filterEdits, Filter.editsOf, List.filterMap_eq_nil_iff, Option.map_eq_none_iff,
    TextRun.filters]
  refine forall₂_congr fun f _ => ?_
  rw [← isSome_replacement r f (run.start + f.start) (f.stop - f.start)]
  simp

theorem edits_migrateExpression_eq_nil_iff (r : RuleSet) (expression : String) (start : Nat) :
    (r.migrateExpression expression start).edits = [] ↔
      r.expressionTransforms = [] ∨ Alias.offsets expression = [] := by
  cases htransforms : r.expressionTransforms with
  | nil => simp [migrateExpression, htransforms]
  | cons t ts =>
      cases t with
      | stripAlias =>
          by_cases hchange :
              Edit.change ((Alias.offsets expression).map Alias.edit) expression = true
          · simp [migrateExpression, htransforms, ExpressionTransform.apply, hchange]
          · have hnone := Alias.offsets_of_not_change (by simpa using hchange)
            have hedits := r.edits_migrateExpression expression start
            simp_all

/-- An error is about something in the text. -/
theorem not_blank_of_anyError (h : Message.anyError (r.textChanges run).messages = true) :
    run.content.toList.all isWhiteSpace = false := by
  by_contra hblank
  rw [textChanges, if_pos (by simpa using hblank)] at h
  contradiction

/-- A text is left alone when no filter is replaced and there is no alias to drop. -/
theorem edits_textChanges_eq_nil_iff (h : run.content.toList.all isWhiteSpace = false) :
    (r.textChanges run).edits = [] ↔
      (∀ f ∈ run.filters, r.replaces f = false) ∧
        (r.expressionTransforms = [] ∨ Alias.offsets run.content = []) := by
  rw [edits_textChanges_of_not_blank r run h, List.map_eq_nil_iff, List.append_eq_nil_iff,
    ← filterEdits_eq_nil_iff, ← r.edits_migrateExpression_eq_nil_iff run.content run.start]
  refine and_congr_right fun hnone => ?_
  simp [clearEdits, hnone]

/-- A filter that is replaced has no byte of one that is not. -/
theorem rangesMeet_of_mem_filterEdits (hf : f ∈ run.filters) (hkept : r.replaces f = false)
    (he : e ∈ r.filterEdits run) : rangesMeet e.offset e.stop f.start f.stop = false := by
  obtain ⟨g, hg, hedit⟩ := List.mem_filterMap.mp he
  obtain ⟨new, hnew, rfl⟩ := Option.map_eq_some_iff.mp hedit
  have hreplaced := isSome_replacement r g (run.start + g.start) (g.stop - g.start)
  have hne : f ≠ g := by
    rintro rfl
    simp [hnew, hkept] at hreplaced
  have hin := Filter.filtersIn_findAll run.content
  have hlt := Filter.lt_of_mem_filtersIn hin hg
  have hapart := hin.apart hf hg hne
  simp only [rangesMeet_eq_false_iff, Edit.stop]
  omega

/-- The transforms of an expression drop aliases and do nothing else. -/
theorem exists_of_mem_clearEdits (he : e ∈ r.clearEdits run) :
    ∃ offset ∈ Alias.offsets run.content, e = Alias.edit offset := by
  have hmem := List.mem_of_mem_filter he
  obtain hnone | hedits := r.edits_migrateExpression run.content run.start
  · simp [hnone] at hmem
  · rw [hedits] at hmem
    obtain ⟨offset, hoffset, rfl⟩ := List.mem_map.mp hmem
    exact ⟨offset, hoffset, rfl⟩

/-- **When an error blocks a run of text.**  A run of text with an error is left alone exactly if
none of its filters is replaced and no alias is dropped from it.  The filter that an error is about
is never replaced, and whatever is edited in it is an alias. -/
theorem text_blocked_iff (h : Message.anyError (r.textChanges run).messages = true) :
    ((r.textChanges run).edits = [] ↔
      (∀ f ∈ run.filters, r.replaces f = false) ∧
        (r.expressionTransforms = [] ∨ Alias.offsets run.content = [])) ∧
      ∀ f ∈ run.filters, r.isUnsupportedPipe f.name.text = true →
        ∀ e ∈ (r.textChanges run).edits,
          rangesMeet e.toEdit.offset e.toEdit.stop (run.start + f.start) (run.start + f.stop) →
            ∃ offset ∈ Alias.offsets run.content, e = .ofEdit run.start (Alias.edit offset) := by
  have hblank := not_blank_of_anyError h
  refine ⟨edits_textChanges_eq_nil_iff hblank, ?_⟩
  intro f hf hunsupported edit hedit hmeets
  rw [edits_textChanges_of_not_blank r run hblank] at hedit
  obtain ⟨e, hmem, rfl⟩ := List.mem_map.mp hedit
  -- An edit is the replacement of another filter, which is apart, or drops an alias.
  obtain he | he := List.mem_append.mp hmem
  · have hkept : r.replaces f = false := by simp [replaces, hunsupported]
    have hclear := rangesMeet_of_mem_filterEdits hf hkept he
    rw [rangesMeet_eq_false_iff] at hclear
    have hapart : rangesMeet (e.shift run.start).offset (e.shift run.start).stop
        (run.start + f.start) (run.start + f.stop) = false := by
      rw [rangesMeet_eq_false_iff, Edit.offset_shift, Edit.stop_shift]
      omega
    exact absurd (hapart.symm.trans hmeets) Bool.false_ne_true
  · obtain ⟨offset, hoffset, rfl⟩ := exists_of_mem_clearEdits he
    exact ⟨offset, hoffset, rfl⟩

/-- Two filters with an error and no alias: nothing is edited. -/
theorem text_blocked_iff_unsupported :
    Message.anyError
        (default.textChanges ⟨"\x7b\x7b a | filter:b | orderBy:'c' \x7d\x7d", 7⟩).messages ∧
      (default.textChanges ⟨"\x7b\x7b a | filter:b | orderBy:'c' \x7d\x7d", 7⟩).edits = [] := by
  have herror : Message.anyError
      (default.textChanges ⟨"\x7b\x7b a | filter:b | orderBy:'c' \x7d\x7d", 7⟩).messages := by
    decide +kernel
  refine ⟨herror, (text_blocked_iff herror).1.mpr ⟨?_, ?_⟩⟩
  · decide +kernel
  · decide +kernel

/-- The alias is dropped next to a filter with an error, and inside of it. -/
theorem not_forall_text_blocked :
    ¬ ∀ (source : String) (r : RuleSet) (run : TextRun), (Node.text run).In (Node.parse source) →
      Message.anyError (r.textChanges run).messages → (r.textChanges run).edits = [] := by
  intro h
  have hscan : MarkupEvent.scan "\x7b\x7b vm.items | orderBy:vm.key \x7d\x7d" =
      [.text ⟨"\x7b\x7b vm.items | orderBy:vm.key \x7d\x7d", 0⟩] := by
    decide +kernel
  have hin : (Node.text ⟨"\x7b\x7b vm.items | orderBy:vm.key \x7d\x7d", 0⟩).In
      (Node.parse "\x7b\x7b vm.items | orderBy:vm.key \x7d\x7d") := by
    rw [Node.parse, hscan]
    exact .root (.head _)
  have hedits := h _ default _ hin (by decide +kernel)
  revert hedits
  decide +kernel

end RuleSet

end TemplateMigration
