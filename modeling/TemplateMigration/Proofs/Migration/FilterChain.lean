import TemplateMigration.Proofs.Expression.LongestMatch
import TemplateMigration.Proofs.Expression.PipeText
import TemplateMigration.Proofs.Markup.RoundTrip
import TemplateMigration.Proofs.Markup.VoidEndTag
import TemplateMigration.Proofs.Migration.Parts

/-!
# TemplateMigration.Proofs.Migration.FilterChain

Two ways of migrating filters give the same.

A template without markup is one run of text.  Its filters are replaced by edits of the source that
a patch collects, and white space is not even looked at; the filters of a value are replaced inside
one text from the last to the first (`migrateFilterChain`).  No token is written with white space
(`list_read_of_isWhiteSpace`), and no replacement brings in a `<` (`notMem_migrateFilterChain`),
so that neither the short cut nor the removal of end tags makes a difference.
-/

namespace TemplateMigration

/-! ## White space has no tokens -/

theorem not_isWhiteSpace_of_visible {c : Char} (hge : 33 ≤ c.toNat) (hle : c.toNat ≤ 126) :
    isWhiteSpace c = false := by
  simp only [isWhiteSpace, Bool.or_eq_false_iff, Bool.and_eq_false_imp, decide_eq_true_eq,
    decide_eq_false_iff_not, beq_eq_false_iff_ne, ne_eq]
  omega

namespace Lexeme

theorem not_isWhiteSpace_of_isIdentifierStart {c : Char} (h : isIdentifierStart c) :
    isWhiteSpace c = false := by
  obtain halpha | rfl | rfl := isIdentifierStart_iff.mp h
  · obtain hupper | hlower := Bool.or_eq_true_iff.mp halpha
    · have hrange : 65 ≤ c.toNat ∧ c.toNat ≤ 90 := of_decide_eq_true hupper
      exact not_isWhiteSpace_of_visible (by omega) (by omega)
    · have hge : 97 ≤ c.toNat := of_decide_eq_true (Bool.and_eq_true_iff.mp hlower).1
      have hle : c.toNat ≤ 122 := of_decide_eq_true (Bool.and_eq_true_iff.mp hlower).2
      exact not_isWhiteSpace_of_visible (by omega) (by omega)
  · rfl
  · rfl

theorem not_isWhiteSpace_of_mantissa? {c : Char} {cs : List Char} {n : Nat}
    (h : mantissa? (c :: cs) = some n) : isWhiteSpace c = false := by
  obtain hdigit | rfl := isDigit_or_eq_point_of_mantissa? h
  · have hrange : 48 ≤ c.toNat ∧ c.toNat ≤ 57 := Char.isDigit_iff_toNat.mp hdigit
    exact not_isWhiteSpace_of_visible (by omega) (by omega)
  · rfl

/-- No lexeme starts with white space. -/
theorem not_isWhiteSpace_of_matchLength? {p : Lexeme} {c : Char} {cs : List Char} {n : Nat}
    (h : matchLength? p (c :: cs) = some n) : isWhiteSpace c = false := by
  have hquote : isQuote c = true → isWhiteSpace c = false := by
    intro hquote
    obtain rfl | rfl := isQuote_iff.mp hquote <;> rfl
  cases p with
  | quoted =>
      simp only [matchLength?, quoted?] at h
      split at h
      · next hc => exact hquote hc
      · contradiction
  | unterminated =>
      simp only [matchLength?, unterminated?] at h
      split at h
      · next hc => exact hquote hc
      · contradiction
  | number =>
      obtain ⟨k, hk, -⟩ := Option.map_eq_some_iff.mp h
      exact not_isWhiteSpace_of_mantissa? hk
  | danglingExponent =>
      obtain ⟨k, hk, -⟩ := Option.bind_eq_some_iff.mp h
      exact not_isWhiteSpace_of_mantissa? hk
  | identifier =>
      simp only [matchLength?, identifier?] at h
      split at h
      · next hc => exact not_isWhiteSpace_of_isIdentifierStart hc
      · contradiction
  | punctuation =>
      have hmarks : punctuationMarks.all (!isWhiteSpace ·) = true := by decide
      simp only [matchLength?, punctuation?] at h
      split at h
      · next hc => simpa using List.all_eq_true.mp hmarks c (List.contains_iff_mem.mp hc)
      · contradiction
  | operator =>
      have hheads : operators.all (fun op => op.head?.any (!isWhiteSpace ·)) = true := by decide
      obtain ⟨op, hop, -⟩ := Option.map_eq_some_iff.mp h
      have hhead := List.all_eq_true.mp hheads op (List.mem_of_find?_eq_some hop)
      have hprefix := List.find?_some hop
      cases op with
      | nil => contradiction
      | cons d op =>
          have hd : d = c := by
            simp only [List.isPrefixOf, Bool.and_eq_true, beq_iff_eq] at hprefix
            exact hprefix.1
          simpa [hd] using hhead

end Lexeme

/-- White space has no tokens. -/
theorem Tokens.list_readFrom_of_isWhiteSpace (offset : Nat) (text : List Char)
    (h : ∀ c ∈ text, isWhiteSpace c = true) : (readFrom offset text).list = [] := by
  induction text generalizing offset with
  | nil => rw [readFrom]
  | cons c cs ih =>
      have hnone : Lexeme.longest? (c :: cs) = none := by
        rw [Lexeme.longest?_eq_none_iff]
        intro p
        rw [Option.eq_none_iff_forall_ne_some]
        intro n hn
        have := h c (by simp)
        rw [Lexeme.not_isWhiteSpace_of_matchLength? hn] at this
        contradiction
      rw [readFrom]
      split
      · exact ih _ (fun d hd => h d (List.mem_cons_of_mem _ hd))
      · split
        · rfl
        · next hsome =>
            rw [hnone] at hsome
            contradiction

theorem Tokens.list_read_of_isWhiteSpace {expression : String}
    (h : expression.toList.all isWhiteSpace) : (read expression).list = [] :=
  list_readFrom_of_isWhiteSpace 0 _ (List.all_eq_true.mp h)

/-! ## Replacements bring in no markup -/

/-- What a pass makes of a text is written with characters of the text and of the replacements. -/
theorem Edit.mem_of_applyFrom? {offset : Nat} {part out : List Char} {es : List Edit}
    (h : applyFrom? offset part es = some out) {c : Char} (hc : c ∈ out) :
    c ∈ part ∨ ∃ e ∈ es, c ∈ e.replacement.toList := by
  induction es generalizing offset part out with
  | nil =>
      obtain rfl : part = out := Option.some.inj h
      exact .inl hc
  | cons e es ih =>
      obtain ⟨front, gone, after, tail, rfl, -, -, htail, rfl⟩ := exists_of_applyFrom?_cons h
      simp only [List.mem_append] at hc ⊢
      obtain (hfront | hnew) | hmore := hc
      · exact .inl (.inl (.inl hfront))
      · exact .inr ⟨e, by simp, hnew⟩
      · obtain hafter | ⟨d, hd, hnew⟩ := ih htail hmore
        · exact .inl (.inr hafter)
        · exact .inr ⟨d, List.mem_cons_of_mem _ hd, hnew⟩

/-- A character that pipes are not written with, found after the filters are migrated, was there
before. -/
theorem RuleSet.notMem_migrateFilterChain (r : RuleSet) {c : Char} (hword : c ∉ pipeWords)
    (hdigit : c.isDigit = false) {expression : String} (position length : Nat)
    (h : c ∉ expression.toList) :
    c ∉ (r.migrateFilterChain expression position length).value.toList := by
  intro hc
  obtain ⟨out, hout, hvalue⟩ := Option.map_eq_some_iff.mp
    (r.value_migrateFilterChain expression position length)
  rw [← hvalue, String.toList_ofList] at hc
  obtain hmem | ⟨e, he, hmem⟩ := Edit.mem_of_applyFrom? hout hc
  · exact h hmem
  · obtain ⟨f, hf, hedit⟩ := List.mem_filterMap.mp he
    obtain ⟨new, hnew, rfl⟩ := Option.map_eq_some_iff.mp hedit
    obtain ⟨t, ht, htext⟩ | hmem | hmem := (pipeForm_of_migrateFilter hnew).mem hmem
    · exact h (Filter.mem_of_mem_text hf (List.mem_cons_of_mem _ ht) htext)
    · exact hword hmem
    · rw [hmem] at hdigit
      contradiction

/-! ## A template without markup -/

/-- A template without `<` is one run of text, if it is not empty. -/
theorem Node.parse_of_lt_notMem {source : String} (h : '<' ∉ source.toList) :
    parse source = if source.toList.isEmpty then [] else [.text ⟨source, 0⟩] := by
  have hscan : MarkupEvent.scan source = MarkupEvent.ofText 0 source.toList := by
    have happend := MarkupEvent.scanFrom_append h 0 0 [] []
    rw [List.append_nil, List.nil_append] at happend
    rw [MarkupEvent.scan, Cursor.ofText, happend, MarkupEvent.scanFrom]
  rw [parse, hscan, MarkupEvent.ofText]
  split
  · rfl
  · rw [String.ofList_toList]
    rfl

namespace RuleSet

variable {r : RuleSet}

/-- Without expression transforms, the changes of a text are those of its filters. -/
theorem textChanges_eq (hrules : r.expressionTransforms = []) (source : String) :
    r.textChanges ⟨source, 0⟩ =
      ⟨(r.filterEdits ⟨source, 0⟩).map (.ofEdit 0),
        (Filter.findAll (Tokens.read source).list).flatMap fun f =>
          (r.migrateFilter f f.start (f.stop - f.start)).messages⟩ := by
  have hnone : r.migrateExpression source 0 = ⟨[], []⟩ := by
    rw [migrateExpression, hrules]
    rfl
  rw [textChanges]
  split
  · next hblank =>
      have hlist := Tokens.list_read_of_isWhiteSpace hblank
      simp only [filterEdits, hlist]
      rw [Filter.findAll, Filter.findAfter]
      rfl
  · simp only [hnone, List.filter_nil, List.map_nil, Nat.zero_add, filterEdits, Filter.editsOf,
      List.filterMap_map, List.flatMap_map, List.map_filterMap]
    show (⟨_ ++ [], _ ++ []⟩ : Changes) = _
    rw [List.append_nil, List.append_nil]
    refine congrArg₂ Changes.mk (List.filterMap_congr ?_) rfl
    intro f _
    simp [SourceEdit.ofEdit, Function.comp_def]

/-- The changes of a template without markup are those of its text. -/
theorem forestChanges_parse_of_lt_notMem (r : RuleSet) {source : String}
    (h : '<' ∉ source.toList) :
    r.forestChanges (Node.parse source) = r.textChanges ⟨source, 0⟩ := by
  rw [Node.parse_of_lt_notMem h]
  split
  · next hempty =>
      have hblank : source.toList.all isWhiteSpace = true := by
        rw [List.isEmpty_iff.mp hempty]
        rfl
      rw [forestChanges, textChanges, if_pos hblank]
  · rw [forestChanges, forestChanges, nodeChanges]
    show (⟨_ ++ [], _ ++ []⟩ : Changes) = _
    rw [List.append_nil, List.append_nil]

/-- The edits of the filters make of a text what migrating its filters as a value makes of it. -/
theorem splices_filterEdits (r : RuleSet) (source : String) (position length : Nat) :
    Edit.Splices 0 source.toList (r.filterEdits ⟨source, 0⟩)
      (r.migrateFilterChain source position length).value.toList := by
  obtain ⟨out, hout, hvalue⟩ := Option.map_eq_some_iff.mp
    (r.value_migrateFilterChain source position length)
  have hreplacement : (fun f : Filter => (r.migrateFilter f position length).replacement) =
      fun f => (r.migrateFilter f (0 + f.start) (f.stop - f.start)).replacement := by
    funext f
    exact (r.migrateFilter_eq f _ _ _ _).1
  rw [← hvalue, String.toList_ofList, filterEdits, ← hreplacement]
  exact .of_applyFrom? hout

end RuleSet

/-- What a message says: its text, how serious it is, and its address. -/
def Message.content (m : Message) : String × Level × Option String := (m.text, m.level, m.url)

/-- What a placed message says. -/
def Diagnostic.content (d : Diagnostic) : String × Level × Option String :=
  (d.message, d.level, d.url)

/-- Sorting by level looks at what messages say only. -/
theorem Message.map_content_errorsFirst (ms : List Message) :
    (errorsFirst ms).map content =
      (ms.map content).filter (fun c => c.2.1 = .error) ++
        (ms.map content).filter (fun c => c.2.1 = .info) := by
  rw [errorsFirst, List.map_append, List.filter_map, List.filter_map]
  refine congrArg₂ (fun xs ys => xs.map content ++ ys.map content) (List.filter_congr ?_)
    (List.filter_congr ?_)
  · intro m _
    rfl
  · intro m _
    cases hlevel : m.level <;> simp [isError, content, hlevel]

theorem Message.anyError_congr {ms ns : List Message}
    (h : ms.map Message.content = ns.map Message.content) : anyError ms = anyError ns := by
  have hlevels : ∀ ms : List Message,
      anyError ms = (ms.map Message.content).any fun m => m.2.1 == .error := by
    intro ms
    rw [anyError, List.any_map]
    rfl
  rw [hlevels, hlevels, h]

/-- Where an expression stands decides only where the messages about its filters are. -/
theorem RuleSet.migrateFilterChain_eq (r : RuleSet) (expression : String)
    (position length position' length' : Nat) :
    (r.migrateFilterChain expression position length).value =
        (r.migrateFilterChain expression position' length').value ∧
      (r.migrateFilterChain expression position length).messages.map Message.content =
        (r.migrateFilterChain expression position' length').messages.map Message.content := by
  have hfilter := fun f => r.migrateFilter_eq f position length position' length'
  constructor
  · have hvalue := r.value_migrateFilterChain expression position length
    simp only [(hfilter _).1, r.value_migrateFilterChain expression position' length'] at hvalue
    exact (Option.some.inj hvalue).symm
  · simp only [migrateFilterChain, List.flatMap_map, List.map_flatMap]
    apply List.flatMap_congr
    intro f _
    exact (hfilter f).2

/-- **Filters in a text and in a value.**  Without expression transforms, migrating a template that
has no markup gives the text that migrating the filters of the whole text gives, and says the same:
the errors first, then the rest, each in the order of the filters. -/
theorem Session.migrate_eq_migrateFilterChain (rules : RuleSet) (source : String)
    (hsize : byteLength source ≤ Patch.maxOffset) (hmarkup : '<' ∉ source.toList)
    (hrules : rules.expressionTransforms = []) (position length : Nat) :
    ∃ m, ((start rules).migrate source).1 = .ok m ∧
      m.text = (rules.migrateFilterChain source position length).value ∧
      m.diagnostics.map Diagnostic.content =
        ((rules.migrateFilterChain source position length).messages.map Message.content).filter
            (fun c => c.2.1 = .error) ++
          ((rules.migrateFilterChain source position length).messages.map Message.content).filter
            (fun c => c.2.1 = .info) := by
  have hchanges := rules.forestChanges_parse_of_lt_notMem hmarkup
  rw [RuleSet.textChanges_eq hrules] at hchanges
  have hsplices : Edit.Splices 0 source.toList
      (rules.forestChanges (Node.parse source)).replacements
      (rules.migrateFilterChain source position length).value.toList := by
    rw [hchanges, Changes.replacements, SourceEdit.map_toEdit_ofEdit]
    have hshift : Edit.shift 0 = id := by
      funext e
      simp [Edit.shift]
    rw [hshift, List.map_id]
    exact rules.splices_filterEdits source position length
  refine ⟨_, Migration.ofTemplate_eq_of_splices rules hsize hsplices, ?_, ?_⟩
  · show VoidEndTag.strip _ = _
    rw [String.ofList_toList, VoidEndTag.strip,
      VoidEndTag.sweep_of_lt_notMem
        (rules.notMem_migrateFilterChain (by decide) (by decide) position length hmarkup),
      String.ofList_toList]
  · show ((Message.errorsFirst _).map _).map _ = _
    have hmessages : (rules.forestChanges (Node.parse source)).messages.map Message.content =
        (rules.migrateFilterChain source position length).messages.map Message.content := by
      rw [hchanges, RuleSet.migrateFilterChain]
      simp only [List.flatMap_map, List.map_flatMap]
      apply List.flatMap_congr
      intro f _
      exact (rules.migrateFilter_eq f _ _ _ _).2
    rw [List.map_map, ← hmessages, ← Message.map_content_errorsFirst]
    rfl

/-- Two filters, one of them refused, after a letter of two bytes and before a fault. -/
theorem Session.migrate_eq_migrateFilterChain_mixed :
    let rules : RuleSet := { RuleSet.default with expressionTransforms := [] }
    byteLength "é + a | limitTo:3:1 | orderBy | currency:'$' # b" ≤ Patch.maxOffset ∧
      '<' ∉ "é + a | limitTo:3:1 | orderBy | currency:'$' # b".toList ∧
      ∃ m, ((start rules).migrate "é + a | limitTo:3:1 | orderBy | currency:'$' # b").1 = .ok m ∧
        m.text = (rules.migrateFilterChain "é + a | limitTo:3:1 | orderBy | currency:'$' # b" 7
          9).value := by
  intro rules
  have hsize : byteLength "é + a | limitTo:3:1 | orderBy | currency:'$' # b" ≤ Patch.maxOffset := by
    decide
  have hmarkup : '<' ∉ "é + a | limitTo:3:1 | orderBy | currency:'$' # b".toList := by decide
  obtain ⟨m, hm, htext, -⟩ := migrate_eq_migrateFilterChain rules _ hsize hmarkup rfl 7 9
  exact ⟨hsize, hmarkup, m, hm, htext⟩

end TemplateMigration
