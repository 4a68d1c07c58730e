import TemplateMigration.Proofs.Expression.StringArguments
import TemplateMigration.Proofs.Migration.Blocking
import TemplateMigration.Proofs.Migration.Shape
import TemplateMigration.Proofs.Migration.ValueErrors
import TemplateMigration.Proofs.Migration.Visible

/-!
# TemplateMigration.Proofs.Migration.DefaultEdits

The edits of the built-in rules can be seen.

Each text that the rules put in starts with one of a few words (`landmarks`).  None of them is a
part of the name of a void element, so they are landmarks (`landmark_of_mem`), and what they start
never stood in the place where it is put: the old name of an attribute starts with an `n`, a tag
that is given a name has none, and a filter that is written like its pipe is not replaced.  A value
that is rewritten stands behind the new name of its attribute.  Together:
`shows_of_mem_forestChanges`.
-/

namespace TemplateMigration

open VoidEndTag (IsTag foldsTo)

/-! ## Landmarks -/

/-- A character that is no capital letter and none of the two others that fold to a letter. -/
def isPlainLetter (c : Char) : Bool := c.toLower == c && c != '\u212a' && c != '\u017f'

theorem eq_of_foldsTo {x c : Char} (h : foldsTo x c = true) (hc : isPlainLetter c = true) :
    x = c := by
  simp only [isPlainLetter, foldsTo, Bool.and_eq_true, Bool.or_eq_true, beq_iff_eq, bne_iff_ne]
    at h hc
  grind

/-- Plain letters fold to themselves. -/
theorem eq_of_forall₂_foldsTo {xs cs : List Char}
    (h : List.Forall₂ (fun x c => foldsTo x c = true) xs cs) (hcs : cs.all isPlainLetter = true) :
    xs = cs := by
  induction h with
  | nil => rfl
  | cons hx _ ih =>
      rw [List.all_cons, Bool.and_eq_true] at hcs
      rw [eq_of_foldsTo hx hcs.1, ih hcs.2]

theorem infix_of_infix_cons {mark xs : List Char} {c : Char} (hne : mark ≠ []) (hc : c ∉ mark)
    (h : mark <:+: c :: xs) : mark <:+: xs := by
  obtain ⟨d, mark, rfl⟩ := List.exists_cons_of_ne_nil hne
  obtain hhead | hmore := List.infix_cons_iff.mp h
  · obtain ⟨rfl, -⟩ := List.cons_prefix_cons.mp hhead
    simp at hc
  · exact hmore

theorem infix_of_infix_concat {mark xs : List Char} {c : Char} (hne : mark ≠ []) (hc : c ∉ mark)
    (h : mark <:+: xs ++ [c]) : mark <:+: xs := by
  rw [← List.reverse_infix, List.reverse_concat] at h
  rw [← List.reverse_infix]
  exact infix_of_infix_cons (by simpa using hne) (by simpa using hc) h

/-- A word of plain letters in a removable tag is a word in its name. -/
theorem VoidEndTag.IsTag.exists_name_of_mark {mark tag : List Char} (h : IsTag tag)
    (hne : mark ≠ []) (hout : ∀ c ∈ ['<', '/', '>'], c ∉ mark)
    (hplain : mark.all isPlainLetter = true) (hmark : mark <:+: tag) :
    ∃ name ∈ names, mark <:+: name := by
  obtain ⟨name, hname, letters, hletters, rfl⟩ := h
  have hslash := infix_of_infix_cons hne (hout '<' (by simp)) hmark
  have hconcat := infix_of_infix_cons hne (hout '/' (by simp)) hslash
  obtain ⟨before, after, rfl⟩ := infix_of_infix_concat hne (hout '>' (by simp)) hconcat
  rw [List.append_assoc] at hletters
  have hdrop := List.forall₂_drop_append name before (mark ++ after) hletters
  have htake := List.forall₂_take_append _ mark after hdrop
  refine ⟨name, hname, ?_⟩
  rw [← eq_of_forall₂_foldsTo htake hplain]
  exact (List.take_prefix _ _).isInfix.trans (List.drop_suffix _ _).isInfix

namespace RuleSet

/-- What the texts start with that the built-in rules put in. -/
def landmarks : List (List Char) :=
  ["[", "(", "*", "hre", "src", " ", "sli", "cur"].map String.toList

theorem landmark_of_mem {mark : List Char} (h : mark ∈ landmarks) : Landmark mark := by
  have hlengths : landmarks.all (fun mark => !mark.isEmpty && decide (mark.length ≤ 3)) = true := by
    decide
  have houtside : landmarks.all (fun mark =>
      ('<' :: '/' :: '>' :: Alias.word).all fun c => !mark.contains c) = true := by
    decide
  have hplain : landmarks.all (·.all isPlainLetter) = true := by decide
  have hnames : landmarks.all (fun mark =>
      VoidEndTag.names.all fun name => !decide (mark <:+: name)) = true := by
    decide
  have hlength := List.all_eq_true.mp hlengths mark h
  rw [Bool.and_eq_true, Bool.not_eq_true', List.isEmpty_eq_false_iff, decide_eq_true_eq] at hlength
  have hnotMem : ∀ c ∈ '<' :: '/' :: '>' :: Alias.word, c ∉ mark := by
    intro c hc
    simpa using List.all_eq_true.mp (List.all_eq_true.mp houtside mark h) c hc
  refine ⟨hlength.1, hlength.2, hnotMem, ?_⟩
  intro tag htag hmark
  have hout : ∀ c ∈ ['<', '/', '>'], c ∉ mark := fun c hc =>
    hnotMem c (List.mem_append_left Alias.word hc)
  obtain ⟨name, hname, hinside⟩ :=
    htag.exists_name_of_mark hlength.1 hout (List.all_eq_true.mp hplain mark h) hmark
  have hnot := List.all_eq_true.mp (List.all_eq_true.mp hnames mark h) name hname
  simp [hinside] at hnot

/-- Whether a text starts with a landmark and has no bracket. -/
def startsWithLandmark (text : String) : Bool :=
  landmarks.any (·.isPrefixOf text.toList) && !text.toList.contains '<' && !text.toList.contains '>'

/-- A text that starts so and did not stand in a place is seen there. -/
theorem marks_of_startsWithLandmark {source : List Char} {offset length : Nat} {lead rest : String}
    (hlead : startsWithLandmark lead = true) (h : ¬ OccursAt source offset lead.toList) :
    (Edit.mk offset length (lead ++ rest)).Marks source := by
  simp only [startsWithLandmark, Bool.and_eq_true, List.any_eq_true, Bool.not_eq_true',
    List.contains_eq_mem, decide_eq_false_iff_not] at hlead
  obtain ⟨⟨⟨mark, hmark, hstarts⟩, hlt⟩, hgt⟩ := hlead
  refine ⟨mark, lead.toList, landmark_of_mem hmark, List.isPrefixOf_iff_prefix.mp hstarts, hlt, hgt,
    ?_, h⟩
  rw [String.toList_append]
  exact List.prefix_append _ _

/-! ## Attributes -/

/-- A name that is changed starts with an `n`, and its new name starts with a landmark that is no
`n`. -/
theorem startsWithLandmark_of_rename? {name : String} {rule : Rename}
    (h : default.rename? name = some rule) :
    name.toList.head? = some 'n' ∧ startsWithLandmark rule.newName = true ∧
      rule.newName.toList.head?.all (·.toLower != 'n') = true := by
  have hall : defaultRenames.all (fun rule => rule.oldName.toList.head? == some 'n' &&
      startsWithLandmark rule.newName && rule.newName.toList.head?.all (·.toLower != 'n')) =
        true := by
    decide
  have hname : rule.oldName = name := by simpa using List.find?_some h
  have hrule := List.all_eq_true.mp hall rule (List.mem_of_find?_eq_some h)
  rw [hname, Bool.and_eq_true, Bool.and_eq_true, beq_iff_eq] at hrule
  exact ⟨hrule.1.1, hrule.1.2, hrule.2⟩

/-- The new name of an attribute did not stand where its name stands. -/
theorem marks_of_rename? {source : List Char} {a : Attribute} {rule : Rename}
    (h : default.rename? a.name = some rule) (hplaced : a.Placed source) :
    (Edit.mk a.start (byteLength a.name) rule.newName).Marks source := by
  obtain ⟨hhead, hlead, hnew⟩ := startsWithLandmark_of_rename? h
  rw [← String.append_empty (s := rule.newName)]
  refine marks_of_startsWithLandmark hlead ?_
  intro hoccurs
  obtain ⟨letters, hletters, hname, hat⟩ := hplaced.name
  obtain ⟨rest, rest', heq⟩ := hat.exists_append_eq hoccurs
  obtain ⟨c, letters, rfl⟩ := List.exists_cons_of_ne_nil hletters
  have hn : c.toLower = 'n' := by simpa [hname, MarkupEvent.lowerCase] using hhead
  cases hnewList : rule.newName.toList with
  | nil => simp [startsWithLandmark, landmarks, hnewList] at hlead
  | cons d new =>
      rw [hnewList] at heq hnew
      obtain ⟨rfl, -⟩ := List.cons.inj heq
      simp [hn] at hnew

/-- Edits of an expression drop aliases. -/
theorem dropsAlias_of_mem_offsets {source : List Char} {expression : String} {start offset : Nat}
    (hsource : OccursAt source start expression.toList)
    (h : offset ∈ Alias.offsets expression) :
    ((Alias.edit offset).shift start).DropsAlias source := by
  refine ⟨rfl, rfl, ?_⟩
  rw [Edit.offset_shift]
  exact hsource.trans (Alias.occursAt_of_mem_offsets h)

/-- A value whose attribute keeps its name only loses aliases. -/
theorem dropsAlias_of_mem_valueChanges {source : List Char} {a : Attribute} (h : a.Placed source)
    (hrename : default.rename? a.name = none) {e : Edit}
    (he : e ∈ (default.valueChanges a).replacements) : e.DropsAlias source := by
  rw [valueChanges_of_rename? hrename] at he
  split at he
  · rw [Changes.replacements, SourceEdit.map_toEdit_ofEdit, edits_migrateExpression_default,
      List.map_map] at he
    obtain ⟨offset, hoffset, rfl⟩ := List.mem_map.mp he
    exact dropsAlias_of_mem_offsets h.value hoffset
  · contradiction

/-- The edits of an attribute can be seen.  A new name stands in front of what becomes of the
value, and without a new name the value only loses aliases. -/
theorem shows_of_mem_attributeChanges {source : List Char} {a : Attribute} (h : a.Placed source)
    {e : Edit} (he : e ∈ (default.attributeChanges a).replacements) :
    e.Shows source (default.attributeChanges a).replacements := by
  rw [replacements_attributeChanges] at he ⊢
  split at he
  · contradiction
  · next hblocks =>
      rw [if_neg hblocks]
      rw [nameChanges] at he ⊢
      cases hrename : default.rename? a.name with
      | none =>
          simp only [hrename, Changes.replacements_none, List.append_nil] at he
          exact .inl (dropsAlias_of_mem_valueChanges h hrename he)
      | some rule =>
          have hmarks := marks_of_rename? hrename h
          rw [hrename] at he
          obtain hvalue | hname := List.mem_append.mp he
          · refine .inr (.inr ⟨_, List.mem_append_right _ (List.mem_singleton_self _), hmarks, ?_⟩)
            have hpos : 0 < byteLength a.name := by
              rw [byteLength, Nat.pos_iff_ne_zero, Ne, byteCount_eq_zero_iff]
              intro hnil
              simpa [hnil] using (startsWithLandmark_of_rename? hrename).1
            have hname := h.name_le
            have hle := ((default.laid_valueChanges h).within e hvalue).start_le
            show a.start < e.offset
            omega
          · obtain rfl := List.mem_singleton.mp hname
            exact .inr (.inl hmarks)

/-! ## Texts -/

section Filters

variable {source : List Char} {run : TextRun} {f : Filter}

/-- The name of a filter stands where the filter starts. -/
theorem occursAt_name (h : run.Placed source) (hf : f ∈ run.filters) :
    OccursAt source (run.start + f.start) f.name.text.toList :=
  h.occurs.trans ((tokensIn_read run.content).occursAt_of_mem
    (Filter.mem_findAll hf f.name (by simp [Filter.tokens])).1)

/-- What becomes of a `limitTo` filter starts with another letter. -/
theorem marks_slice (h : run.Placed source) (hf : f ∈ run.filters)
    (hname : f.name.text = "limitTo") (n : Nat) :
    (Edit.mk (run.start + f.start) n (PipeTransform.slice f)).Marks source := by
  have hnot : ¬ OccursAt source (run.start + f.start) "slice:".toList := by
    intro hoccurs
    have hat := occursAt_name h hf
    rw [hname] at hat
    obtain ⟨rest, rest', heq⟩ := hat.exists_append_eq hoccurs
    have hhead : 'l' = 's' := (List.cons.inj heq).1
    contradiction
  have hslice : ∃ rest, PipeTransform.slice f = "slice:" ++ rest := by
    rw [PipeTransform.slice]
    split
    · exact ⟨_, by rw [String.append_assoc, String.append_assoc]⟩
    · exact ⟨"0", by decide⟩
  obtain ⟨rest, hrest⟩ := hslice
  rw [hrest]
  exact marks_of_startsWithLandmark (by decide) hnot

/-- Where a filter is written as `currency:'USD':`, this is its first argument. -/
theorem exists_of_occursAt_currency (h : run.Placed source) (hf : f ∈ run.filters)
    (hname : f.name.text = "currency") {arg : Token} {args : List Token}
    (hargs : f.args = arg :: args) {more : List Char}
    (hoccurs : OccursAt source (run.start + f.start) ("currency:'USD'".toList ++ more)) :
    arg.string? = some "USD" ∧ OccursAt source (run.start + arg.stop) more ∧
      ∃ rest, Tokens.RestAt run.content arg.stop rest ∧
        (Filter.readArgs rest).1 = some args := by
  obtain ⟨ts, hts, hread⟩ := Filter.exists_of_mem_findAll hf
  rw [hargs] at hread
  have hstop : f.name.stop = f.start + 8 := by
    rw [Token.stop, hname]
    rfl
  have hcolon : OccursAt source (run.start + f.name.stop)
      (':' :: '\'' :: (['U', 'S', 'D'] ++ '\'' :: more)) := by
    rw [hstop, ← Nat.add_assoc]
    exact hoccurs.trans ⟨"currency".toList, [], by simp, rfl⟩
  exact hts.string?_of_occursAt hread h.occurs hcolon (by decide) (by decide) (by decide)

theorem fractionDigits?_of_string? {t : Token} {s : String} (h : t.string? = some s) :
    PipeTransform.fractionDigits? t =
      (PipeTransform.countOfText? s).filter (· ≤ PipeTransform.maxFractionDigits) := by
  unfold Token.string? at h
  split at h
  · next hkind =>
      obtain rfl := Option.some.inj h
      rw [PipeTransform.fractionDigits?, hkind]
  · contradiction

/-- What becomes of a `currency` filter did not stand where the filter stands: the arguments would
then be a code, or a text that is no number of digits. -/
theorem marks_currency (h : run.Placed source) (hf : f ∈ run.filters)
    (hname : f.name.text = "currency") (hne : PipeTransform.currencyPipe f ≠ f.chain) (n : Nat) :
    (Edit.mk (run.start + f.start) n (PipeTransform.currencyPipe f)).Marks source := by
  rw [PipeTransform.currencyPipe] at hne ⊢
  split at hne
  · next symbol hargs =>
      split at hne
      · contradiction
      · next hcode =>
          rw [if_neg hcode]
          refine marks_of_startsWithLandmark (by decide) ?_
          have hlead : "currency:'USD':".toList = "currency:'USD'".toList ++ [':'] := by decide
          rw [hlead]
          intro hoccurs
          obtain ⟨husd, -⟩ := exists_of_occursAt_currency h hf hname hargs hoccurs
          rw [husd, Option.getD_some] at hcode
          exact hcode (by decide)
  · next code digits hargs =>
      split at hne
      · next count hcount =>
          refine marks_of_startsWithLandmark (by decide) ?_
          have hlead : "currency:'USD':'symbol':".toList = "currency:'USD'".toList ++
              (':' :: '\'' :: ("symbol".toList ++ '\'' :: [':'])) := by
            decide
          rw [hlead]
          intro hoccurs
          obtain ⟨-, hmore, rest, hrest, hread⟩ :=
            exists_of_occursAt_currency h hf hname hargs hoccurs
          obtain ⟨hsymbol, -⟩ := hrest.string?_of_occursAt hread h.occurs hmore (by decide)
            (by decide) (by decide)
          have hnone : PipeTransform.countOfText? (String.ofList "symbol".toList) = none := by
            decide
          rw [fractionDigits?_of_string? hsymbol, hnone] at hcount
          contradiction
      · contradiction
  · contradiction

end Filters

/-- What replaces a filter did not stand where the filter stands. -/
theorem marks_of_migrateFilter {source : List Char} {run : TextRun} (h : run.Placed source)
    {f : Filter} (hf : f ∈ run.filters) {position length : Nat} {new : String}
    (hnew : (default.migrateFilter f position length).replacement = some new) (n : Nat) :
    (Edit.mk (run.start + f.start) n new).Marks source := by
  obtain ⟨transform, htransform, hne, rfl⟩ := exists_of_replacement hnew
  obtain ⟨hname, rfl⟩ | ⟨hname, rfl⟩ := transform_of_pipeTransform? htransform
  · exact marks_currency h hf hname hne n
  · exact marks_slice h hf hname n

/-- The edits of a run of text replace filters and drop aliases. -/
theorem shows_of_mem_textChanges {source : List Char} {run : TextRun} (h : run.Placed source)
    {e : Edit} (he : e ∈ (default.textChanges run).replacements) (es : List Edit) :
    e.Shows source es := by
  rw [Changes.replacements] at he
  obtain hnone | hedits := default.edits_textChanges run
  · simp [hnone] at he
  · rw [hedits, SourceEdit.map_toEdit_ofEdit] at he
    obtain ⟨d, hd, rfl⟩ := List.mem_map.mp he
    obtain hfilter | hclear := List.mem_append.mp hd
    · obtain ⟨f, hf, hedit⟩ := List.mem_filterMap.mp hfilter
      obtain ⟨new, hnew, rfl⟩ := Option.map_eq_some_iff.mp hedit
      exact .inr (.inl (marks_of_migrateFilter h hf hnew _))
    · obtain ⟨offset, hoffset, rfl⟩ := exists_of_mem_clearEdits hclear
      exact .inl (dropsAlias_of_mem_offsets h.occurs hoffset)

end RuleSet

/-! ## Start tags -/

theorem name_readAttribute (c : Cursor) :
    (MarkupEvent.readAttribute c).1.name =
      MarkupEvent.lowerCase (c.rest.take (MarkupEvent.nameLength c)) := by
  rw [MarkupEvent.readAttribute]
  dsimp only
  split <;> rfl

/-- An attribute that is written `name=` has that name. -/
theorem WrittenAttribute.Reads.name_eq {a : WrittenAttribute} {rest more : List Char}
    (h : a.Reads rest) (heq : a.render ++ rest = "name".toList ++ '=' :: more) :
    a.name = "name" := by
  have hlength : MarkupEvent.nameLength ⟨0, "name".toList ++ '=' :: more⟩ = 4 :=
    MarkupEvent.nameLength_of_isName (by decide) rfl 0
  have hread := name_readAttribute ⟨0, "name".toList ++ '=' :: more⟩
  rw [hlength, ← heq, MarkupEvent.readAttribute_of_reads h] at hread
  rw [heq] at hread
  exact hread

namespace TagPart

variable {ps : List TagPart} {rest cs : List Char} {c : Char}

/-- Where the parts of a tag go on with a blank, there is a gap. -/
theorem exists_gap_of_isTagBlank (h : ReadsAll rest ps)
    (hrest : ∀ d ∈ rest.head?, d = '>' ∨ d = '/') (heq : spell ps ++ rest = c :: cs)
    (hc : isTagBlank c = true) :
    ∃ more, ps = gap c :: more ∧ ReadsAll rest more ∧ spell more ++ rest = cs := by
  cases ps with
  | nil =>
      have hhead : rest = c :: cs := heq
      obtain rfl | rfl := hrest c (by simp [hhead]) <;> contradiction
  | cons p ps =>
      cases p with
      | gap d =>
          obtain ⟨rfl, hmore⟩ := List.cons.inj heq
          exact ⟨ps, rfl, h.2, hmore⟩
      | attr a =>
          obtain ⟨d, letters, hletters, hd⟩ := h.1.1.exists_start
          have hhead : d = c := by
            have hspell : a.render ++ (spell ps ++ rest) = c :: cs := by
              rw [← heq]
              simp [spell, render]
            rw [WrittenAttribute.render, hletters] at hspell
            exact (List.cons.inj hspell).1
          rw [hhead] at hd
          exact absurd hc (Bool.eq_false_iff.mp (isAttributeNameStart_iff.mp hd).1)

/-- Where they go on with the start of a name, there is an attribute. -/
theorem exists_attr_of_isAttributeNameStart (h : ReadsAll rest ps)
    (hrest : ∀ d ∈ rest.head?, d = '>' ∨ d = '/') (heq : spell ps ++ rest = c :: cs)
    (hc : isAttributeNameStart c = true) :
    ∃ a more, ps = attr a :: more ∧ a.Reads (spell more ++ rest) := by
  cases ps with
  | nil =>
      have hhead : rest = c :: cs := heq
      obtain rfl | rfl := hrest c (by simp [hhead]) <;> contradiction
  | cons p ps =>
      cases p with
      | gap d =>
          obtain ⟨rfl, -⟩ := List.cons.inj heq
          obtain ⟨hblank, hslash, -⟩ := isAttributeNameStart_iff.mp hc
          obtain hd | ⟨hd, -⟩ := h.1
          · exact absurd hd (Bool.eq_false_iff.mp hblank)
          · exact absurd hd hslash
      | attr a => exact ⟨a, ps, rfl, h.1⟩

end TagPart

/-- A tag that goes on with ` name=` behind its name has an attribute of that name. -/
theorem WrittenTag.Reads.name_mem_names {t : WrittenTag} {rest more : List Char} (h : t.Reads rest)
    (heq : TagPart.spell t.parts ++ (t.ending ++ rest) = ' ' :: ("name".toList ++ '=' :: more)) :
    "name" ∈ TagPart.names t.parts := by
  have hends : ∀ d ∈ (t.ending ++ rest).head?, d = '>' ∨ d = '/' := by
    obtain hending | hending | ⟨hending, hnil⟩ := h.ending
    · simp [hending]
    · simp [hending]
    · simp [hending, hnil]
  obtain ⟨ps, hparts, hps, hspell⟩ :=
    TagPart.exists_gap_of_isTagBlank h.parts hends heq (by decide)
  obtain ⟨a, ps, rfl, ha⟩ :=
    TagPart.exists_attr_of_isAttributeNameStart hps hends hspell (by decide)
  have hname : a.name = "name" := by
    refine ha.name_eq (Eq.trans ?_ hspell)
    simp [TagPart.spell, TagPart.render]
  simp [hparts, TagPart.names, hname]

namespace RuleSet

variable {source : String} {tag : StartTag} {e : Edit}

/-- A form model is given a name where none stood. -/
theorem marks_of_mem_modelNameChanges (h : .tag tag ∈ Node.contents (Node.parse source))
    (he : e ∈ (modelNameChanges tag).replacements) : e.Marks source.toList := by
  obtain ⟨before, t, rest, hsource, hreads, rfl⟩ := exists_writtenTag_of_mem_contents h
  rw [replacements_modelNameChanges] at he
  obtain ⟨name, hname, rfl⟩ := List.mem_map.mp he
  rw [String.append_assoc]
  refine marks_of_startsWithLandmark (by decide) ?_
  intro hoccurs
  have hsplit : source.toList = (before ++ '<' :: t.letters) ++
      (TagPart.spell t.parts ++ (t.ending ++ rest)) := by
    rw [hsource, WrittenTag.render]
    simp
  rw [hsplit, WrittenTag.nameStop_located, ← byteCount_append] at hoccurs
  obtain ⟨more, hmore⟩ := hoccurs.starts
  have hwritten : TagPart.spell t.parts ++ (t.ending ++ rest) =
      ' ' :: ("name".toList ++ '=' :: '"' :: more) := by
    rw [← hmore]
    rfl
  exact WrittenTag.name_notMem_of_newName? (Option.mem_toList.mp hname)
    (hreads.name_mem_names hwritten)

/-- The edits of a start tag can be seen. -/
theorem shows_of_mem_tagChanges (h : .tag tag ∈ Node.contents (Node.parse source))
    (he : e ∈ (default.tagChanges tag).replacements) :
    e.Shows source.toList (default.tagChanges tag).replacements := by
  obtain ⟨stop, -, hplaced⟩ := placed_of_mem_contents_parse h
  rw [tagChanges, Changes.replacements_append] at he ⊢
  obtain hattributes | hmodel := List.mem_append.mp he
  · obtain ⟨edit, hedit, rfl⟩ := List.mem_map.mp hattributes
    obtain ⟨changes, hchanges, hedit⟩ := List.mem_flatMap.mp hedit
    obtain ⟨a, ha, rfl⟩ := List.mem_map.mp hchanges
    have hshows := shows_of_mem_attributeChanges (hplaced.attributes.placed_of_mem ha)
      (List.mem_map_of_mem hedit)
    refine hshows.mono ?_
    intro d hd
    obtain ⟨edit', hedit', rfl⟩ := List.mem_map.mp hd
    exact List.mem_append_left _ (List.mem_map_of_mem (List.mem_flatMap.mpr ⟨_, hchanges, hedit'⟩))
  · exact .inr (.inl (marks_of_mem_modelNameChanges h hmodel))

/-- **Every edit of the built-in rules can be seen.** -/
theorem shows_of_mem_forestChanges
    (he : e ∈ (default.forestChanges (Node.parse source)).replacements) :
    e.Shows source.toList (default.forestChanges (Node.parse source)).replacements := by
  have hperm := default.perm_replacements_forestChanges (Node.parse source)
  obtain ⟨i, hi, he⟩ := List.mem_flatMap.mp (hperm.mem_iff.mp he)
  have hmem : ∀ d ∈ (default.itemChanges i).replacements,
      d ∈ (default.forestChanges (Node.parse source)).replacements := fun d hd =>
    hperm.mem_iff.mpr (List.mem_flatMap.mpr ⟨i, hi, hd⟩)
  cases i with
  | text run => exact shows_of_mem_textChanges (placed_of_mem_contents_parse hi) he _
  | tag tag => exact (shows_of_mem_tagChanges hi he).mono hmem

end RuleSet

end TemplateMigration
