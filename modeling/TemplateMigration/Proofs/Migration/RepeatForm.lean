import TemplateMigration.Proofs.Expression.RepeatText
import TemplateMigration.Proofs.Migration.FilterChain

/-!
# TemplateMigration.Proofs.Migration.RepeatForm

The repeat expressions that can be migrated.

A plain repeat expression is a name and a collection with `in` between them (`PlainRepeat`).  What
is migrated has this form.  The other way round the reading has choices: white space takes what it
can, a part takes as little as it can, and what looks like a further clause is tried first.  They
come to the parts of a plain expression if the collection has no white space at its ends and no word
of a clause that stands alone in it (`PlainRepeat.Bare`): every shorter item or collection then
leaves something that cannot be read, which is all `Reading.part_append` asks for.
-/

namespace TemplateMigration

/-! ## Steps that succeed -/

namespace Reading

variable {α : Type} {next : List Char → Option α} {ws rest : List Char} {result : α}

/-- White space takes all of itself if nothing of it follows. -/
theorem blanks_append (hws : ws.all isWhiteSpace = true)
    (hrest : rest.head?.all (!isWhiteSpace ·) = true) (h : next rest = some result) :
    blanks next (ws ++ rest) = some result := by
  induction ws with
  | nil =>
      cases rest with
      | nil => exact h
      | cons c rest =>
          have hc : isWhiteSpace c = false := by simpa using hrest
          rw [List.nil_append, blanks, hc]
          exact h
  | cons c ws ih =>
      obtain ⟨hc, hws⟩ := Bool.and_eq_true_iff.mp hws
      rw [List.cons_append, blanks, if_pos hc, ih hws]
      rfl

theorem someBlanks_append (hws : IsGap ws) (hrest : rest.head?.all (!isWhiteSpace ·) = true)
    (h : next rest = some result) : someBlanks next (ws ++ rest) = some result := by
  obtain ⟨hne, hblank⟩ := hws
  cases ws with
  | nil => contradiction
  | cons c ws =>
      obtain ⟨hc, hws⟩ := Bool.and_eq_true_iff.mp hblank
      rw [List.cons_append, someBlanks, if_pos hc]
      exact blanks_append hws hrest h

theorem someBlanks_eq_none (hrest : rest.head?.all (!isWhiteSpace ·) = true) :
    someBlanks next rest = none := by
  cases rest with
  | nil => rfl
  | cons c rest =>
      have hc : isWhiteSpace c = false := by simpa using hrest
      rw [someBlanks, hc]
      rfl

theorem word_append (w rest : List Char) : word w next (w ++ rest) = next rest := by
  rw [word, if_pos (List.isPrefixOf_iff_prefix.mpr (List.prefix_append w rest)), List.drop_left]

theorem finish_append_eq_none {cs : List Char} (hne : cs ≠ [])
    (hlast : cs.getLast?.all (!isWhiteSpace ·) = true) : finish result (cs ++ rest) = none := by
  obtain ⟨last, hsome⟩ := Option.isSome_iff_exists.mp (List.getLast?_isSome.mpr hne)
  have hvisible : isWhiteSpace last = false := by simpa [hsome] using hlast
  rw [finish, if_neg]
  intro hblank
  have hlastBlank := List.all_eq_true.mp hblank last
    (List.mem_append_left _ (List.mem_of_getLast? hsome))
  rw [hvisible] at hlastBlank
  contradiction

/-- A part is the shortest text after which reading can go on. -/
theorem part_append {next : List Char → List Char → Option α} {taken found : List Char}
    (hfound : found ≠ [])
    (hshorter : ∀ front back, found = front ++ back → back ≠ [] →
      next (taken ++ front) (back ++ rest) = none)
    (h : next (taken ++ found) rest = some result) :
    part next taken (found ++ rest) = some result := by
  induction found generalizing taken with
  | nil => contradiction
  | cons c found ih =>
      rw [List.cons_append, part]
      by_cases hnil : found = []
      · rw [hnil] at h ⊢
        rw [List.nil_append, h]
        rfl
      · rw [hshorter [c] found rfl hnil]
        apply ih hnil
        · intro front back hsplit hback
          have hnone := hshorter (c :: front) back (by rw [hsplit]; rfl) hback
          simpa using hnone
        · simpa using h

end Reading

/-! ## Names and words -/

/-- The ranges of word characters lie between pieces of white space. -/
theorem wordRanges_apart :
    (wordRanges.all fun (first, last) =>
      (13 < first && last < 0x20) || (0x20 < first && last < 0x85) ||
      (0x85 < first && last < 0xa0) || (0xa0 < first && last < 0x1680) ||
      (0x1680 < first && last < 0x2000) || (0x200a < first && last < 0x2028) ||
      (0x2029 < first && last < 0x202f) || (0x202f < first && last < 0x205f) ||
      (0x205f < first && last < 0x3000) || 0x3000 < first) = true := by
  decide +kernel

theorem RepeatItem.not_isWhiteSpace_of_isNameChar {c : Char} (h : isNameChar c = true) :
    isWhiteSpace c = false := by
  obtain hdollar | hword := Bool.or_eq_true_iff.mp h
  · obtain rfl := eq_of_beq hdollar
    rfl
  · obtain ⟨⟨first, last⟩, hrange, hin⟩ := List.any_eq_true.mp hword
    have hapart := List.all_eq_true.mp wordRanges_apart _ hrange
    simp only [isWhiteSpace, Bool.or_eq_false_iff, Bool.and_eq_false_imp, Bool.or_eq_true,
      Bool.and_eq_true, decide_eq_true_eq, decide_eq_false_iff_not, beq_eq_false_iff_ne,
      ne_eq] at hin hapart ⊢
    omega

/-- A word has white space before it in a text, and white space or the end of the text after it. -/
def StandsAlone (w cs : List Char) : Prop :=
  ∃ before blank after, cs = before ++ blank :: (w ++ after) ∧ isWhiteSpace blank = true ∧
    after.head?.all isWhiteSpace = true

namespace StandsAlone

variable {w cs : List Char}

theorem append_left (front : List Char) (h : StandsAlone w cs) : StandsAlone w (front ++ cs) := by
  obtain ⟨before, blank, after, rfl, hblank, hafter⟩ := h
  exact ⟨front ++ before, blank, after, by simp, hblank, hafter⟩

/-- A word between gaps does not reach into the white space at the end of a text. -/
theorem of_append {trail before after rest : List Char} (last : Char)
    (hlast : w.getLast? = some last) (hvisible : isWhiteSpace last = false)
    (htrail : trail.all isWhiteSpace = true)
    (hbefore : IsGap before) (hafter : IsGap after)
    (h : cs ++ trail = before ++ (w ++ (after ++ rest))) : StandsAlone w cs := by
  obtain ⟨front, blank, rfl⟩ := List.eq_nil_or_concat before |>.resolve_left hbefore.ne_nil
  have hblank : isWhiteSpace blank = true :=
    List.all_eq_true.mp hbefore.blank blank (by simp)
  rw [← List.append_assoc] at h
  obtain ⟨more, hover, rfl⟩ | ⟨more, rfl, hmore⟩ := List.append_eq_append_iff.mp h
  · by_cases hnil : more = []
    · exact ⟨front, blank, [], by simpa [hnil] using hover.symm, hblank, rfl⟩
    · have hmem : last ∈ more := by
        apply List.mem_of_getLast?
        rw [← List.getLast?_append_of_ne_nil cs hnil, ← hover,
          List.getLast?_append_of_ne_nil _ (List.getLast?_isSome.mp (by simp [hlast])), hlast]
      have hblankLast := List.all_eq_true.mp htrail last (by simp [hmem])
      rw [hvisible] at hblankLast
      contradiction
  · refine ⟨front, blank, more, by simp, hblank, ?_⟩
    cases more with
    | nil => rfl
    | cons c more =>
        have hhead : after.head? = some c := by
          rw [← List.head?_append_of_ne_nil after hafter.ne_nil, hmore]
          rfl
        exact List.all_eq_true.mp hafter.blank c (List.mem_of_head? hhead)

end StandsAlone

/-- Neither `as` nor `track by` stands alone in a text. -/
structure ClauseFree (cs : List Char) : Prop where
  no_name : ¬ StandsAlone ['a', 's'] cs
  no_key : ∀ gap, IsGap gap → ¬ StandsAlone (['t', 'r', 'a', 'c', 'k'] ++ (gap ++ ['b', 'y'])) cs

theorem ClauseFree.of_suffix {cs back : List Char} (h : ClauseFree cs) (hback : back <:+ cs) :
    ClauseFree back := by
  obtain ⟨front, rfl⟩ := hback
  exact ⟨fun hname => h.no_name (hname.append_left front),
    fun gap hgap hkey => h.no_key gap hgap (hkey.append_left front)⟩

/-! ## Plain expressions -/

/-- A repeat expression without further clauses, part by part. -/
structure PlainRepeat where
  lead : List Char
  item : List Char
  before : List Char
  after : List Char
  collection : List Char
  trail : List Char
  lead_blank : lead.all isWhiteSpace = true
  item_ne_nil : item ≠ []
  item_name : item.all RepeatItem.isNameChar = true
  gap_before : IsGap before
  gap_after : IsGap after
  collection_ne_nil : collection ≠ []
  trail_blank : trail.all isWhiteSpace = true

namespace PlainRepeat

/-- The text of a plain expression. -/
def text (p : PlainRepeat) : String :=
  String.ofList (p.lead ++ (p.item ++ (p.before ++ (['i', 'n'] ++ (p.after ++
    (p.collection ++ p.trail))))))

/-- The migrated text: a declaration over the collection with its filters migrated. -/
def migrated (p : PlainRepeat) (r : RuleSet) (position length : Nat) : String :=
  "let " ++ String.ofList p.item ++ " of " ++
    (r.migrateFilterChain (String.ofList p.collection) position length).value

/-- The collection begins and ends with a character that is no white space, and neither `as` nor
`track by` stands alone in it. -/
structure Bare (p : PlainRepeat) : Prop extends ClauseFree p.collection where
  head : p.collection.head?.all (!isWhiteSpace ·) = true
  last : p.collection.getLast?.all (!isWhiteSpace ·) = true

end PlainRepeat

namespace RepeatExpression

open Reading

/-- Where no clause stands, only the end of the text can follow. -/
theorem readName_append (e : RepeatExpression) {cs trail : List Char} (hfree : ClauseFree cs)
    (htrail : trail.all isWhiteSpace = true) :
    readName e (cs ++ trail) = finish e (cs ++ trail) := by
  have hnoName : ∀ next : List Char → Option RepeatExpression,
      someBlanks (word ['a', 's'] (someBlanks next)) (cs ++ trail) = none := by
    intro next
    rw [Option.eq_none_iff_forall_ne_some]
    intro found h
    obtain ⟨before, after, rest, hsplit, hbefore, hafter, -⟩ := exists_of_spaced h
    exact hfree.no_name (.of_append 's' rfl rfl htrail hbefore hafter hsplit)
  have hnoKey : ∀ next : List Char → Option RepeatExpression,
      someBlanks (word ['t', 'r', 'a', 'c', 'k'] (someBlanks (word ['b', 'y'] (someBlanks next))))
        (cs ++ trail) = none := by
    intro next
    rw [Option.eq_none_iff_forall_ne_some]
    intro found h
    obtain ⟨before, rest, hsplit, hbefore, h⟩ := exists_of_someBlanks h
    obtain ⟨rest, rfl, h⟩ := exists_of_word h
    obtain ⟨gap, after, rest, rfl, hgap, hafter, -⟩ := exists_of_spaced h
    refine hfree.no_key gap hgap
      (.of_append 'y' ?_ rfl htrail hbefore hafter (by simpa using hsplit))
    rw [List.getLast?_append_of_ne_nil _ (by simp), List.getLast?_append_of_ne_nil _ (by simp)]
    rfl
  rw [readName, hnoName, readTrackBy, hnoKey]
  rfl

/-- The parts of a bare expression are the ones that are read. -/
theorem parse?_text {p : PlainRepeat} (h : p.Bare) :
    parse? p.text = some ⟨p.item, p.collection, none, none⟩ := by
  have hitem : ∀ {back : List Char} (rest : List Char), back <:+ p.item → back ≠ [] →
      (back ++ rest).head?.all (!isWhiteSpace ·) = true := by
    intro back rest hback hne
    obtain ⟨c, back, rfl⟩ := List.exists_cons_of_ne_nil hne
    have hc := List.all_eq_true.mp p.item_name c (hback.subset List.mem_cons_self)
    simp [RepeatItem.not_isWhiteSpace_of_isNameChar hc]
  have hfree : ∀ {back : List Char}, back <:+ p.collection → ClauseFree back :=
    fun hback => h.toClauseFree.of_suffix hback
  rw [parse?, PlainRepeat.text, String.toList_ofList]
  apply blanks_append p.lead_blank
  · exact hitem _ (List.suffix_refl _) p.item_ne_nil
  apply part_append p.item_ne_nil
  · intro front back hsplit hback
    -- a shorter item leaves a character of the name where white space is asked for
    exact someBlanks_eq_none (hitem _ ⟨front, hsplit.symm⟩ hback)
  apply someBlanks_append p.gap_before rfl
  rw [word_append]
  apply someBlanks_append p.gap_after
  · rw [List.head?_append_of_ne_nil _ p.collection_ne_nil]
    exact h.head
  apply part_append p.collection_ne_nil
  · intro front back hsplit hback
    -- a shorter collection leaves its last character, and no clause to which that could belong
    have hlast := h.last
    rw [hsplit, List.getLast?_append_of_ne_nil _ hback] at hlast
    rw [readName_append _ (hfree ⟨front, hsplit.symm⟩) p.trail_blank]
    exact finish_append_eq_none hback hlast
  · have hend := readName_append ⟨p.item, p.collection, none, none⟩ (hfree List.nil_suffix)
      p.trail_blank
    rw [List.nil_append, finish, if_pos p.trail_blank] at hend
    exact hend

end RepeatExpression

/-! ## Migrating them -/

namespace RepeatItem

/-- A name on its own is a single loop variable. -/
theorem parse?_of_isNameChar {name : List Char} (hne : name ≠ [])
    (hname : name.all isNameChar = true) : parse? name = some (single name) := by
  obtain ⟨c, cs, rfl⟩ := List.exists_cons_of_ne_nil hne
  have hc := not_isWhiteSpace_of_isNameChar (List.all_eq_true.mp hname c List.mem_cons_self)
  have htrim : trimStart (c :: cs) = c :: cs := by
    rw [trimStart, List.dropWhile_cons, hc]
    rfl
  rw [parse?, htrim, hname]
  rfl

/-- An item that is one name is the name after white space. -/
theorem exists_of_parse?_single {cs name : List Char} (h : parse? cs = some (single name)) :
    ∃ lead, cs = lead ++ name ∧ lead.all isWhiteSpace = true ∧ name ≠ [] ∧
      name.all isNameChar = true := by
  obtain ⟨hitem, hne, hname⟩ | hpair := of_parse? h
  · obtain rfl := single.inj hitem
    exact ⟨cs.takeWhile isWhiteSpace, List.takeWhile_append_dropWhile.symm, List.all_takeWhile,
      hne, hname⟩
  · obtain ⟨key, rest, value, rest', hitem, -⟩ := exists_of_readPair? hpair
    contradiction

end RepeatItem

/-- The form of an expression is at fault unless it has one name, and no clause. -/
theorem anyError_repeatFaults_eq_false_iff {e : RepeatExpression} {item : RepeatItem}
    {start length : Nat} :
    Message.anyError (repeatFaults e item start length) = false ↔
      e.name = none ∧ e.trackBy = none ∧ ∃ name, item = .single name := by
  obtain ⟨_, _, name, key⟩ := e
  cases item <;> cases name <;> cases key <;> simp [repeatFaults, Message.anyError, Message.isError]

/-- An expression with one name, and no clause, is plain. -/
theorem PlainRepeat.exists_of_parse? {text : String} {e : RepeatExpression} {name : List Char}
    (h : RepeatExpression.parse? text = some e) (hname : e.name = none) (hkey : e.trackBy = none)
    (hitem : RepeatItem.parse? e.item = some (.single name)) :
    ∃ p : PlainRepeat, p.text = text ∧ p.item = name ∧ p.collection = e.collection := by
  obtain ⟨lead, before, after, rest, htext, hlead, -, hbefore, hafter, hcollection, hrest⟩ :=
    RepeatExpression.exists_of_parse? h
  obtain ⟨front, hfront, hblank, hne, hchars⟩ := RepeatItem.exists_of_parse?_single hitem
  -- white space that was read as the start of the item belongs to the lead
  refine ⟨⟨lead ++ front, name, before, after, e.collection, rest, ?_, hne, hchars, hbefore,
    hafter, hcollection, hrest hname hkey⟩, ?_, rfl, rfl⟩
  · rw [List.all_append, hlead, hblank]
    rfl
  · rw [PlainRepeat.text, ← String.ofList_toList (s := text), htext, hfront]
    simp only [List.append_assoc]

namespace RuleSet

/-- Whether a filter chain has an error does not depend on where it stands. -/
theorem anyError_migrateFilterChain (r : RuleSet) (expression : String)
    (position length position' length' : Nat) :
    Message.anyError (r.migrateFilterChain expression position length).messages =
      Message.anyError (r.migrateFilterChain expression position' length').messages :=
  Message.anyError_congr (r.migrateFilterChain_eq expression position length position' length').2

/-- A repeat expression is kept with an error, or its parts are migrated without one. -/
theorem repeatToFor_cases (r : RuleSet) (value : String) (start : Nat) :
    (Message.anyError (r.repeatToFor value start).messages = true ∧
        (r.repeatToFor value start).value = value) ∨
      ∃ e item, RepeatExpression.parse? value = some e ∧ RepeatItem.parse? e.item = some item ∧
        Message.anyError (r.repeatToFor value start).messages = false ∧
        Message.anyError (repeatFaults e item start (byteLength value)) = false ∧
        (r.repeatToFor value start).value = "let " ++ String.ofList item.valueName ++ " of " ++
          (r.migrateFilterChain (String.ofList e.collection) start (byteLength value)).value := by
  rw [repeatToFor]
  dsimp only
  split
  · exact .inl ⟨rfl, rfl⟩
  · next e he =>
      split
      · exact .inl ⟨rfl, rfl⟩
      · next item hitem =>
          split
          · next herror => exact .inl ⟨herror, rfl⟩
          · next hnone =>
              have hmessages := Bool.eq_false_iff.mpr hnone
              refine .inr ⟨e, item, he, hitem, hmessages, ?_, rfl⟩
              rw [Message.anyError, List.any_append, Bool.or_eq_false_iff] at hmessages
              exact hmessages.1

theorem repeatToFor_text (r : RuleSet) {p : PlainRepeat} (start : Nat) {position length : Nat}
    (hbare : p.Bare)
    (hchain : Message.anyError
      (r.migrateFilterChain (String.ofList p.collection) position length).messages = false) :
    Message.anyError (r.repeatToFor p.text start).messages = false ∧
      (r.repeatToFor p.text start).value = p.migrated r position length := by
  rw [r.anyError_migrateFilterChain _ position length start (byteLength p.text)] at hchain
  rw [repeatToFor, RepeatExpression.parse?_text hbare]
  dsimp only
  rw [RepeatItem.parse?_of_isNameChar p.item_ne_nil p.item_name]
  dsimp only
  rw [show repeatFaults _ _ start (byteLength p.text) = [] from rfl, List.nil_append, if_neg
    (by simp [hchain])]
  refine ⟨hchain, ?_⟩
  rw [PlainRepeat.migrated, (r.migrateFilterChain_eq _ position length start _).1]
  rfl

/-- **Which repeat expressions are migrated.**  With an error the value stays.  Without one it is a
plain expression, and the result declares its name over its collection with the filters migrated.
And every bare plain expression whose filters can be migrated is migrated so. -/
theorem repeatToFor_plain (r : RuleSet) (value : String) (start position length : Nat) :
    (Message.anyError (r.repeatToFor value start).messages = true →
      (r.repeatToFor value start).value = value) ∧
    (Message.anyError (r.repeatToFor value start).messages = false →
      ∃ p : PlainRepeat, p.text = value ∧
        (r.repeatToFor value start).value = p.migrated r position length) ∧
    ∀ p : PlainRepeat, p.text = value → p.Bare →
      Message.anyError
        (r.migrateFilterChain (String.ofList p.collection) position length).messages = false →
      Message.anyError (r.repeatToFor value start).messages = false ∧
        (r.repeatToFor value start).value = p.migrated r position length := by
  refine ⟨?_, ?_, ?_⟩
  · intro herror
    obtain ⟨-, hvalue⟩ | ⟨e, item, -, -, hnone, -⟩ := r.repeatToFor_cases value start
    · exact hvalue
    · rw [hnone] at herror
      contradiction
  · intro hnone
    obtain ⟨herror, -⟩ | ⟨e, item, he, hitem, -, hfaults, hvalue⟩ := r.repeatToFor_cases value start
    · rw [hnone] at herror
      contradiction
    · obtain ⟨hname, hkey, name, rfl⟩ := anyError_repeatFaults_eq_false_iff.mp hfaults
      obtain ⟨p, htext, hp, hcollection⟩ := PlainRepeat.exists_of_parse? he hname hkey hitem
      refine ⟨p, htext, hvalue.trans ?_⟩
      rw [PlainRepeat.migrated, hp, hcollection,
        (r.migrateFilterChain_eq _ position length start (byteLength value)).1]
      rfl
  · rintro p rfl hbare hchain
    exact r.repeatToFor_text start hbare hchain

/-- A collection that holds the word `in` twice, and a filter. -/
theorem repeatToFor_plain_words :
    ∃ p : PlainRepeat, p.text = " $x\tin  in my by in | limitTo:3:1 " ∧ p.Bare ∧
      Message.anyError
        (default.migrateFilterChain (String.ofList p.collection) 0 0).messages = false ∧
      Message.anyError
        (default.repeatToFor " $x\tin  in my by in | limitTo:3:1 " 7).messages = false ∧
      (default.repeatToFor " $x\tin  in my by in | limitTo:3:1 " 7).value =
        "let $x of in my by in | slice:1:3" := by
  let p : PlainRepeat := ⟨[' '], "$x".toList, ['\t'], "  ".toList,
    "in my by in | limitTo:3:1".toList, [' '], rfl, by decide, by decide +kernel,
    ⟨by decide, rfl⟩, ⟨by decide, rfl⟩, by decide, rfl⟩
  have hbare : p.Bare := by
    refine ⟨⟨?_, ?_⟩, rfl, rfl⟩
    · rintro ⟨before, blank, after, hsplit, -⟩
      have hmem : 's' ∈ p.collection := by simp [hsplit]
      revert hmem
      decide
    · rintro gap - ⟨before, blank, after, hsplit, -⟩
      have hmem : 'k' ∈ p.collection := by simp [hsplit]
      revert hmem
      decide
  have hchain : Message.anyError
      (default.migrateFilterChain (String.ofList p.collection) 0 0).messages = false := by
    decide +kernel
  obtain ⟨hnone, hvalue⟩ := (default.repeatToFor_plain p.text 7 0 0).2.2 p rfl hbare hchain
  refine ⟨p, by decide +kernel, hbare, hchain, hnone, hvalue.trans ?_⟩
  decide +kernel

end RuleSet

end TemplateMigration
