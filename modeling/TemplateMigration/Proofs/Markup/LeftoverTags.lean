import TemplateMigration.Markup.Event
import TemplateMigration.Proofs.Markup.VoidEndTag

/-!
# TemplateMigration.Proofs.Markup.LeftoverTags

The end tags of void elements that are still there after the removal.

The removal looks at a text once.  A word is `Spread` over a text when nothing but removable tags
stands among its characters.  The sweep brings such a word together (`sweep_append_of_spread`), and
whatever stands in a swept text was spread in the text (`exists_spread_of_isPrefix`).  So there are
two reasons for an end tag to be left over: its name is `col`, which is not among the names, or its
characters were apart and a removal brings them together.
-/

namespace TemplateMigration.VoidEndTag

/-! ## Spread words -/

/-- A word with removable tags put before, between or behind its characters. -/
inductive Spread : List Char → List Char → Prop
  | nil : Spread [] []
  | cons (c : Char) {word text : List Char} (h : Spread word text) : Spread (c :: word) (c :: text)
  | tag {tag word text : List Char} (htag : IsTag tag) (h : Spread word text) :
      Spread word (tag ++ text)

theorem spread_self (word : List Char) : Spread word word := by
  induction word with
  | nil => exact .nil
  | cons c word ih => exact .cons c ih

/-- The sweep brings a spread word together. -/
theorem sweep_append_of_spread {word text : List Char} (h : Spread word text) (hlt : '<' ∉ word)
    (rest : List Char) : sweep 0 (text ++ rest) = word ++ sweep 0 rest := by
  induction h with
  | nil => rfl
  | cons c _ ih =>
      rw [List.mem_cons, not_or] at hlt
      rw [List.cons_append, sweep_cons (not_startsTag_of_ne _ (Ne.symm hlt.1)), ih hlt.2,
        List.cons_append]
  | tag htag _ ih => rw [List.append_assoc, sweep_tag htag, ih hlt]

/-- What a swept text starts with was spread at the start of the text. -/
theorem exists_spread_of_isPrefix {word text : List Char} {last : Char}
    (h : word ++ [last] <+: sweep 0 text) :
    ∃ spread, Spread word spread ∧ spread ++ [last] <+: text := by
  induction text using sweep_induction generalizing word with
  | nil => simp [sweep] at h
  | tag tag rest htag ih =>
      rw [sweep_tag htag] at h
      obtain ⟨spread, hspread, hrest⟩ := ih h
      refine ⟨tag ++ spread, .tag htag hspread, ?_⟩
      rw [List.append_assoc]
      exact (List.prefix_append_right_inj tag).mpr hrest
  | cons c cs hstarts ih =>
      rw [sweep_cons hstarts] at h
      cases word with
      | nil =>
          rw [List.nil_append, List.cons_prefix_cons] at h
          exact ⟨[], .nil, by simp [h.1]⟩
      | cons a word =>
          rw [List.cons_append, List.cons_prefix_cons] at h
          obtain ⟨spread, hspread, hcs⟩ := ih h.2
          exact ⟨a :: spread, .cons a hspread, by simp [h.1, hcs]⟩

/-- A word that is not spread as it is has a `<` put between what it starts with and the rest. -/
theorem Spread.eq_or_exists {word text : List Char} (h : Spread word text) :
    text = word ∨ ∃ front back, front <+: word ∧ text = front ++ '<' :: back := by
  induction h with
  | nil => exact .inl rfl
  | cons c _ ih =>
      obtain rfl | ⟨front, back, hfront, rfl⟩ := ih
      · exact .inl rfl
      · exact .inr ⟨c :: front, back, by simpa using hfront, rfl⟩
  | tag htag _ _ =>
      obtain ⟨body, rfl, -⟩ := htag.exists_eq_cons
      exact .inr ⟨[], _, List.nil_prefix, rfl⟩

/-! ## Bracketed words -/

/-- A word between brackets. -/
def bracketed (word : List Char) : List Char := '<' :: (word ++ ['>'])

/-- The tag that starts a text with a spread word between brackets is the word itself. -/
theorem StartsTag.eq_of_spread {word spread rest : List Char} (h : Spread word spread)
    (hlt : '<' ∉ word) (hgt : '>' ∉ word) (hstarts : StartsTag (bracketed spread ++ rest)) :
    spread = word ∧ IsTag (bracketed word) := by
  obtain ⟨tag, rest', htag, heq⟩ := hstarts
  obtain ⟨body, rfl, hbody⟩ := htag.exists_eq_cons
  have hinner : '<' ∉ '/' :: body ∧ '>' ∉ '/' :: body := by
    simp [hbody '<' (by decide), hbody '>' (by decide)]
  have hcut : spread ++ '>' :: rest = ('/' :: body) ++ '>' :: rest' := by
    simpa [bracketed] using heq
  obtain rfl | ⟨front, back, hfront, rfl⟩ := h.eq_or_exists
  · obtain rfl := eq_of_append_cons_eq hgt hinner.2 hcut
    exact ⟨rfl, htag⟩
  · -- the `<` between the characters comes before the first `>`
    exfalso
    have hfront' : '>' ∉ front := fun hmem => hgt (hfront.subset hmem)
    rw [List.append_assoc, List.append_eq_append_iff] at hcut
    obtain ⟨more, hmore, hrest⟩ | ⟨more, hmore, hrest⟩ := hcut
    · cases more with
      | nil => simp at hrest
      | cons d more =>
          simp only [List.cons_append, List.cons.injEq] at hrest
          exact hinner.1 (by rw [hmore, ← hrest.1]; simp)
    · cases more with
      | nil => simp at hrest
      | cons d more =>
          simp only [List.cons_append, List.cons.injEq] at hrest
          exact hfront' (by rw [hmore, hrest.1]; simp)

/-- **Bracketed words of a swept text.**  They are those that the text holds spread between their
brackets, except the removable tags. -/
theorem bracketed_infix_sweep_iff {word text : List Char} (hlt : '<' ∉ word) (hgt : '>' ∉ word) :
    bracketed word <:+: sweep 0 text ↔
      ∃ spread, Spread word spread ∧ ¬ IsTag (bracketed spread) ∧ bracketed spread <:+: text := by
  constructor
  · intro h
    induction text using sweep_induction with
    | nil => simp [sweep, bracketed] at h
    | tag tag rest htag ih =>
        rw [sweep_tag htag] at h
        obtain ⟨spread, hspread, hkept, hrest⟩ := ih h
        exact ⟨spread, hspread, hkept, hrest.trans (List.suffix_append tag rest).isInfix⟩
    | cons c cs hstarts ih =>
        rw [sweep_cons hstarts, List.infix_cons_iff] at h
        obtain hhere | hlater := h
        · rw [bracketed, List.cons_prefix_cons] at hhere
          obtain ⟨rfl, hword⟩ := hhere
          obtain ⟨spread, hspread, more, hmore⟩ := exists_spread_of_isPrefix hword
          have heq : '<' :: cs = bracketed spread ++ more := by simp [bracketed, ← hmore]
          refine ⟨spread, hspread, fun htag => hstarts ⟨_, more, htag, heq⟩, ?_⟩
          exact heq ▸ (List.prefix_append _ _).isInfix
        · obtain ⟨spread, hspread, hkept, hcs⟩ := ih hlater
          exact ⟨spread, hspread, hkept, hcs.trans (List.suffix_cons c cs).isInfix⟩
  · rintro ⟨spread, hspread, hkept, before, after, rfl⟩
    have hstarts : ¬ StartsTag (bracketed spread ++ after) := by
      intro hstarts
      obtain ⟨rfl, htag⟩ := hstarts.eq_of_spread hspread hlt hgt
      exact hkept htag
    have hparted : Parted before (bracketed spread ++ after) := .inr (by simp [bracketed])
    have hclose : sweep 0 ('>' :: after) = '>' :: sweep 0 after :=
      sweep_cons (not_startsTag_of_ne after (by decide))
    rw [List.append_assoc, sweep_append hparted]
    refine ⟨sweep 0 before, sweep 0 after, ?_⟩
    have hshape : bracketed spread ++ after = '<' :: (spread ++ '>' :: after) := by simp [bracketed]
    rw [hshape] at hstarts ⊢
    rw [sweep_cons hstarts, sweep_append_of_spread hspread hlt, hclose]
    simp [bracketed]

/-! ## Void elements -/

open MarkupEvent (lowerCase)

/-- A removable name is that of its letters in lower case, if those are plain. -/
theorem eq_map_toLower {name letters : List Char}
    (h : List.Forall₂ (fun x c => foldsTo x c = true) name letters)
    (hplain : ∀ c ∈ letters, c ≠ '\u212a' ∧ c ≠ '\u017f') : name = letters.map Char.toLower := by
  induction h with
  | nil => rfl
  | cons hfolds _ ih =>
      obtain ⟨hhead, hmore⟩ := List.forall_mem_cons.mp hplain
      rw [List.map_cons, ← ih hmore]
      grind [foldsTo]

/-- The tags of void elements are removable, with the exception of `</col>`. -/
theorem isTag_bracketed_iff {letters : List Char}
    (hvoid : isVoidElement (lowerCase letters) = true) :
    IsTag (bracketed ('/' :: letters)) ↔ lowerCase letters ≠ "col" := by
  constructor
  · rintro ⟨name, hname, letters', hletters, heq⟩ hcol
    obtain rfl : letters = letters' := by simpa [bracketed] using heq
    have hlower : letters.map Char.toLower = ['c', 'o', 'l'] := by
      simpa [lowerCase] using congrArg String.toList hcol
    have hplain : ∀ c ∈ letters, c ≠ '\u212a' ∧ c ≠ '\u017f' := by
      intro c hc
      have hmem : c.toLower ∈ ['c', 'o', 'l'] := hlower ▸ List.mem_map_of_mem hc
      refine ⟨?_, ?_⟩ <;>
      · rintro rfl
        exact absurd hmem (by decide)
    rw [eq_map_toLower hletters hplain, hlower] at hname
    exact absurd hname (by decide)
  · intro hcol
    have hnames : ∀ name ∈ voidElements, name ≠ "col" → name.toList ∈ names := by decide
    refine ⟨letters.map Char.toLower, ?_, letters, ?_, rfl⟩
    · simpa [lowerCase] using hnames _ (by simpa [isVoidElement] using hvoid) hcol
    · simp [List.forall₂_map_left_iff, List.forall₂_same, foldsTo]

theorem bracket_notMem {letters : List Char} (hvoid : isVoidElement (lowerCase letters) = true) :
    '<' ∉ '/' :: letters ∧ '>' ∉ '/' :: letters := by
  have hnames : ∀ name ∈ voidElements, '<' ∉ name.toList ∧ '>' ∉ name.toList := by decide
  have hlower := hnames _ (by simpa [isVoidElement] using hvoid)
  rw [lowerCase, String.toList_ofList] at hlower
  constructor
  · rw [List.mem_cons, not_or]
    exact ⟨by decide, fun hmem => hlower.1 (List.mem_map.mpr ⟨'<', hmem, rfl⟩)⟩
  · rw [List.mem_cons, not_or]
    exact ⟨by decide, fun hmem => hlower.2 (List.mem_map.mpr ⟨'>', hmem, rfl⟩)⟩

/-- **Which end tags are left over.**  The removal leaves the end tag of a void element in a text
exactly if the text holds it and its name is `col`, or if the text holds it with removable tags
between its characters. -/
theorem endTag_infix_strip_iff (text : String) (letters : List Char)
    (hvoid : isVoidElement (lowerCase letters) = true) :
    bracketed ('/' :: letters) <:+: (strip text).toList ↔
      lowerCase letters = "col" ∧ bracketed ('/' :: letters) <:+: text.toList ∨
        ∃ spread, Spread ('/' :: letters) spread ∧ spread ≠ '/' :: letters ∧
          bracketed spread <:+: text.toList := by
  obtain ⟨hlt, hgt⟩ := bracket_notMem hvoid
  rw [strip, String.toList_ofList, bracketed_infix_sweep_iff hlt hgt]
  constructor
  · rintro ⟨spread, hspread, hkept, hinfix⟩
    by_cases heq : spread = '/' :: letters
    · subst heq
      rw [isTag_bracketed_iff hvoid, not_not] at hkept
      exact .inl ⟨hkept, hinfix⟩
    · exact .inr ⟨spread, hspread, heq, hinfix⟩
  · rintro (⟨hcol, hinfix⟩ | ⟨spread, hspread, hne, hinfix⟩)
    · refine ⟨_, spread_self _, ?_, hinfix⟩
      rw [isTag_bracketed_iff hvoid, not_not]
      exact hcol
    · refine ⟨spread, hspread, ?_, hinfix⟩
      intro htag
      have hstarts : StartsTag (bracketed spread ++ []) := ⟨_, [], htag, rfl⟩
      exact hne (hstarts.eq_of_spread hspread hlt hgt).1

/-- Two removals bring an end tag together. -/
theorem endTag_infix_strip_iff_joined :
    isVoidElement (lowerCase ['i', 'M', 'g']) = true ∧
      bracketed ['/', 'i', 'M', 'g'] <:+: (strip "<p></</Br>iM</hr>g></p>").toList := by
  have hspread : Spread ['/', 'i', 'M', 'g'] "/</Br>iM</hr>g".toList :=
    .cons '/' (.tag (by decide : IsTag "</Br>".toList)
      (.cons 'i' (.cons 'M' (.tag (by decide : IsTag "</hr>".toList) (.cons 'g' .nil)))))
  exact ⟨by decide, (endTag_infix_strip_iff _ _ (by decide)).mpr
    (.inr ⟨_, hspread, by decide, "<p>".toList, "</p>".toList, by decide⟩)⟩

/-- The end tag of a column is left alone. -/
theorem not_forall_endTag_not_infix_strip :
    ¬ ∀ (text : String) (letters : List Char), isVoidElement (lowerCase letters) = true →
      ¬ bracketed ('/' :: letters) <:+: (strip text).toList := by
  intro h
  have hkept : (strip "</col>").toList = bracketed ['/', 'c', 'o', 'l'] := by decide +kernel
  exact h "</col>" ['c', 'o', 'l'] (by decide) (hkept ▸ List.infix_rfl)

end TemplateMigration.VoidEndTag
