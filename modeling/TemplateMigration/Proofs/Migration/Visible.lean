import TemplateMigration.Proofs.Markup.Sweeping
import TemplateMigration.Proofs.Migration.Parts

/-!
# TemplateMigration.Proofs.Migration.Visible

Edits that can be seen in the text they make.

When its edits have been made, a text still loses the end tags of void elements, wherever they
stand, and some of the edits only drop the alias.  Such removals cannot undo an edit that puts
something in.  Each text that is put in starts with a landmark (`Landmark`), a short word that has
no character of the alias and does not occur in a removable tag.  A removal never lowers the number
of landmarks and takes at least three characters (`Thinned`).  So if the landmark that is put in
first were the one that stood there before, nothing would have been removed in front of it, and the
edit would have put in what was there: `Edit.sweep_ne`.
-/

namespace TemplateMigration

open VoidEndTag (sweep IsTag)

/-! ## Counting a word -/

/-- How often a word occurs in a text. -/
def occurrences (word : List Char) : List Char → Nat
  | [] => 0
  | c :: cs => occurrences word cs + if word.isPrefixOf (c :: cs) then 1 else 0

section Occurrences

variable {word xs ys : List Char}

/-- Putting texts together loses no occurrence. -/
theorem occurrences_append_le (word xs ys : List Char) :
    occurrences word xs + occurrences word ys ≤ occurrences word (xs ++ ys) := by
  induction xs with
  | nil => simp [occurrences]
  | cons x xs ih =>
      have hhead : word.isPrefixOf (x :: xs) = true → word.isPrefixOf (x :: (xs ++ ys)) = true := by
        simp only [List.isPrefixOf_iff_prefix]
        intro h
        exact h.trans (List.prefix_append (x :: xs) ys)
      rw [List.cons_append, occurrences, occurrences]
      split
      · next h =>
          rw [if_pos (hhead h)]
          omega
      · split <;> omega

/-- No occurrence reaches over a character that the word does not have. -/
theorem occurrences_append_cons {c : Char} (hword : word ≠ []) (hc : c ∉ word)
    (xs ys : List Char) :
    occurrences word (xs ++ c :: ys) = occurrences word xs + occurrences word ys := by
  have hstops : ∀ xs, word <+: xs ++ c :: ys → word <+: xs := by
    intro xs h
    obtain hxs | ⟨more, rfl⟩ := List.prefix_or_prefix_of_prefix h (List.prefix_append xs (c :: ys))
    · exact hxs
    · rw [List.prefix_append_right_inj] at h
      cases more with
      | nil => simp
      | cons d more =>
          obtain ⟨rfl, -⟩ := List.cons_prefix_cons.mp h
          simp at hc
  induction xs with
  | nil =>
      have hnot : ¬ word <+: c :: ys := by
        intro h
        exact hword (List.prefix_nil.mp (hstops [] h))
      simp [occurrences, hnot]
  | cons x xs ih =>
      have hhead : word.isPrefixOf (x :: (xs ++ c :: ys)) = word.isPrefixOf (x :: xs) := by
        rw [Bool.eq_iff_iff, List.isPrefixOf_iff_prefix, List.isPrefixOf_iff_prefix]
        exact ⟨hstops (x :: xs), fun h => h.trans (List.prefix_append (x :: xs) _)⟩
      rw [List.cons_append, occurrences, occurrences, hhead, ih]
      omega

theorem occurrences_eq_zero (hxs : ¬ word <:+: xs) : occurrences word xs = 0 := by
  induction xs with
  | nil => rfl
  | cons x xs ih =>
      have hnot : ¬ word <+: x :: xs := fun h => hxs h.isInfix
      have hmore : ¬ word <:+: xs := fun h => hxs (h.trans (List.suffix_cons x xs).isInfix)
      simp [occurrences, hnot, ih hmore]

theorem occurrences_self_pos (hword : word ≠ []) : 0 < occurrences word word := by
  obtain ⟨c, cs, rfl⟩ := List.exists_cons_of_ne_nil hword
  simp [occurrences]

end Occurrences

/-! ## Landmarks -/

/-- A short word that no removal takes away. -/
structure Landmark (mark : List Char) : Prop where
  ne_nil : mark ≠ []
  length_le : mark.length ≤ 3
  notMem : ∀ c ∈ '<' :: '/' :: '>' :: Alias.word, c ∉ mark
  not_infix : ∀ tag, IsTag tag → ¬ mark <:+: tag

/-- What removals leave of a text: no landmark is lost, and three characters are gone if anything
is. -/
structure Thinned (mark text left : List Char) : Prop where
  occurrences_le : occurrences mark text ≤ occurrences mark left
  eq_or_length_le : left = text ∨ left.length + 3 ≤ text.length

namespace Thinned

variable {mark text left rest : List Char}

theorem refl (mark text : List Char) : Thinned mark text text := ⟨Nat.le_refl _, .inl rfl⟩

theorem trans (h : Thinned mark text left) (h' : Thinned mark left rest) :
    Thinned mark text rest := by
  refine ⟨h.occurrences_le.trans h'.occurrences_le, ?_⟩
  obtain rfl | hle := h.eq_or_length_le
  · exact h'.eq_or_length_le
  · obtain rfl | hle' := h'.eq_or_length_le
    · exact .inr hle
    · exact .inr (by omega)

end Thinned

namespace Landmark

variable {mark left more : List Char}

/-- A tag in front of a text takes no landmark from it. -/
theorem occurrences_tag (h : Landmark mark) {tag : List Char} (htag : IsTag tag)
    (rest : List Char) : occurrences mark (tag ++ rest) = occurrences mark rest := by
  have hnone := occurrences_eq_zero (h.not_infix tag htag)
  obtain ⟨body, rfl, -⟩ := htag.exists_eq_cons
  have hgt : '>' ∉ mark := h.notMem _ (by simp)
  have hends : ∀ rest,
      '<' :: '/' :: (body ++ ['>']) ++ rest = ('<' :: '/' :: body) ++ '>' :: rest := by
    simp
  have hcut := occurrences_append_cons h.ne_nil hgt ('<' :: '/' :: body)
  have hbody : occurrences mark ('<' :: '/' :: body) = 0 := by
    have hends' := hcut []
    rw [← hends, List.append_nil, hnone] at hends'
    omega
  rw [hends, hcut, hbody, Nat.zero_add]

/-- The sweep hides no landmark. -/
theorem occurrences_le_sweep (h : Landmark mark) (text : List Char) :
    occurrences mark text ≤ occurrences mark (sweep 0 text) := by
  induction text using VoidEndTag.sweep_induction with
  | nil => exact Nat.le_refl 0
  | tag tag rest htag ih => rwa [VoidEndTag.sweep_tag htag, h.occurrences_tag htag]
  | cons c cs hstarts ih =>
      rw [VoidEndTag.sweep_cons hstarts]
      -- a landmark has no `<`, so it stays together
      have hhead : mark <+: c :: cs → mark <+: c :: sweep 0 cs := by
        rintro ⟨rest, hrest⟩
        have hlt : '<' ∉ mark := h.notMem _ (by simp)
        refine ⟨sweep 0 rest, ?_⟩
        rw [← VoidEndTag.sweep_append_of_lt_notMem hlt, hrest, VoidEndTag.sweep_cons hstarts]
      simp only [occurrences, List.isPrefixOf_iff_prefix]
      split
      · next hhere =>
          rw [if_pos (hhead hhere)]
          omega
      · split <;> omega

/-- The removal of end tags thins a text. -/
theorem thinned_sweep (h : Landmark mark) (text : List Char) : Thinned mark text (sweep 0 text) :=
  ⟨h.occurrences_le_sweep text, VoidEndTag.sweep_eq_or_length_le text⟩

/-- A landmark is on one side of an alias or on the other. -/
theorem occurrences_alias (h : Landmark mark) (front more : List Char) :
    occurrences mark (front ++ (Alias.word ++ more)) =
      occurrences mark front + occurrences mark more := by
  have hcut : ∀ c ∈ Alias.word, ∀ xs ys,
      occurrences mark (xs ++ c :: ys) = occurrences mark xs + occurrences mark ys :=
    fun c hc => occurrences_append_cons h.ne_nil (h.notMem c (by simp [hc]))
  have hv := hcut 'v' (by decide) front ('m' :: '.' :: more)
  have hm := hcut 'm' (by decide) [] ('.' :: more)
  have hpoint := hcut '.' (by decide) [] more
  have hnil : occurrences mark [] = 0 := rfl
  rw [List.nil_append, hnil, Nat.zero_add] at hm hpoint
  rw [← hpoint, ← hm, ← hv]
  rfl

/-- Dropping the alias thins a text. -/
theorem thinned_alias (h : Landmark mark) (front : List Char) (hmore : Thinned mark more left) :
    Thinned mark (front ++ (Alias.word ++ more)) (front ++ left) := by
  constructor
  · have hjoin := occurrences_append_le mark front left
    have hle := hmore.occurrences_le
    rw [h.occurrences_alias]
    omega
  · have hlength : left.length ≤ more.length := by
      obtain rfl | hle := hmore.eq_or_length_le <;> omega
    refine .inr ?_
    simp only [List.length_append, Alias.word, List.length_cons, List.length_nil]
    omega

end Landmark

/-- What has been thinned can be followed by a landmark only if the text was followed by it too, and
nothing was removed. -/
theorem Thinned.starts_of_starts {mark text left lead more : List Char} (h : Thinned mark text left)
    (hmark : Landmark mark) (hlead : mark <+: lead) (hstarts : left ++ lead <+: text ++ more) :
    lead <+: more := by
  obtain rfl | hle := h.eq_or_length_le
  · rwa [List.prefix_append_right_inj] at hstarts
  · exfalso
    -- the landmark behind `left` stands inside `text`, where it is one too many
    obtain ⟨rest, rfl⟩ : left ++ mark <+: text := by
      have hfirst : left ++ mark <+: text ++ more :=
        ((List.prefix_append_right_inj left).mpr hlead).trans hstarts
      refine List.prefix_of_prefix_length_le hfirst (List.prefix_append text more) ?_
      have := hmark.length_le
      rw [List.length_append]
      omega
    have hcount := h.occurrences_le
    have hpos := occurrences_self_pos hmark.ne_nil
    have hrest := occurrences_append_le mark (left ++ mark) rest
    have hboth := occurrences_append_le mark left mark
    omega

/-- No tag reaches over a text that starts with a landmark and has no bracket. -/
theorem Landmark.sweep_append {mark lead : List Char} (h : Landmark mark) (hlead : mark <+: lead)
    (hlt : '<' ∉ lead) (hgt : '>' ∉ lead) (xs ys : List Char) :
    sweep 0 (xs ++ (lead ++ ys)) = sweep 0 xs ++ (lead ++ sweep 0 ys) := by
  have hunspanned : VoidEndTag.Unspanned xs (lead ++ ys) := by
    intro tail _ _ tag htag hstarts
    obtain hin | ⟨spare, rfl⟩ :=
      List.prefix_or_prefix_of_prefix hstarts (List.prefix_append tail (lead ++ ys))
    · exact hin
    rw [List.prefix_append_right_inj] at hstarts
    obtain hspare | hspare :=
      List.prefix_or_prefix_of_prefix hstarts (List.prefix_append lead ys)
    · -- the `>` of the tag would stand in `lead`
      obtain rfl | ⟨init, c, rfl⟩ := List.eq_nil_or_concat spare
      · simp
      obtain ⟨body, hbody, -⟩ := htag.exists_eq_cons
      have hends : (tail ++ init) ++ [c] = ('<' :: '/' :: body) ++ ['>'] := by simpa using hbody
      obtain ⟨-, hlast⟩ := List.append_inj' hends rfl
      exact absurd (hspare.subset (by simp [List.singleton_inj.mp hlast])) hgt
    · -- `lead` would stand in the tag
      exfalso
      refine h.not_infix _ htag ((hlead.trans hspare).isInfix.trans ?_)
      exact (List.suffix_append tail spare).isInfix
  rw [hunspanned.sweep_append, VoidEndTag.sweep_append_of_lt_notMem hlt]

/-! ## Edits -/

namespace Edit

variable {source part out before : List Char} {offset : Nat} {as es rest : List Edit} {e : Edit}

/-- The edit drops an alias of a text. -/
structure DropsAlias (source : List Char) (e : Edit) : Prop where
  length_eq : e.length = 3
  replacement_eq : e.replacement = ""
  occursAt : OccursAt source e.offset Alias.word

/-- The edit puts in a text that starts with a landmark, and that did not stand there before. -/
def Marks (source : List Char) (e : Edit) : Prop :=
  ∃ mark lead, Landmark mark ∧ mark <+: lead ∧ '<' ∉ lead ∧ '>' ∉ lead ∧
    lead <+: e.replacement.toList ∧ ¬ OccursAt source e.offset lead

theorem Marks.not_dropsAlias (h : e.Marks source) : ¬ e.DropsAlias source := by
  obtain ⟨mark, lead, hmark, hlead, -, -, hstarts, -⟩ := h
  intro halias
  rw [halias.replacement_eq] at hstarts
  exact hmark.ne_nil (List.prefix_nil.mp (hlead.trans hstarts))

/-- The edit can be seen: it drops an alias, it puts in a landmark, or an edit in front of it
does. -/
def Shows (source : List Char) (es : List Edit) (e : Edit) : Prop :=
  e.DropsAlias source ∨ e.Marks source ∨ ∃ d ∈ es, d.Marks source ∧ d.offset < e.offset

theorem Shows.mono (h : e.Shows source as) (hsub : ∀ a ∈ as, a ∈ es) : e.Shows source es := by
  obtain hdrops | hmarks | ⟨d, hd, hmarks, hlt⟩ := h
  · exact .inl hdrops
  · exact .inr (.inl hmarks)
  · exact .inr (.inr ⟨d, hsub d hd, hmarks, hlt⟩)

/-- Edits that drop aliases thin the text up to the last of them, whatever follows it. -/
theorem exists_thinned_of_dropsAlias (hsource : source = before ++ part)
    (hbefore : byteCount before = offset) (h : applyFrom? offset part (as ++ rest) = some out)
    (has : ∀ a ∈ as, a.DropsAlias source) :
    ∃ text left after tail, part = text ++ after ∧ out = left ++ tail ∧
      (∀ mark, Landmark mark → ∀ more, Thinned mark (text ++ more) (left ++ more)) ∧
      left.length + 3 * as.length = text.length ∧
      applyFrom? (offset + byteCount text) after rest = some tail := by
  induction as generalizing offset part before out with
  | nil => exact ⟨[], [], part, out, rfl, rfl, fun mark _ => .refl mark, rfl, by simpa using h⟩
  | cons a as ih =>
      obtain ⟨front, gone, more, tail, rfl, hfront, hgone, htail, rfl⟩ :=
        exists_of_applyFrom?_cons h
      have ha := has a List.mem_cons_self
      obtain rfl : gone = Alias.word := by
        have hgoneAt : OccursAt source a.offset gone :=
          ⟨before ++ front, more, by simp [hsource], by simp [hbefore, hfront]⟩
        have hsame : byteCount gone = byteCount Alias.word := by
          rw [hgone, ha.length_eq]
          rfl
        rw [← hgoneAt.slice_eq, hsame, ha.occursAt.slice_eq]
      have hsource' : source = (before ++ (front ++ Alias.word)) ++ more := by simp [hsource]
      have hbefore' : byteCount (before ++ (front ++ Alias.word)) = a.stop := by
        rw [byteCount_append, byteCount_append, hgone, stop]
        omega
      obtain ⟨text, left, after, tail', rfl, rfl, hthin, hlength, hrest⟩ :=
        ih hsource' hbefore' htail fun b hb => has b (List.mem_cons_of_mem a hb)
      refine ⟨front ++ (Alias.word ++ text), front ++ left, after, tail', by simp, ?_, ?_, ?_, ?_⟩
      · simp [ha.replacement_eq]
      · intro mark hmark more
        have hmore := hmark.thinned_alias front (hthin mark hmark more)
        simpa using hmore
      · simp only [List.length_append, List.length_cons, Alias.word, List.length_nil]
        omega
      · rw [← hrest, stop, ← hgone, byteCount_append, byteCount_append]
        congr 1
        omega

/-- The first edit that does not drop an alias puts in a landmark. -/
theorem marks_of_shows (h : applyFrom? offset part (as ++ e :: rest) = some out)
    (has : ∀ a ∈ as, a.DropsAlias source) (he : ¬ e.DropsAlias source)
    (hshows : e.Shows source (as ++ e :: rest)) : e.Marks source := by
  obtain hdrops | hmarks | ⟨d, hd, hmarks, hlt⟩ := hshows
  · contradiction
  · exact hmarks
  · exfalso
    have hascend := (pairwise_of_applyFrom? h).2
    rw [List.pairwise_append, List.pairwise_cons] at hascend
    rw [List.mem_append, List.mem_cons] at hd
    obtain hd | rfl | hd := hd
    · exact hmarks.not_dropsAlias (has d hd)
    · omega
    · have hafter : e.offset + e.length ≤ d.offset := hascend.2.1.1 d hd
      omega

/-- Where aliases are dropped and nothing is put in, the text gets shorter. -/
theorem sweep_ne_of_dropsAlias (h : applyFrom? 0 source es = some out) (hne : es ≠ [])
    (hdrops : ∀ e ∈ es, e.DropsAlias source) : sweep 0 out ≠ source := by
  rw [← List.append_nil es] at h
  obtain ⟨text, left, after, tail, rfl, rfl, -, hlength, htail⟩ :=
    exists_thinned_of_dropsAlias (List.nil_append source).symm rfl h hdrops
  obtain rfl : after = tail := Option.some.inj htail
  have hpos := List.length_pos_iff.mpr hne
  have hshort : (left ++ after).length < (text ++ after).length := by
    rw [List.length_append, List.length_append]
    omega
  intro heq
  have hle := VoidEndTag.length_sweep_le (left ++ after)
  rw [heq] at hle
  omega

/-- The first landmark that is put in behind dropped aliases is seen. -/
theorem sweep_ne_of_marks (h : applyFrom? 0 source (as ++ e :: rest) = some out)
    (hdrops : ∀ a ∈ as, a.DropsAlias source) (he : e.Marks source) : sweep 0 out ≠ source := by
  obtain ⟨mark, lead, hmark, hlead, hlt, hgt, ⟨new, hnew⟩, hfresh⟩ := he
  obtain ⟨text, left, after, tail, rfl, rfl, hthin, -, htail⟩ :=
    exists_thinned_of_dropsAlias (List.nil_append source).symm rfl h hdrops
  obtain ⟨front, gone, after', tail', rfl, hfront, -, -, rfl⟩ := exists_of_applyFrom?_cons htail
  intro heq
  -- in front of the landmark the text is thinned, first by the edits and then by the sweep
  have hswept := (hthin mark hmark front).trans (hmark.thinned_sweep (left ++ front))
  have hstarts : sweep 0 (left ++ front) ++ lead <+: text ++ front ++ (gone ++ after') := by
    refine ⟨sweep 0 (new ++ tail'), ?_⟩
    have hsplit := hmark.sweep_append hlead hlt hgt (left ++ front) (new ++ tail')
    simp only [List.append_assoc, ← hnew] at heq hsplit ⊢
    rw [← hsplit, heq]
  obtain ⟨more, hmore⟩ := hswept.starts_of_starts hmark hlead hstarts
  exact hfresh ⟨text ++ front, more, by simp [hmore], by simp [← hfront]⟩

/-- **Edits that can be seen change the text,** also when it loses its end tags of void elements
afterwards. -/
theorem sweep_ne (h : applyFrom? 0 source es = some out) (hne : es ≠ [])
    (hshows : ∀ e ∈ es, e.Shows source es) : sweep 0 out ≠ source := by
  classical
  cases hfind : es.find? fun e => decide (¬ e.DropsAlias source) with
  | none => exact sweep_ne_of_dropsAlias h hne (by simpa using hfind)
  | some e =>
      obtain ⟨he, as, rest, rfl, has⟩ := List.find?_eq_some_iff_append.mp hfind
      have hdrops : ∀ a ∈ as, a.DropsAlias source := by simpa using has
      have hmarks := marks_of_shows h hdrops (by simpa using he) (hshows e (by simp))
      exact sweep_ne_of_marks h hdrops hmarks

end Edit

end TemplateMigration
