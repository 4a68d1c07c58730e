import Mathlib.Data.List.Forall2
import TemplateMigration.Markup.VoidEndTag

/-!
# TemplateMigration.Proofs.Markup.VoidEndTag

The removal of end tags, said without a sweep.

A removable tag (`IsTag`) starts with a `<`, ends with a `>`, and holds no other bracket and no
quote. The sweep takes out the tag that starts a text and keeps every other character (`sweep_tag`,
`sweep_cons`).  No tag reaches from one part of a text into the next when the first part ends with a
`>` or the second starts with a `<` or a quote, and then each part can be swept for itself
(`sweep_append`).
-/

namespace TemplateMigration.VoidEndTag

/-! ## Tags -/

/-- An end tag that is removed: the letters of its name fold to one of the names. -/
def IsTag (tag : List Char) : Prop :=
  ∃ name ∈ names, ∃ letters, List.Forall₂ (fun x c => foldsTo x c = true) name letters ∧
    tag = '<' :: '/' :: (letters ++ ['>'])

theorem afterWord?_eq_some_iff {word cs rest : List Char} :
    afterWord? word cs = some rest ↔
      ∃ letters, List.Forall₂ (fun x c => foldsTo x c = true) word letters ∧
        cs = letters ++ rest := by
  induction word generalizing cs with
  | nil => simp [afterWord?]
  | cons x xs ih =>
      cases cs with
      | nil =>
          simp only [afterWord?, List.forall₂_cons_left_iff]
          simp
      | cons c cs =>
          rw [afterWord?]
          split
          · next hfolds =>
              rw [ih]
              constructor
              · rintro ⟨letters, hletters, rfl⟩
                exact ⟨c :: letters, .cons hfolds hletters, rfl⟩
              · rintro ⟨letters, hletters, heq⟩
                cases hletters with
                | cons hx hmore =>
                    obtain ⟨rfl, rfl⟩ := List.cons.inj heq
                    exact ⟨_, hmore, rfl⟩
          · next hfolds =>
              simp only [reduceCtorEq, false_iff, not_exists, not_and]
              intro letters hletters heq
              cases hletters with
              | cons hx hmore =>
                  obtain ⟨rfl, rfl⟩ := List.cons.inj heq
                  contradiction

/-- The characters that a removable tag does not hold between its brackets. -/
def outsiders : List Char := ['<', '>', '"', '\'']

/-- No bracket and no quote folds to a letter of a name. -/
theorem outsider_notMem {name letters : List Char} (hname : name ∈ names)
    (h : List.Forall₂ (fun x c => foldsTo x c = true) name letters) {c : Char}
    (hc : c ∈ outsiders) :
    c ∉ letters := by
  have hnames : names.all (·.all fun x => outsiders.all fun c => !foldsTo x c) = true := by decide
  have hfolds := List.all_eq_true.mp (List.all_eq_true.mp hnames name hname)
  clear hname hnames
  induction h with
  | nil => simp
  | cons hx _ ih =>
      have hrest := ih (fun y hy => hfolds y (List.mem_cons_of_mem _ hy))
      have hhead := List.all_eq_true.mp (hfolds _ (List.mem_cons_self ..)) c hc
      rw [List.mem_cons, not_or]
      refine ⟨?_, hrest⟩
      rintro rfl
      simp [hx] at hhead

/-- A text is cut at its first character of a kind in one way only. -/
theorem eq_of_append_cons_eq {xs ys xs' ys' : List Char} {c : Char} (hxs : c ∉ xs) (hxs' : c ∉ xs')
    (h : xs ++ c :: ys = xs' ++ c :: ys') : xs = xs' := by
  obtain ⟨more, heq, hrest⟩ | ⟨more, heq, hrest⟩ := List.append_eq_append_iff.mp h <;>
    cases more <;> simp_all

namespace IsTag

variable {tag : List Char}

theorem exists_eq_cons (h : IsTag tag) :
    ∃ body, tag = '<' :: '/' :: (body ++ ['>']) ∧ ∀ c ∈ outsiders, c ∉ body := by
  obtain ⟨name, hname, letters, hletters, rfl⟩ := h
  exact ⟨letters, rfl, fun c hc => outsider_notMem hname hletters hc⟩

/-- A tag that starts a text is no longer than one that starts it too. -/
theorem eq_of_append {tag' rest rest' : List Char} (h : IsTag tag) (h' : IsTag tag')
    (heq : tag ++ rest = tag' ++ rest') : tag = tag' := by
  obtain ⟨body, rfl, hbody⟩ := h.exists_eq_cons
  obtain ⟨body', rfl, hbody'⟩ := h'.exists_eq_cons
  have hsplit : body ++ '>' :: rest = body' ++ '>' :: rest' := by simpa using heq
  rw [eq_of_append_cons_eq (hbody _ (by decide)) (hbody' _ (by decide)) hsplit]

end IsTag

/-- The search finds exactly the tag that starts a text. -/
theorem length?_eq_some_iff {cs : List Char} {n : Nat} :
    length? cs = some n ↔ ∃ tag rest, IsTag tag ∧ cs = tag ++ rest ∧ tag.length = n := by
  have hfound : ∀ {cs n}, length? cs = some n →
      ∃ tag rest, IsTag tag ∧ cs = tag ++ rest ∧ tag.length = n := by
    intro cs n h
    unfold length? at h
    split at h
    · next rest =>
        obtain ⟨name, hfind, rfl⟩ := Option.map_eq_some_iff.mp h
        have hany := List.find?_some hfind
        obtain ⟨after, hafter, hhead⟩ := (Option.any_eq_true _ _).mp hany
        obtain ⟨letters, hletters, rfl⟩ := afterWord?_eq_some_iff.mp hafter
        obtain ⟨more, hmore⟩ := List.head?_eq_some_iff.mp (beq_iff_eq.mp hhead)
        refine ⟨_, more, ⟨name, List.mem_of_find?_eq_some hfind, letters, hletters, rfl⟩, ?_, ?_⟩
        · rw [hmore]
          simp
        · simp [hletters.length_eq]
    · contradiction
  constructor
  · exact hfound
  · rintro ⟨tag, rest, htag, rfl, rfl⟩
    have hsome : (length? (tag ++ rest)).isSome := by
      obtain ⟨name, hname, letters, hletters, rfl⟩ := htag
      have hafter : afterWord? name (letters ++ '>' :: rest) = some ('>' :: rest) :=
        afterWord?_eq_some_iff.mpr ⟨letters, hletters, rfl⟩
      simp only [List.cons_append, List.append_assoc, List.nil_append, length?, Option.isSome_map,
        List.find?_isSome]
      exact ⟨name, hname, by simp [hafter]⟩
    obtain ⟨n, hn⟩ := Option.isSome_iff_exists.mp hsome
    obtain ⟨tag', rest', htag', heq, rfl⟩ := hfound hn
    rw [hn, htag.eq_of_append htag' heq]

theorem isTag_iff {tag : List Char} : IsTag tag ↔ length? tag = some tag.length := by
  rw [length?_eq_some_iff]
  constructor
  · intro h
    exact ⟨tag, [], h, by simp, rfl⟩
  · rintro ⟨found, rest, hfound, htag, hlength⟩
    obtain rfl : rest = [] := by
      rw [htag, List.length_append] at hlength
      exact List.length_eq_zero_iff.mp (by omega)
    rwa [htag, List.append_nil]

instance (tag : List Char) : Decidable (IsTag tag) := decidable_of_iff' _ isTag_iff

/-- Whether a removable tag starts a text. -/
def StartsTag (cs : List Char) : Prop := ∃ tag rest, IsTag tag ∧ cs = tag ++ rest

theorem length?_eq_none {cs : List Char} (h : ¬ StartsTag cs) : length? cs = none := by
  rw [Option.eq_none_iff_forall_ne_some]
  intro n hn
  obtain ⟨tag, rest, htag, heq, -⟩ := length?_eq_some_iff.mp hn
  exact h ⟨tag, rest, htag, heq⟩

theorem not_startsTag_of_ne {c : Char} (cs : List Char) (h : c ≠ '<') : ¬ StartsTag (c :: cs) := by
  rintro ⟨tag, rest, htag, heq⟩
  obtain ⟨body, rfl, -⟩ := htag.exists_eq_cons
  exact h (List.cons.inj heq).1

/-! ## The sweep -/

theorem sweep_length_append (xs ys : List Char) : sweep xs.length (xs ++ ys) = sweep 0 ys := by
  induction xs with
  | nil => rfl
  | cons x xs ih => rw [List.length_cons, List.cons_append, sweep, ih]

/-- The tag that starts a text is taken out. -/
theorem sweep_tag {tag : List Char} (h : IsTag tag) (rest : List Char) :
    sweep 0 (tag ++ rest) = sweep 0 rest := by
  have hlength : length? (tag ++ rest) = some tag.length :=
    length?_eq_some_iff.mpr ⟨tag, rest, h, rfl, rfl⟩
  obtain ⟨body, rfl, -⟩ := h.exists_eq_cons
  rw [List.cons_append] at hlength ⊢
  rw [sweep, hlength]
  exact sweep_length_append ('/' :: (body ++ ['>'])) rest

/-- A character at which no tag starts is kept. -/
theorem sweep_cons {c : Char} {cs : List Char} (h : ¬ StartsTag (c :: cs)) :
    sweep 0 (c :: cs) = c :: sweep 0 cs := by
  rw [sweep, length?_eq_none h]

/-- Induction along a sweep: a text is empty, starts with a tag, or starts with a character that is
kept. -/
theorem sweep_induction {P : List Char → Prop} (nil : P [])
    (tag : ∀ tag rest, IsTag tag → P rest → P (tag ++ rest))
    (cons : ∀ c cs, ¬ StartsTag (c :: cs) → P cs → P (c :: cs)) (text : List Char) : P text := by
  induction hn : text.length using Nat.strongRecOn generalizing text with
  | ind n ih =>
  subst hn
  cases text with
  | nil => exact nil
  | cons c cs =>
      by_cases hstarts : StartsTag (c :: cs)
      · obtain ⟨found, rest, hfound, heq⟩ := hstarts
        rw [heq]
        refine tag found rest hfound (ih _ ?_ rest rfl)
        obtain ⟨body, rfl, -⟩ := hfound.exists_eq_cons
        simp only [heq, List.length_append, List.length_cons]
        omega
      · exact cons c cs hstarts (ih _ (by simp) cs rfl)

/-- A sweep that takes something out takes at least three characters. -/
theorem sweep_eq_or_length_le (text : List Char) :
    sweep 0 text = text ∨ (sweep 0 text).length + 3 ≤ text.length := by
  induction text using sweep_induction with
  | nil => exact .inl rfl
  | tag tag rest htag ih =>
      rw [sweep_tag htag]
      obtain ⟨body, rfl, -⟩ := htag.exists_eq_cons
      refine .inr ?_
      simp only [List.length_append, List.length_cons, List.length_nil]
      obtain heq | hle := ih
      · rw [heq]
        omega
      · omega
  | cons c cs hstarts ih =>
      rw [sweep_cons hstarts, List.length_cons, List.length_cons]
      obtain heq | hle := ih
      · exact .inl (by rw [heq])
      · exact .inr (by omega)

/-- A sweep makes no text longer. -/
theorem length_sweep_le (text : List Char) : (sweep 0 text).length ≤ text.length := by
  obtain heq | hle := sweep_eq_or_length_le text
  · exact Nat.le_of_eq (congrArg List.length heq)
  · omega

/-- A text without `<` has no tag to remove. -/
theorem sweep_of_lt_notMem {text : List Char} (h : '<' ∉ text) : sweep 0 text = text := by
  induction text with
  | nil => rfl
  | cons c cs ih =>
      rw [List.mem_cons, not_or] at h
      rw [sweep_cons (not_startsTag_of_ne cs (Ne.symm h.1)), ih h.2]

/-- A text without `>` has no tag to remove. -/
theorem sweep_of_gt_notMem {text : List Char} (h : '>' ∉ text) : sweep 0 text = text := by
  induction text with
  | nil => rfl
  | cons c cs ih =>
      have hstarts : ¬ StartsTag (c :: cs) := by
        rintro ⟨tag, rest, htag, heq⟩
        obtain ⟨body, rfl, -⟩ := htag.exists_eq_cons
        exact h (by simp [heq])
      rw [List.mem_cons, not_or] at h
      rw [sweep_cons hstarts, ih h.2]

/-- A text with a `>` at most at its end has no tag to remove, unless it ends with one. -/
theorem sweep_of_gt_notMem_dropLast {text : List Char} (hgt : '>' ∉ text.dropLast)
    (h : ∀ tail ∈ text.tails, ¬ IsTag tail) : sweep 0 text = text := by
  induction text with
  | nil => rfl
  | cons c cs ih =>
      have hstarts : ¬ StartsTag (c :: cs) := by
        rintro ⟨tag, rest, htag, heq⟩
        by_cases hrest : rest = []
        · refine h (c :: cs) (by simp) ?_
          rwa [heq, hrest, List.append_nil]
        · obtain ⟨body, rfl, -⟩ := htag.exists_eq_cons
          rw [heq, List.dropLast_append_of_ne_nil hrest] at hgt
          exact hgt (by simp)
      have hcs : '>' ∉ cs.dropLast := by
        cases cs with
        | nil => simp
        | cons d cs =>
            rw [List.dropLast_cons_of_ne_nil (by simp), List.mem_cons, not_or] at hgt
            exact hgt.2
      rw [sweep_cons hstarts, ih hcs fun tail htail => h tail (by simp [htail])]

/-- The sweep puts nothing in. -/
theorem mem_of_mem_sweep {n : Nat} {text : List Char} {c : Char} (h : c ∈ sweep n text) :
    c ∈ text := by
  fun_induction sweep n text with
  | case1 => exact h
  | case2 n d cs ih => exact List.mem_cons_of_mem _ (ih h)
  | case3 d cs n hn ih => exact List.mem_cons_of_mem _ (ih h)
  | case4 d cs hn ih =>
      obtain rfl | h := List.mem_cons.mp h
      · exact List.mem_cons_self
      · exact List.mem_cons_of_mem _ (ih h)

/-- No removable tag reaches from one part of a text into the next. -/
def Parted (xs ys : List Char) : Prop :=
  (∀ c ∈ xs.getLast?, c = '>') ∨ ∀ c ∈ ys.head?, c = '<' ∨ c = '"' ∨ c = '\''

/-- A tag that starts a part that ends with a `>`, or before one that starts with a `<` or a quote,
ends in that part. -/
theorem Parted.exists_eq_append {c : Char} {xs ys tag rest : List Char} (h : Parted (c :: xs) ys)
    (htag : IsTag tag) (heq : c :: xs ++ ys = tag ++ rest) : ∃ more, c :: xs = tag ++ more := by
  obtain ⟨more, hmore, -⟩ | ⟨spare, hspare, hys⟩ := List.append_eq_append_iff.mp heq.symm
  · exact ⟨more, hmore⟩
  cases spare with
  | nil => exact ⟨[], by simpa using hspare.symm⟩
  | cons d spare =>
      exfalso
      obtain ⟨body, rfl, hbody⟩ := htag.exists_eq_cons
      obtain hlast | hhead := h
      · -- The last character of the first part would be a `>` inside the tag.
        have hgt : '>' ∉ c :: xs := by
          have hinit : c :: xs ++ (d :: spare).dropLast = '<' :: '/' :: body := by
            rw [← List.dropLast_append_of_ne_nil (by simp), ← hspare, ← List.cons_append,
              ← List.cons_append, List.dropLast_concat]
          intro hmem
          have hmem' : '>' ∈ '<' :: '/' :: body := hinit ▸ List.mem_append_left _ hmem
          simp [hbody '>' (by decide)] at hmem'
        obtain ⟨last, hgetLast⟩ : ∃ last, (c :: xs).getLast? = some last :=
          ⟨_, List.getLast?_eq_some_getLast (by simp)⟩
        have hmem := List.mem_of_getLast? hgetLast
        rw [hlast last hgetLast] at hmem
        exact hgt hmem
      · -- The first character of the second part would be a `<` or a quote inside the tag.
        have hd := hhead d (by rw [hys]; rfl)
        have htail : '/' :: (body ++ ['>']) = xs ++ d :: spare := (List.cons.inj hspare).2
        have hmem : d ∈ '/' :: (body ++ ['>']) := by
          rw [htail]
          simp
        obtain rfl | rfl | rfl := hd
        · simp [hbody '<' (by decide)] at hmem
        · simp [hbody '"' (by decide)] at hmem
        · simp [hbody '\'' (by decide)] at hmem

/-- No removable tag starts in the first of two parts and ends in the second. -/
def Unspanned (xs ys : List Char) : Prop :=
  ∀ tail, tail <:+ xs → tail ≠ [] → ∀ tag, IsTag tag → tag <+: tail ++ ys → tag <+: tail

theorem Unspanned.of_suffix {xs tail ys : List Char} (h : Unspanned xs ys) (htail : tail <:+ xs) :
    Unspanned tail ys :=
  fun more hmore => h more (hmore.trans htail)

theorem Parted.unspanned {xs ys : List Char} (h : Parted xs ys) : Unspanned xs ys := by
  rintro tail ⟨front, rfl⟩ hne tag htag ⟨rest, heq⟩
  have htail : Parted tail ys := by
    obtain hlast | hhead := h
    · refine .inl ?_
      rwa [List.getLast?_append_of_ne_nil _ hne] at hlast
    · exact .inr hhead
  obtain ⟨c, cs, rfl⟩ := List.exists_cons_of_ne_nil hne
  obtain ⟨more, hmore⟩ := htail.exists_eq_append htag heq.symm
  exact ⟨more, hmore.symm⟩

/-- Parts that no tag spans are swept one by one. -/
theorem Unspanned.sweep_append {xs ys : List Char} (h : Unspanned xs ys) :
    sweep 0 (xs ++ ys) = sweep 0 xs ++ sweep 0 ys := by
  induction xs using sweep_induction with
  | nil => rfl
  | tag tag rest htag ih =>
      rw [List.append_assoc, sweep_tag htag, sweep_tag htag, ih (h.of_suffix ⟨tag, rfl⟩)]
  | cons c cs hstarts ih =>
      have hboth : ¬ StartsTag (c :: (cs ++ ys)) := by
        rintro ⟨tag, rest, htag, heq⟩
        obtain ⟨more, hmore⟩ := h _ List.suffix_rfl (by simp) tag htag ⟨rest, heq.symm⟩
        exact hstarts ⟨tag, more, htag, hmore.symm⟩
      rw [List.cons_append, sweep_cons hboth, sweep_cons hstarts,
        ih (h.of_suffix (List.suffix_cons c cs)), List.cons_append]

/-- Two texts that part are swept one after the other. -/
theorem sweep_append {xs ys : List Char} (h : Parted xs ys) :
    sweep 0 (xs ++ ys) = sweep 0 xs ++ sweep 0 ys :=
  h.unspanned.sweep_append

end TemplateMigration.VoidEndTag
