import Mathlib.Data.List.Infix
import TemplateMigration.Proofs.Markup.Exchange
import TemplateMigration.Proofs.Markup.VoidEndTag

/-!
# TemplateMigration.Proofs.Markup.Sweeping

The removal of end tags from a template as it is written.

The removal knows nothing of markup: it takes end tags of void elements out of values, comments and
scripts as well.  As long as it does not cut into a segment (`Segment.Sweepable`), it takes out
whole end tags and sweeps the bodies of the other segments one by one (`Segment.sweep_spell`), and
what is left is read as it is written (`Segment.readsAll_sweptAll`).
-/

namespace TemplateMigration

open MarkupEvent
open VoidEndTag (sweep IsTag)

/-! ## Tags -/

/-- A value without the end tags in it. -/
def WrittenValue.swept (v : WrittenValue) : WrittenValue := { v with content := sweep 0 v.content }

/-- An attribute whose value is without end tags. -/
def WrittenAttribute.swept (a : WrittenAttribute) : WrittenAttribute :=
  { a with value? := a.value?.map WrittenValue.swept }

/-- A part of a tag, without the end tags in its value. -/
def TagPart.swept : TagPart → TagPart
  | gap c => gap c
  | attr a => attr a.swept

/-- A start tag without the end tags in its values. -/
def WrittenTag.swept (t : WrittenTag) : WrittenTag := { t with parts := t.parts.map TagPart.swept }

/-- In front of a quote nothing is removed if there is no `>`. -/
theorem VoidEndTag.sweep_quote {front : List Char} (hfront : '>' ∉ front) {q : Char}
    (hq : isQuote q = true) (rest : List Char) :
    sweep 0 (front ++ q :: rest) = front ++ q :: sweep 0 rest := by
  have hquote : q = '"' ∨ q = '\'' := by simpa [isQuote] using hq
  have hparted : Parted front (q :: rest) := by
    refine .inr ?_
    simpa using .inr hquote
  have hne : q ≠ '<' := by
    obtain rfl | rfl := hquote <;> decide
  rw [sweep_append hparted, sweep_of_gt_notMem hfront, sweep_cons (not_startsTag_of_ne rest hne)]

theorem gt_notMem_of_all {p : Char → Bool} {cs : List Char} (h : cs.all p = true)
    (hp : p '>' = false) : '>' ∉ cs := by
  intro hmem
  rw [List.all_eq_true.mp h _ hmem] at hp
  contradiction

theorem WrittenAttribute.IsName.gt_notMem {letters : List Char} (h : IsName letters) :
    '>' ∉ letters := by
  obtain ⟨c, cs, rfl, hc⟩ := h.exists_start
  rw [List.mem_cons, not_or]
  exact ⟨Ne.symm (isAttributeNameStart_iff.mp hc).2.2, gt_notMem_of_all h.2 (by decide)⟩

/-- An attribute has no `>` in it, or it has quotes, and then only its value is swept. -/
theorem WrittenAttribute.Reads.sweep_render {a : WrittenAttribute} {rest : List Char}
    (h : a.Reads rest) :
    '>' ∉ a.render ∧ a.swept = a ∨
      ∀ front more, '>' ∉ front → (rest = [] → more = []) →
        sweep 0 (front ++ (a.render ++ more)) = front ++ (a.swept.render ++ sweep 0 more) := by
  obtain ⟨hname, -, hvalue⟩ := h
  obtain ⟨letters, value?⟩ := a
  have hletters : '>' ∉ letters := hname.gt_notMem
  cases value? with
  | none =>
      refine .inl ⟨?_, rfl⟩
      simpa [render] using hletters
  | some v =>
      obtain ⟨hbefore, hafter, hfits⟩ := hvalue v rfl
      obtain ⟨before, after, style, content⟩ := v
      have hsign : '>' ∉ letters ++ (before ++ '=' :: after) := by
        have := gt_notMem_of_all hbefore (by decide)
        have := gt_notMem_of_all hafter (by decide)
        simp_all
      cases style with
      | bare =>
          have hcontent : '>' ∉ content := gt_notMem_of_all hfits.1 (by decide)
          refine .inl ⟨?_, ?_⟩
          · simp only [render, WrittenValue.render, WrittenValue.sign, ValueStyle.opening,
              ValueStyle.closing, Option.map_some, Option.getD_some]
            simp_all
          · simp [swept, WrittenValue.swept, VoidEndTag.sweep_of_gt_notMem hcontent]
      | quoted q =>
          refine .inr ?_
          intro front more hfront hmore
          have hparted : VoidEndTag.Parted content (q :: more) := by
            have hquote : q = '"' ∨ q = '\'' := by simpa [isQuote] using hfits.1
            refine .inr ?_
            simpa using .inr hquote
          have hopen := VoidEndTag.sweep_quote (by simp_all :
            '>' ∉ front ++ (letters ++ (before ++ '=' :: after))) hfits.1 (content ++ q :: more)
          have hclose := VoidEndTag.sweep_quote (List.not_mem_nil) hfits.1 more
          rw [VoidEndTag.sweep_append hparted] at hopen
          rw [List.nil_append] at hclose
          rw [hclose] at hopen
          simpa [render, swept, WrittenValue.swept, WrittenValue.render, WrittenValue.sign,
            ValueStyle.opening, ValueStyle.closing] using hopen
      | unclosed q =>
          refine .inr ?_
          intro front more hfront hmore
          obtain ⟨hq, -, hrest⟩ := hfits
          have hopen := VoidEndTag.sweep_quote (by simp_all :
            '>' ∉ front ++ (letters ++ (before ++ '=' :: after))) hq content
          rw [hmore hrest]
          simpa [render, swept, WrittenValue.swept, WrittenValue.render, WrittenValue.sign,
            ValueStyle.opening, ValueStyle.closing, VoidEndTag.sweep] using hopen

/-- The parts of a tag are swept one by one.  The induction collects in `front` what has been passed
since the last quote, where no `>` can stand. -/
theorem TagPart.sweep_spell {ps : List TagPart} {front ending rest : List Char}
    (hfront : '>' ∉ front) (h : ReadsAll (ending ++ rest) ps)
    (hending : ending = ['>'] ∨ ending = ['/', '>'] ∨ ending = [] ∧ rest = [])
    (hends : ∀ tail ∈ (front ++ (spell ps ++ ending)).tails, ¬ IsTag tail) :
    sweep 0 (front ++ (spell ps ++ ending)) = front ++ (spell (ps.map swept) ++ ending) := by
  induction ps generalizing front with
  | nil =>
      refine VoidEndTag.sweep_of_gt_notMem_dropLast ?_ hends
      obtain rfl | rfl | ⟨rfl, -⟩ := hending
      · simpa [spell] using hfront
      · simpa [spell, List.dropLast_append_of_ne_nil] using hfront
      · intro hmem
        exact hfront (by simpa [spell] using List.mem_of_mem_dropLast hmem)
  | cons p ps ih =>
      obtain ⟨hp, hps⟩ := h
      have hcons : ∀ p ps, spell (p :: ps) = p.render ++ spell ps := fun _ _ => rfl
      rw [hcons, List.append_assoc] at hends ⊢
      rw [List.map_cons, hcons]
      -- a part without `>` joins the front
      have hpass : '>' ∉ p.render → p.swept = p →
          sweep 0 (front ++ (p.render ++ (spell ps ++ ending))) =
            front ++ (p.swept.render ++ spell (ps.map swept) ++ ending) := by
        intro hrender hswept
        have hrest := ih (by simp [hfront, hrender] : '>' ∉ front ++ p.render) hps
          (by simpa using hends)
        rw [hswept]
        simpa using hrest
      cases p with
      | gap c =>
          refine hpass ?_ rfl
          obtain hblank | ⟨rfl, -⟩ := hp
          · rw [render, List.mem_singleton]
            rintro rfl
            contradiction
          · decide
      | attr a =>
          obtain ⟨hrender, hswept⟩ | hsweep := WrittenAttribute.Reads.sweep_render hp
          · exact hpass hrender (by rw [swept, hswept])
          · have hmore : spell ps ++ (ending ++ rest) = [] → spell ps ++ ending = [] := by
              simp +contextual
            have hrest := ih (List.not_mem_nil) hps (by
              intro tail htail
              rw [List.nil_append, List.mem_tails] at htail
              refine hends tail ((List.mem_tails _ _).mpr (htail.trans ?_))
              exact (List.suffix_append _ _).trans (List.suffix_append _ _))
            rw [List.nil_append, List.nil_append] at hrest
            rw [render, hsweep front _ hfront hmore, hrest, swept, render, List.append_assoc]

/-- A tag that does not end with a removable end tag is swept inside its values. -/
theorem WrittenTag.Reads.sweep_render {t : WrittenTag} {rest : List Char} (h : t.Reads rest)
    (hends : ∀ tail ∈ t.render.tails, ¬ IsTag tail) : sweep 0 t.render = t.swept.render := by
  have hletters : '>' ∉ '<' :: t.letters := by
    rw [List.mem_cons, not_or]
    exact ⟨by decide, gt_notMem_of_all h.name.2 (by decide)⟩
  exact TagPart.sweep_spell hletters h.parts h.ending hends

/-- A tag ends with a `>`, or with the template. -/
theorem WrittenTag.Reads.exists_eq_append {t : WrittenTag} {rest : List Char} (h : t.Reads rest) :
    (∃ front, t.render = front ++ ['>']) ∨ rest = [] := by
  obtain hending | hending | ⟨-, hnil⟩ := h.ending
  · exact .inl ⟨'<' :: (t.letters ++ TagPart.spell t.parts), by simp [render, hending]⟩
  · exact .inl ⟨'<' :: (t.letters ++ (TagPart.spell t.parts ++ ['/'])), by simp [render, hending]⟩
  · exact .inr hnil

/-- Values lose nothing that their quotes need. -/
theorem TagPart.ReadsAll.becomes_swept {ps : List TagPart} {rest : List Char}
    (h : ReadsAll rest ps) : List.Forall₂ Becomes ps (ps.map swept) := by
  induction ps with
  | nil => exact .nil
  | cons p ps ih =>
      obtain ⟨hp, hps⟩ := h
      refine .cons ?_ (ih hps)
      cases p with
      | gap c => exact .gap c
      | attr a =>
          refine .attr ⟨hp.1, .inl rfl, fun v => sweep 0 v.content, rfl, ?_⟩
          intro v hv
          have hfits := (hp.2.2 v hv).2.2
          cases hstyle : v.style with
          | bare =>
              rw [hstyle] at hfits
              exact .inl (VoidEndTag.sweep_of_gt_notMem (gt_notMem_of_all hfits.1 (by decide)))
          | quoted q =>
              rw [hstyle] at hfits
              exact .inr fun hmem => hfits.2 (VoidEndTag.mem_of_mem_sweep hmem)
          | unclosed q =>
              rw [hstyle] at hfits
              exact .inr fun hmem => hfits.2.1 (VoidEndTag.mem_of_mem_sweep hmem)

/-! ## Segments -/

namespace Segment

/-- What is left of a segment: nothing of a removable end tag, and everything else of another one.
-/
def swept : Segment → List Segment
  | text content => [text (sweep 0 content)]
  | comment body => [comment (sweep 0 body)]
  | declaration mark body => [declaration mark (sweep 0 body)]
  | endTag letters body =>
      if IsTag (render (endTag letters body)) then [] else [endTag letters body]
  | startTag tag body => [startTag tag.swept (sweep 0 body)]

/-- What is left of segments. -/
def sweptAll (ps : List Segment) : List Segment := ps.flatMap swept

/-- Whether a segment is a removable end tag. -/
def isRemoved : Segment → Bool
  | endTag letters body => IsTag (render (endTag letters body))
  | _ => false

/-- The removal does not cut into a segment before others: it takes nothing out of a text and brings
none of its `<` before a name, closes no comment and no declaration early, ends no script early, and
takes out the end tag of a void element as a whole or not at all. -/
def Sweepable (next : List Segment) : Segment → Prop
  | text content =>
      sweep 0 content = content ∧ (next.head?.any isRemoved = true → ¬ EndsOpen content)
  | comment body => Closes ['-', '-', '>'] (sweep 0 body) (spell next)
  | declaration mark body => (declaration mark (sweep 0 body)).Reads (spell next)
  | endTag letters body =>
      ∀ tail ∈ (render (endTag letters body)).tails, IsTag tail →
        tail = render (endTag letters body) ∧ isVoidElement (lowerCase letters) = true
  | startTag tag body =>
      (∀ tail ∈ tag.render.tails, ¬ IsTag tail) ∧
        (tag.hasRawBody = true →
          indexOf? (rawEnd tag.name) ((sweep 0 body).map Char.toLower) = none)

instance (next : List Segment) (p : Segment) : Decidable (p.Sweepable next) :=
  match p with
  | text _ => inferInstanceAs (Decidable (_ ∧ _))
  | comment _ => inferInstanceAs (Decidable (Closes _ _ _))
  | declaration mark body => inferInstanceAs (Decidable ((declaration mark (sweep 0 body)).Reads _))
  | endTag letters body =>
      inferInstanceAs (Decidable (∀ tail ∈ (render (endTag letters body)).tails, _))
  | startTag _ _ => inferInstanceAs (Decidable (_ ∧ _))

/-- The removal cuts into none of the segments. -/
def SweepableAll : List Segment → Prop
  | [] => True
  | p :: ps => p.Sweepable ps ∧ SweepableAll ps

instance decidableSweepableAll : (ps : List Segment) → Decidable (SweepableAll ps)
  | [] => isTrue trivial
  | p :: ps =>
      letI := decidableSweepableAll ps
      inferInstanceAs (Decidable (p.Sweepable ps ∧ SweepableAll ps))

/-- No two texts stand side by side. -/
def Apart (ps : List Segment) : Prop := ps.IsChain fun p q => p.isText = true → q.isText = false

instance (ps : List Segment) : Decidable (Apart ps) :=
  inferInstanceAs (Decidable (List.IsChain _ _))

end Segment

theorem VoidEndTag.sweep_lt_cons {c : Char} (hc : c ≠ '/') (cs : List Char) :
    sweep 0 ('<' :: c :: cs) = '<' :: sweep 0 (c :: cs) := by
  refine sweep_cons ?_
  rintro ⟨tag, rest, htag, heq⟩
  obtain ⟨body, rfl, -⟩ := htag.exists_eq_cons
  exact hc (List.cons.inj (List.cons.inj heq).2).1

/-- Text without a `<` is kept by the sweep. -/
theorem VoidEndTag.sweep_append_of_lt_notMem {xs : List Char} (h : '<' ∉ xs) (ys : List Char) :
    sweep 0 (xs ++ ys) = xs ++ sweep 0 ys := by
  induction xs with
  | nil => rfl
  | cons c xs ih =>
      rw [List.mem_cons, not_or] at h
      rw [List.cons_append, sweep_cons (not_startsTag_of_ne _ (Ne.symm h.1)), ih h.2,
        List.cons_append]

/-! ## Ends of scripts -/

/-- Only capital letters change in lower case. -/
theorem eq_of_toLower_eq {c d : Char} (h : c.toLower = d) (hd : d.isLower = false) : c = d := by
  unfold Char.toLower at h
  split at h
  · next hupper =>
      exfalso
      have hsmall : d.isLower = (decide (d.val ≥ 'a'.val) && decide (d.val ≤ 'z'.val)) := rfl
      rw [hsmall, ← h] at hd
      simp only [Bool.and_eq_false_iff, decide_eq_false_iff_not, UInt32.le_iff_toNat_le]
        at hd hupper
      simp at hd hupper
      omega
  · exact h

/-- What ends a raw body is written in capital or small letters. -/
theorem exists_of_rawEnd_isPrefixOf {name : String} {rest : List Char}
    (h : (rawEnd name).isPrefixOf (rest.map Char.toLower) = true) :
    ∃ letters more, rest = '<' :: '/' :: (letters ++ more) ∧
      letters.map Char.toLower = name.toList := by
  obtain ⟨after, hafter⟩ := List.isPrefixOf_iff_prefix.mp h
  obtain ⟨c, cs, rfl, hc, hcs⟩ := List.map_eq_cons_iff.mp hafter.symm
  obtain ⟨d, ds, rfl, hd, hds⟩ := List.map_eq_cons_iff.mp hcs
  obtain ⟨letters, more, rfl, hletters, -⟩ := List.map_eq_append_iff.mp hds
  obtain rfl := eq_of_toLower_eq hc (by decide)
  obtain rfl := eq_of_toLower_eq hd (by decide)
  exact ⟨letters, more, rfl, hletters⟩

theorem rawEnd_isPrefixOf {name : String} {letters : List Char}
    (h : letters.map Char.toLower = name.toList) (more : List Char) :
    (rawEnd name).isPrefixOf (('<' :: '/' :: (letters ++ more)).map Char.toLower) = true := by
  rw [List.isPrefixOf_iff_prefix]
  refine ⟨more.map Char.toLower, ?_⟩
  have hlt : ('<').toLower = '<' := rfl
  have hslash : ('/').toLower = '/' := rfl
  simp [rawEnd, h, hlt, hslash]

theorem isAlpha_of_isLower_toLower {c : Char} (h : c.toLower.isLower = true) :
    c.isAlpha = true := by
  have halpha : c.isAlpha = (c.isUpper || c.isLower) := rfl
  unfold Char.toLower at h
  split at h
  · next hupper =>
      have hcapital : c.isUpper = true := decide_eq_true hupper
      rw [halpha, hcapital, Bool.true_or]
  · rw [halpha, h, Bool.or_true]

/-- The letters with which a raw body ends are letters indeed. -/
theorem isAlpha_of_map_toLower_eq {name : String} (hname : isRawTextElement name = true)
    {letters : List Char} (h : letters.map Char.toLower = name.toList) :
    letters ≠ [] ∧ ∀ c ∈ letters, c.isAlpha = true := by
  have hsmall : name.toList ≠ [] ∧ name.toList.all Char.isLower = true := by
    rw [isRawTextElement, Bool.or_eq_true, beq_iff_eq, beq_iff_eq] at hname
    obtain rfl | rfl := hname <;> decide
  rw [← h, List.all_map, List.all_eq_true] at hsmall
  exact ⟨by simpa using hsmall.1, fun c hc => isAlpha_of_isLower_toLower (hsmall.2 c hc)⟩

namespace Segment

variable {ps : List Segment}

/-- Only no segments are spelled as nothing. -/
theorem eq_nil_of_spell_eq_nil (h : Runs ps) (hspell : spell ps = []) : ps = [] := by
  cases ps with
  | nil => rfl
  | cons p ps =>
      obtain ⟨hp, -⟩ := List.append_eq_nil_iff.mp hspell
      cases htext : p.isText with
      | true => exact absurd hp (h.1 htext).1
      | false =>
          obtain ⟨more, hmore⟩ := exists_render_eq_cons htext
          rw [hmore] at hp
          contradiction

/-- What ends a script is an end tag whose name starts with that of the script. -/
theorem exists_endTag_of_rawEnd {name : String} (hname : isRawTextElement name = true)
    (h : ReadsAll ps) (hruns : Runs ps)
    (hend : (rawEnd name).isPrefixOf ((spell ps).map Char.toLower) = true) :
    ∃ letters more body rest, ps = endTag (letters ++ more) body :: rest ∧
      letters.map Char.toLower = name.toList := by
  obtain ⟨letters, tail, hspell, hletters⟩ := exists_of_rawEnd_isPrefixOf hend
  obtain ⟨hne, halpha⟩ := isAlpha_of_map_toLower_eq hname hletters
  obtain ⟨x, xs, hx⟩ := List.exists_cons_of_ne_nil hne
  have hxalpha : x.isAlpha = true := halpha x (by simp [hx])
  cases ps with
  | nil => contradiction
  | cons p ps =>
      obtain ⟨hp, -⟩ := h
      cases p with
      | text content =>
          exfalso
          obtain ⟨c, cs, rfl⟩ := List.exists_cons_of_ne_nil (hruns.1 rfl).1
          obtain ⟨rfl, hcs⟩ : c = '<' ∧ cs ++ spell ps = '/' :: (letters ++ tail) :=
            List.cons.inj hspell
          have hopen := hp.1 rfl
          rw [hcs, hx] at hopen
          simp [opensMarkup, hxalpha] at hopen
      | comment body => contradiction
      | declaration mark body =>
          obtain ⟨-, hmark⟩ := List.cons.inj hspell
          obtain ⟨⟨rfl, -⟩ | rfl, -⟩ := hp
          · contradiction
          · contradiction
      | startTag tag body =>
          obtain ⟨c, cs, hc, hcalpha⟩ := hp.1.name.exists_eq_cons
          simp only [spell_cons, render, WrittenTag.render, hc, List.cons_append, List.cons.injEq]
            at hspell
          obtain ⟨-, rfl, -⟩ := hspell
          contradiction
      | endTag found body =>
          have hcut : found ++ (body ++ spell ps) = letters ++ tail := by
            simpa [render] using hspell
          obtain ⟨more, hmore, hrest⟩ | ⟨more, rfl, -⟩ := List.append_eq_append_iff.mp hcut
          · -- The name of the end tag does not end inside these letters.
            cases more with
            | nil => exact ⟨letters, [], body, ps, by simp [hmore], hletters⟩
            | cons y ys =>
                have hstops := hp.2.2.takeWhile_isTagNamePart hp.2.1
                rw [hrest, List.cons_append, List.takeWhile_cons_of_pos] at hstops
                · contradiction
                · exact isTagNamePart_of_isAlpha (halpha y (by simp [hmore]))
          · exact ⟨letters, more, body, ps, rfl, hletters⟩

end Segment

namespace VoidEndTag

theorem toLower_eq_of_foldsTo {x c : Char} (h : foldsTo x c = true)
    (hc : c.toLower.isLower = true) : c.toLower = x := by
  simp only [foldsTo, Bool.or_eq_true, Bool.and_eq_true, beq_iff_eq] at h
  obtain (h | ⟨-, rfl⟩) | ⟨-, rfl⟩ := h
  · exact h
  · contradiction
  · contradiction

/-- The end of a script is no removable end tag. -/
theorem not_startsTag_of_raw {name : String} (hname : isRawTextElement name = true)
    {letters : List Char} (hletters : letters.map Char.toLower = name.toList) (more : List Char) :
    ¬ StartsTag ('<' :: '/' :: (letters ++ more)) := by
  have hstart : ∃ c d cs, letters = c :: d :: cs ∧ c.toLower = 's' ∧
      (d.toLower = 'c' ∨ d.toLower = 't') := by
    rw [isRawTextElement, Bool.or_eq_true, beq_iff_eq, beq_iff_eq] at hname
    obtain ⟨x, cs, hx⟩ : ∃ x cs, name.toList = 's' :: x :: cs ∧ (x = 'c' ∨ x = 't') := by
      obtain rfl | rfl := hname
      · exact ⟨'c', _, rfl, .inl rfl⟩
      · exact ⟨'t', _, rfl, .inr rfl⟩
    rw [hx.1] at hletters
    obtain ⟨c, cs', rfl, hc, hcs⟩ := List.map_eq_cons_iff.mp hletters
    obtain ⟨d, ds, rfl, hd, -⟩ := List.map_eq_cons_iff.mp hcs
    exact ⟨c, d, ds, rfl, hc, hd ▸ hx.2⟩
  obtain ⟨c, d, cs, rfl, hc, hd⟩ := hstart
  rintro ⟨tag, rest, ⟨void, hvoid, found, hfound, rfl⟩, heq⟩
  have hvoids : names.all (fun n => 2 ≤ n.length && n.take 2 != ['s', 'c'] &&
    n.take 2 != ['s', 't']) = true := by decide
  have hnames := List.all_eq_true.mp hvoids void hvoid
  -- the first two letters tell the names apart
  obtain _ | ⟨hx, hfound⟩ := hfound
  · simp at hnames
  obtain _ | ⟨hy, hfound⟩ := hfound
  · simp at hnames
  simp only [List.cons_append, List.cons.injEq, true_and] at heq
  obtain ⟨rfl, rfl, -⟩ := heq
  have hx' := toLower_eq_of_foldsTo hx (by rw [hc]; rfl)
  have hy' := toLower_eq_of_foldsTo hy (by obtain hd | hd := hd <;> rw [hd] <;> rfl)
  obtain hd | hd := hd
  · simp [← hx', ← hy', hc, hd] at hnames
  · simp [← hx', ← hy', hc, hd] at hnames

/-- What ends a script still does. -/
theorem rawEnd_isPrefixOf_sweep {name : String} (hname : isRawTextElement name = true)
    {rest : List Char} (h : (rawEnd name).isPrefixOf (rest.map Char.toLower) = true) :
    (rawEnd name).isPrefixOf ((sweep 0 rest).map Char.toLower) = true := by
  obtain ⟨letters, more, rfl, hletters⟩ := exists_of_rawEnd_isPrefixOf h
  have hlt : '<' ∉ '/' :: letters := by
    rw [List.mem_cons, not_or]
    refine ⟨by decide, ?_⟩
    intro hmem
    have hmem' : ('<').toLower ∈ letters.map Char.toLower := List.mem_map_of_mem hmem
    rw [hletters] at hmem'
    exact lt_notMem_of_isRawTextElement hname hmem'
  rw [sweep_cons (not_startsTag_of_raw hname hletters more), ← List.cons_append,
    sweep_append_of_lt_notMem hlt]
  exact rawEnd_isPrefixOf hletters _

end VoidEndTag

/-! ## Segments one by one -/

namespace Closes

variable {word body rest : List Char}

/-- A body that is closed ends with what closes it. -/
theorem exists_eq_append (h : Closes word body rest) :
    (∃ before, body = before ++ word) ∨ rest = [] := by
  obtain hfound | ⟨-, hnil⟩ := h
  · obtain ⟨before, after, hbody, hlength⟩ := eq_append_of_indexOf? hfound
    refine .inl ⟨before, ?_⟩
    obtain rfl : after = [] := by
      have := congrArg List.length hbody
      simp only [List.length_append] at this
      exact List.length_eq_zero_iff.mp (by omega)
    simpa using hbody
  · exact .inr hnil

/-- A `>` closes a body only at its end. -/
theorem gt_notMem_dropLast (h : Closes ['>'] body rest) : '>' ∉ body.dropLast := by
  obtain hfound | ⟨hnone, -⟩ := h
  · have htake := notMem_take_of_indexOf? hfound
    rwa [List.length_singleton, ← List.dropLast_eq_take] at htake
  · exact fun hmem => notMem_of_indexOf?_eq_none hnone (List.mem_of_mem_dropLast hmem)

end Closes

namespace Segment

variable {p : Segment} {ps : List Segment} {rest : List Char}

/-- One segment is swept. -/
theorem sweep_render {next : List Segment} (h : p.Reads rest) (hs : p.Sweepable next) :
    sweep 0 p.render = spell p.swept := by
  cases p with
  | text content => simp [swept, render]
  | comment body =>
      simp only [render, swept, spell_cons, spell_nil, List.append_nil]
      rw [VoidEndTag.sweep_lt_cons (by decide)]
      have hdashes : '<' ∉ ['!', '-', '-'] := by decide
      exact congrArg _ (VoidEndTag.sweep_append_of_lt_notMem hdashes body)
  | declaration mark body =>
      simp only [render, swept, spell_cons, spell_nil, List.append_nil]
      have hmark : mark ≠ '/' ∧ mark ≠ '<' := by
        obtain ⟨⟨rfl, -⟩ | rfl, -⟩ := h <;> decide
      rw [VoidEndTag.sweep_lt_cons hmark.1,
        VoidEndTag.sweep_cons (VoidEndTag.not_startsTag_of_ne body hmark.2)]
  | endTag letters body =>
      rw [swept]
      split
      · next htag => simpa [VoidEndTag.sweep] using VoidEndTag.sweep_tag htag []
      · next htag =>
          rw [spell_cons, spell_nil, List.append_nil]
          refine VoidEndTag.sweep_of_gt_notMem_dropLast ?_ ?_
          · obtain ⟨hname, -, hcloses⟩ := h
            have hletters : '>' ∉ '<' :: '/' :: letters := by
              have := gt_notMem_of_all hname.2 (by decide)
              simp [this]
            have hsplit : (endTag letters body).render = '<' :: '/' :: letters ++ body := rfl
            rw [hsplit]
            by_cases hbody : body = []
            · rw [hbody, List.append_nil]
              exact fun hmem => hletters (List.mem_of_mem_dropLast hmem)
            · rw [List.dropLast_append_of_ne_nil hbody, List.mem_append, not_or]
              exact ⟨hletters, hcloses.gt_notMem_dropLast⟩
          · intro tail htail htag'
            rw [(hs tail htail htag').1] at htag'
            exact htag htag'
  | startTag tag body =>
      have hparted : VoidEndTag.Parted tag.render body := by
        obtain ⟨front, hfront⟩ | hnil := h.1.exists_eq_append
        · exact .inl (by simp [hfront])
        · exact .inr (by simp [(List.append_eq_nil_iff.mp hnil).1])
      rw [render, VoidEndTag.sweep_append hparted, h.1.sweep_render hs.1]
      simp [swept, render]

/-- No removable end tag reaches from a segment into the next ones. -/
theorem parted (h : p.Reads (spell ps)) (hp : p.isText = true → ps.head?.all (!·.isText) = true) :
    VoidEndTag.Parted p.render (spell ps) := by
  have hclosed : ∀ word front body, Closes (word ++ ['>']) body (spell ps) →
      VoidEndTag.Parted (front ++ body) (spell ps) := by
    intro word front body hcloses
    obtain ⟨before, rfl⟩ | hnil := hcloses.exists_eq_append
    · exact .inl (by simp)
    · exact .inr (by simp [hnil])
  cases p with
  | text content =>
      refine .inr ?_
      cases ps with
      | nil => simp
      | cons q qs =>
          have hq : q.isText = false := by simpa using hp rfl
          obtain ⟨more, hmore⟩ := exists_render_eq_cons hq
          simp [hmore]
  | comment body => exact hclosed ['-', '-'] ['<', '!', '-', '-'] body h
  | declaration mark body => exact hclosed [] ['<', mark] body h.2
  | endTag letters body => exact hclosed [] ('<' :: '/' :: letters) body h.2.2
  | startTag tag body =>
      obtain ⟨htag, hbody⟩ := h
      split at hbody
      · obtain hnil | hraw := hbody.2
        · exact .inr (by simp [hnil])
        · refine .inr ?_
          obtain ⟨letters, more, hrest, -⟩ := exists_of_rawEnd_isPrefixOf hraw
          simp [hrest]
      · rw [render, hbody, List.append_nil]
        rw [hbody, List.nil_append] at htag
        obtain ⟨front, hfront⟩ | hnil := htag.exists_eq_append
        · exact .inl (by simp [hfront])
        · exact .inr (by simp [hnil])

theorem Apart.head (h : Apart (p :: ps)) (hp : p.isText = true) :
    ps.head?.all (!·.isText) = true := by
  cases ps with
  | nil => rfl
  | cons q qs => simpa using (List.isChain_cons_cons.mp h).1 hp

theorem Apart.tail (h : Apart (p :: ps)) : Apart ps := by
  cases h with
  | singleton => exact .nil
  | cons_cons _ hrest => exact hrest

/-- **The removal sweeps segment by segment.** -/
theorem sweep_spell (h : ReadsAll ps) (hapart : Apart ps) (hs : SweepableAll ps) :
    sweep 0 (spell ps) = spell (sweptAll ps) := by
  induction ps with
  | nil => rfl
  | cons p ps ih =>
      obtain ⟨hp, hps⟩ := h
      rw [spell_cons, VoidEndTag.sweep_append (parted hp hapart.head), sweep_render hp hs.1,
        ih hps hapart.tail hs.2]
      simp [sweptAll, spell]

/-- What a sweep leaves of a text is spelled by the swept segments. -/
theorem toList_strip_spell (h : ReadsAll ps) (hapart : Apart ps) (hs : SweepableAll ps) :
    (VoidEndTag.strip (String.ofList (spell ps))).toList = spell (sweptAll ps) := by
  rw [VoidEndTag.strip, String.toList_ofList, String.toList_ofList, sweep_spell h hapart hs]

/-- A segment that is not text and not removed still starts with a `<`. -/
theorem exists_spell_swept_eq_cons (hp : p.isText = false) (hremoved : p.isRemoved = false) :
    ∃ more, spell p.swept = '<' :: more := by
  cases p with
  | text content => contradiction
  | endTag letters body =>
      have htag : ¬ IsTag (render (endTag letters body)) := by simpa [isRemoved] using hremoved
      rw [swept, if_neg htag]
      exact ⟨_, rfl⟩
  | _ => exact ⟨_, rfl⟩

/-- A text that is left alone still is text. -/
theorem textReads_swept {content : List Char} (h : TextReads (spell ps) content)
    (hhead : ps.head?.all (!·.isText) = true) (hs : (text content).Sweepable ps) :
    TextReads (spell (sweptAll ps)) content := by
  cases ps with
  | nil => exact h.of_head rfl
  | cons q qs =>
      cases hremoved : q.isRemoved with
      | true => exact h.of_not_endsOpen (hs.2 (by simpa using hremoved)) _
      | false =>
          obtain ⟨more, hmore⟩ := exists_spell_swept_eq_cons (by simpa using hhead) hremoved
          have hspell : spell (sweptAll (q :: qs)) = '<' :: (more ++ spell (sweptAll qs)) := by
            rw [sweptAll, List.flatMap_cons, spell, List.flatMap_append, ← spell, hmore]
            rfl
          exact h.of_head (by simp [hspell])

/-- **What is left is read as it is written.** -/
theorem readsAll_sweptAll (h : ReadsAll ps) (hapart : Apart ps) (hs : SweepableAll ps) :
    ReadsAll (sweptAll ps) := by
  induction ps with
  | nil => trivial
  | cons p ps ih =>
      have hrest := ih h.2 hapart.tail hs.2
      have hspell := sweep_spell h.2 hapart.tail hs.2
      have hnil : spell ps = [] → spell (sweptAll ps) = [] := by
        intro hnil
        rw [← hspell, hnil]
        rfl
      obtain ⟨hp, -⟩ := h
      cases p with
      | text content =>
          have hcontent := textReads_swept hp (hapart.head rfl) hs.1
          refine ⟨?_, hrest⟩
          rwa [hs.1.1]
      | comment body => exact ⟨Closes.of_rest hs.1 hnil, hrest⟩
      | declaration mark body => exact ⟨⟨hs.1.1, Closes.of_rest hs.1.2 hnil⟩, hrest⟩
      | endTag letters body =>
          rw [sweptAll, List.flatMap_cons, swept]
          split
          · exact hrest
          · exact ⟨⟨hp.1, hp.2.1, hp.2.2.of_rest hnil⟩, hrest⟩
      | startTag tag body =>
          obtain ⟨htag, hbody⟩ := hp
          refine ⟨⟨?_, ?_⟩, hrest⟩
          · refine htag.exchange htag.parts.becomes_swept ?_
            intro hempty
            obtain ⟨rfl, hempty⟩ := List.append_eq_nil_iff.mp hempty
            exact hnil hempty
          · show if tag.hasRawBody then RawReads tag.name _ _ else _
            split
            · next hraw =>
                rw [if_pos hraw] at hbody
                refine ⟨hs.1.2 hraw, hbody.2.imp hnil ?_⟩
                have hname : isRawTextElement tag.name = true := by
                  rw [WrittenTag.hasRawBody, Bool.and_eq_true] at hraw
                  exact hraw.2
                intro hend
                have hend' := VoidEndTag.rawEnd_isPrefixOf_sweep hname hend
                rwa [hspell] at hend'
            · next hraw =>
                rw [if_neg hraw] at hbody
                rw [hbody]
                rfl

end Segment

end TemplateMigration
