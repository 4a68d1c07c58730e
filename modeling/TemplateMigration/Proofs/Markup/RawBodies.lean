import Mathlib.Data.List.Chain
import TemplateMigration.Proofs.Markup.Sweeping
import TemplateMigration.Proofs.Markup.TreeOrder

/-!
# TemplateMigration.Proofs.Markup.RawBodies

Which scripts and styles have children.

The body of a raw text element is skipped up to the first `</` with the element's name behind it, so
the next event is an end tag whose name starts with that of the element (`MarkupEvent.RawFollowed`,
`Node.isChain_scan`).  It need not be the end tag of the element: the name can go on.  Such an end
tag may close nothing, and then the element takes in what follows, until another end tag closes it.
-/

namespace TemplateMigration

open MarkupEvent

/-- Lower case keeps the characters of a tag's name apart from the others. -/
theorem isTagNamePart_toLower (c : Char) : isTagNamePart c.toLower = isTagNamePart c := by
  by_cases hc : c.toLower.isLower = true
  · have hlower : c.toLower.isAlpha = true := by
      rw [show c.toLower.isAlpha = (c.toLower.isUpper || c.toLower.isLower) from rfl, hc,
        Bool.or_true]
    rw [isTagNamePart_of_isAlpha hlower, isTagNamePart_of_isAlpha (isAlpha_of_isLower_toLower hc)]
  · rw [← eq_of_toLower_eq (d := c.toLower) rfl (by simpa using hc)]

/-! ## What follows a raw text element -/

namespace MarkupEvent

/-- What may follow an event: after the start tag of a raw text element, only an end tag whose name
starts with that of the element. -/
def RawFollowed : MarkupEvent → MarkupEvent → Prop
  | start tag false, e =>
      isRawTextElement tag.name = true → ∃ name, e = stop name ∧ tag.name.toList <+: name.toList
  | start _ true, _ | text _, _ | stop _, _ => True

theorem toList_lowerCase (cs : List Char) : (lowerCase cs).toList = cs.map Char.toLower :=
  String.toList_ofList

/-- Text can come before everything. -/
theorem isChain_ofText_append {es : List MarkupEvent} (h : es.IsChain RawFollowed) (offset : Nat)
    (content : List Char) : (ofText offset content ++ es).IsChain RawFollowed := by
  rw [ofText]
  split
  · exact h
  · exact h.cons fun _ _ => trivial

end MarkupEvent

namespace Segment

variable {ps : List Segment}

/-- Behind the start tag of a raw text element stands its end tag or one that looks like it. -/
theorem rawFollowed_of_mem_head? {tag : WrittenTag} {body : List Char}
    (h : ReadsAll (startTag tag body :: ps)) (hruns : Runs ps) (start offset : Nat)
    {e : MarkupEvent} (he : e ∈ (eventsFrom offset [] offset ps).head?) :
    RawFollowed (.start (tag.located start) tag.isLeaf) e := by
  obtain ⟨⟨-, hbody⟩, hps⟩ := h
  cases hleaf : tag.isLeaf with
  | true => trivial
  | false =>
      intro hraw
      have hname : isRawTextElement tag.name = true := hraw
      rw [WrittenTag.hasRawBody, hleaf, hname, Bool.not_false, Bool.and_true, if_pos rfl] at hbody
      obtain hnil | hend := hbody.2
      · rw [eq_nil_of_spell_eq_nil hruns hnil] at he
        contradiction
      · obtain ⟨letters, more, rest, qs, rfl, hletters⟩ :=
          exists_endTag_of_rawEnd hname hps hruns hend
        obtain rfl : MarkupEvent.stop (lowerCase (letters ++ more)) = e := by
          simpa [eventsFrom, isText, ofText, event?] using he
        refine ⟨_, rfl, ?_⟩
        rw [toList_lowerCase, List.map_append, hletters]
        exact List.prefix_append _ _

theorem isChain_eventsFrom (h : ReadsAll ps) (hruns : Runs ps) (start offset : Nat)
    (pending : List Char) : (eventsFrom start pending offset ps).IsChain RawFollowed := by
  induction ps generalizing start offset pending with
  | nil => simpa [eventsFrom] using isChain_ofText_append .nil start pending
  | cons p ps ih =>
      have hrest := ih h.2 hruns.2
      rw [eventsFrom]
      split
      · exact hrest _ _ _
      · rw [List.append_assoc]
        refine isChain_ofText_append ?_ _ _
        have hnext := hrest (offset + byteCount p.render) (offset + byteCount p.render) []
        cases p with
        | text content => contradiction
        | comment body => exact hnext
        | declaration mark body => exact hnext
        | endTag letters body => exact hnext.cons fun _ _ => trivial
        | startTag tag body =>
            exact hnext.cons fun e he => rawFollowed_of_mem_head? h hruns.2 offset _ he

theorem reads_of_mem {p : Segment} (h : ReadsAll ps) (hp : p ∈ ps) : ∃ rest, p.Reads rest := by
  induction ps with
  | nil => contradiction
  | cons q ps ih =>
      obtain rfl | hmem := List.mem_cons.mp hp
      · exact ⟨_, h.1⟩
      · exact ih h.2 hmem

/-- An end tag that a scan meets is written in the source. -/
theorem exists_letters_of_mem_eventsFrom {name : String} {start offset : Nat} {pending : List Char}
    (h : ReadsAll ps) (he : .stop name ∈ eventsFrom start pending offset ps) :
    ∃ letters, name = lowerCase letters ∧ WrittenTag.IsName letters ∧
      '<' :: '/' :: letters <:+: spell ps := by
  obtain ⟨run, hrun⟩ | ⟨p, hp, offset', hevent⟩ := exists_of_mem_eventsFrom he
  · contradiction
  · cases p with
    | endTag letters body =>
        obtain ⟨rest, hname, -⟩ := reads_of_mem h hp
        have hletters : lowerCase letters = name := by simpa [event?] using hevent
        obtain ⟨front, back, rfl⟩ := List.append_of_mem hp
        exact ⟨letters, hletters.symm, hname, spell front, body ++ spell back, by
          simp [spell, render]⟩
    | startTag tag body => simp [event?] at hevent
    | _ => contradiction

end Segment

/-! ## Children of raw text elements -/

/-- The start tag of an element is followed by an end tag whose name goes on behind that of the
element.  It closes nothing, and text or a start tag comes next with nothing but other stray end
tags in between. -/
def MarkupEvent.LeftOpen (es : List MarkupEvent) (tag : StartTag) : Prop :=
  ∃ before other strays next after,
    es = before ++ start tag false :: stop other :: (strays ++ next :: after) ∧
      tag.name.toList <+: other.toList ∧
      (∀ s ∈ stop other :: strays, s.IsStray (tag.name :: openNames before)) ∧ next.items ≠ []

/-- A source holds an end tag that looks like that of an element of a name: the name goes on. -/
def HoldsLookalike (name : String) (source : String) : Prop :=
  ∃ c, isTagNamePart c = true ∧ rawEnd name ++ [c] <:+: source.toList.map Char.toLower

namespace Node

variable {source : String} {tag : StartTag} {children : List Node}

theorem isChain_scan (source : String) : (scan source).IsChain RawFollowed := by
  obtain ⟨ps, hps⟩ := Segment.exists_spells source
  rw [Segment.scan_eq_eventsFrom hps.reads hps.spell_eq]
  exact Segment.isChain_eventsFrom hps.reads hps.runs 0 0 []

theorem nodup_items_scan (source : String) : ((scan source).flatMap MarkupEvent.items).Nodup := by
  have hbounds := (eventsIn_scan source).bounds
  refine (eventsIn_scan source).pairwise_items.imp_of_mem ?_
  rintro i j hi - hij rfl
  exact absurd (hbounds i hi).2 (Nat.not_lt_of_le hij)

/-- An end tag whose name goes on behind a given name is written so in the source. -/
theorem holdsLookalike_of_mem_scan {name other : String} (h : .stop other ∈ scan source)
    (hstarts : name.toList <+: other.toList) (hne : other ≠ name) : HoldsLookalike name source := by
  obtain ⟨ps, hps⟩ := Segment.exists_spells source
  rw [Segment.scan_eq_eventsFrom hps.reads hps.spell_eq] at h
  obtain ⟨letters, rfl, hname, hspelled⟩ := Segment.exists_letters_of_mem_eventsFrom hps.reads h
  obtain ⟨more, hmore⟩ := hstarts
  cases more with
  | nil =>
      rw [List.append_nil] at hmore
      exact absurd (String.toList_inj.mp hmore).symm hne
  | cons c more =>
      rw [toList_lowerCase] at hmore
      have hc : c ∈ letters.map Char.toLower := by simp [← hmore]
      obtain ⟨y, hy, rfl⟩ := List.mem_map.mp hc
      refine ⟨y.toLower, ?_, ?_⟩
      · rw [isTagNamePart_toLower]
        exact List.all_eq_true.mp hname.2 y hy
      · rw [hps.spell_eq] at hspelled
        refine List.IsInfix.trans ⟨[], more, ?_⟩ (hspelled.map Char.toLower)
        have hlt : ('<').toLower = '<' := rfl
        have hslash : ('/').toLower = '/' := rfl
        simp [rawEnd, hlt, hslash, ← hmore]

theorem holdsLookalike_of_leftOpen (h : LeftOpen (scan source) tag) :
    HoldsLookalike tag.name source := by
  obtain ⟨before, other, strays, next, after, hscan, hstarts, hstrays, -⟩ := h
  have hstray : other ∉ tag.name :: openNames before := hstrays (.stop other) (by simp)
  refine holdsLookalike_of_mem_scan (by simp [hscan]) hstarts ?_
  rintro rfl
  exact hstray (by simp)

theorem children_ne_nil_iff_leftOpen (h : (element tag children).In (parse source))
    (hraw : isRawTextElement tag.name = true) : children ≠ [] ↔ LeftOpen (scan source) tag := by
  rw [h.children_ne_nil_iff (nodup_items_scan source)]
  constructor
  · rintro ⟨before, strays, next, after, hscan, hstrays, hnext⟩
    have hchain := isChain_scan source
    rw [hscan] at hchain
    -- the next event is an end tag, so there is a stray one
    cases strays with
    | nil =>
        obtain ⟨-, hfollows, -⟩ := List.isChain_append_cons_cons.mp hchain
        obtain ⟨name, rfl, -⟩ := hfollows hraw
        contradiction
    | cons s strays =>
        obtain ⟨-, hfollows, -⟩ := List.isChain_append_cons_cons.mp hchain
        obtain ⟨name, rfl, hstarts⟩ := hfollows hraw
        exact ⟨before, name, strays, next, after, hscan, hstarts, hstrays, hnext⟩
  · rintro ⟨before, other, strays, next, after, hscan, -, hstrays, hnext⟩
    exact ⟨before, .stop other :: strays, next, after, hscan, hstrays, hnext⟩

/-- **Scripts and styles have children only behind a look-alike.**  An element whose body is plain
text has children exactly if a look-alike of its end tag leaves it open, and so it has none where
the source holds no such end tag. -/
theorem raw_children_iff (h : (element tag children).In (parse source))
    (hraw : isRawTextElement tag.name = true) :
    (children ≠ [] ↔ LeftOpen (scan source) tag) ∧
      (¬ HoldsLookalike tag.name source → children = []) := by
  have hiff := children_ne_nil_iff_leftOpen h hraw
  refine ⟨hiff, ?_⟩
  intro hnone
  by_contra hne
  exact hnone (holdsLookalike_of_leftOpen (hiff.mp hne))

/-- A script in another element, with a body that holds markup and an end tag in capital letters
whose name goes on. -/
theorem raw_children_iff_lookalike :
    (element ⟨"script", 3, []⟩ [text ⟨"x", 25⟩]).In (parse "<p><script><b></SCRIPT-X>x</script>") ∧
      LeftOpen (scan "<p><script><b></SCRIPT-X>x</script>") ⟨"script", 3, []⟩ := by
  have hscan : scan "<p><script><b></SCRIPT-X>x</script>" =
      [.start ⟨"p", 0, []⟩ false, .start ⟨"script", 3, []⟩ false, .stop "script-x",
        .text ⟨"x", 25⟩, .stop "script"] := by
    decide +kernel
  have hin : (element ⟨"script", 3, []⟩ [text ⟨"x", 25⟩]).In
      (parse "<p><script><b></SCRIPT-X>x</script>") := by
    rw [parse, hscan]
    exact .inside (.head _) (.root (.head _))
  exact ⟨hin, (raw_children_iff hin rfl).1.mp (by simp)⟩

/-- A look-alike lets text into a script. -/
theorem not_forall_raw_children_eq_nil :
    ¬ ∀ (source : String) (tag : StartTag) (children : List Node),
      (element tag children).In (parse source) → isRawTextElement tag.name = true →
        children = [] := by
  intro h
  have hscan : scan "<script></scripty>x</script>" =
      [.start ⟨"script", 0, []⟩ false, .stop "scripty", .text ⟨"x", 18⟩, .stop "script"] := by
    decide +kernel
  have hin : (element ⟨"script", 0, []⟩ [text ⟨"x", 18⟩]).In
      (parse "<script></scripty>x</script>") := by
    rw [parse, hscan]
    exact .root (.head _)
  exact absurd (h _ _ _ hin rfl) (by simp)

end Node

end TemplateMigration
