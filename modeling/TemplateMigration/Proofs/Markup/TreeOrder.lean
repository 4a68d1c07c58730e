import TemplateMigration.Proofs.Markup.Lossless
import TemplateMigration.Proofs.Markup.Nesting
import TemplateMigration.Proofs.Markup.Outline

/-!
# TemplateMigration.Proofs.Markup.TreeOrder

The forest of a source keeps the order of the source.

An item takes the bytes from its first to the end of its text, or of its last attribute.  What a
scan meets takes its bytes one after the other (`EventsIn.pairwise_items`).  The preorder of the
forest is the same list, so the nodes of every level of the forest follow each other with all that
is in them (`Node.pairwise_of_contents`), and of the attributes written in a tag the forest holds
the first of each name (`Attribute.areFirsts_firsts`).  `Node.Orderly` puts this together.
-/

namespace TemplateMigration

/-! ## The bytes of an item -/

theorem foldr_max_le_iff {α : Type} {f : α → Nat} {as : List α} {base n : Nat} :
    as.foldr (fun a m => max (f a) m) base ≤ n ↔ base ≤ n ∧ ∀ a ∈ as, f a ≤ n := by
  induction as with
  | nil => simp
  | cons a as ih =>
      rw [List.foldr_cons, Nat.max_le, ih, List.forall_mem_cons]
      exact and_left_comm

/-- The byte offset after the name and the attributes of a tag. -/
def StartTag.stop (t : StartTag) : Nat := t.attributes.foldr (fun a n => max a.stop n) t.nameStop

namespace Item

/-- The byte offset at which an item starts. -/
def start : Item → Nat
  | text run => run.start
  | tag t => t.start

/-- The byte offset after an item. -/
def stop : Item → Nat
  | text run => run.start + byteLength run.content
  | tag t => t.stop

/-- The first item ends before the second starts. -/
def Precedes (i j : Item) : Prop := i.stop ≤ j.start

end Item

/-- An attribute has a name, so it takes some bytes. -/
theorem Attribute.Placed.start_lt_stop {text : List Char} {a : Attribute} (h : a.Placed text) :
    a.start < a.stop := by
  obtain ⟨letters, hletters, hname, -⟩ := h.name
  obtain ⟨c, cs, rfl⟩ := List.exists_cons_of_ne_nil hletters
  have hpos : 0 < byteLength a.name := by
    rw [hname, byteLength_lowerCase, byteCount_cons]
    exact Nat.add_pos_left c.utf8Size_pos _
  have hvalue := h.name_le
  have hstop := h.stop_eq
  omega

namespace AttributesIn

variable {text : List Char} {start stop : Nat} {as : List Attribute}

/-- The attributes of a tag stand between two offsets, and none is empty. -/
theorem bounds (h : AttributesIn text start as stop) :
    ∀ a ∈ as, start ≤ a.start ∧ a.start < a.stop ∧ a.stop ≤ stop := by
  induction as generalizing start with
  | nil => simp
  | cons a as ih =>
      obtain ⟨hstart, hplaced, hstop, hrest⟩ := h
      have hspan := hplaced.start_lt_stop
      rw [List.forall_mem_cons]
      refine ⟨⟨hstart, hspan, hstop⟩, ?_⟩
      intro b hb
      have hb := ih hrest b hb
      omega

/-- The attributes of a tag stand one after the other. -/
theorem pairwise (h : AttributesIn text start as stop) :
    as.Pairwise fun a b => a.stop ≤ b.start := by
  induction as generalizing start with
  | nil => exact .nil
  | cons a as ih =>
      obtain ⟨-, -, -, hrest⟩ := h
      exact .cons (fun b hb => (hrest.bounds b hb).1) (ih hrest)

end AttributesIn

/-- The item of an event takes some bytes between the offsets where the event stands. -/
theorem MarkupEvent.Placed.bounds {text : List Char} {start stop : Nat} {e : MarkupEvent}
    (h : e.Placed text start stop) :
    start ≤ stop ∧ ∀ i ∈ e.items, start ≤ i.start ∧ i.start < i.stop ∧ i.stop ≤ stop := by
  cases e with
  | text run =>
      obtain ⟨hrun, hstart, hstop⟩ := h
      have hpos := hrun.nonempty
      simp only [items, List.forall_mem_singleton, Item.start, Item.stop]
      omega
  | start tag isLeaf =>
      obtain ⟨htag, hstart⟩ := h
      have hname : tag.start < tag.nameStop := by
        rw [StartTag.nameStop]
        omega
      have hle : tag.stop ≤ stop :=
        foldr_max_le_iff.mpr ⟨htag.nameStop_le, fun a ha => (htag.attributes.bounds a ha).2.2⟩
      have hge : tag.nameStop ≤ tag.stop := (foldr_max_le_iff.mp (Nat.le_refl tag.stop)).1
      simp only [items, List.forall_mem_singleton, Item.start, Item.stop]
      omega
  | stop name => exact ⟨h, by simp [items]⟩

namespace EventsIn

variable {text : List Char} {start : Nat} {es : List MarkupEvent}

/-- What events hold stands behind the first of them, and none of it is empty. -/
theorem bounds (h : EventsIn text start es) :
    ∀ i ∈ es.flatMap MarkupEvent.items, start ≤ i.start ∧ i.start < i.stop := by
  induction es generalizing start with
  | nil => simp
  | cons e es ih =>
      obtain ⟨stop, -, hplaced, hrest⟩ := h
      obtain ⟨hle, hitems⟩ := hplaced.bounds
      intro i hi
      rw [List.flatMap_cons, List.mem_append] at hi
      obtain hi | hi := hi
      · exact ⟨(hitems i hi).1, (hitems i hi).2.1⟩
      · have hi := ih hrest i hi
        omega

/-- What a scan meets takes its bytes one after the other. -/
theorem pairwise_items (h : EventsIn text start es) :
    (es.flatMap MarkupEvent.items).Pairwise Item.Precedes := by
  induction es generalizing start with
  | nil => exact .nil
  | cons e es ih =>
      obtain ⟨stop, -, hplaced, hrest⟩ := h
      have hitems := hplaced.bounds.2
      rw [List.flatMap_cons, List.pairwise_append]
      refine ⟨?_, ih hrest, ?_⟩
      · cases e <;> simp [MarkupEvent.items]
      · intro i hi j hj
        exact Nat.le_trans (hitems i hi).2.2 (hrest.bounds j hj).1

end EventsIn

/-! ## Levels of a forest -/

namespace Node

/-- The byte offset at which a node starts. -/
def start (n : Node) : Nat := n.item.start

/-- The byte offset after a node and all that is in it. -/
def stop (n : Node) : Nat := n.items.foldr (fun i m => max i.stop m) 0

/-- The roots of a forest, or the children of one of its elements. -/
inductive Level (forest : List Node) : List Node → Prop where
  | roots : Level forest forest
  | inside {tag : StartTag} {children : List Node} (h : (element tag children).In forest) :
      Level forest children

/-- A node ends where the last of its items ends. -/
theorem stop_le_iff {n : Node} {m : Nat} : n.stop ≤ m ↔ ∀ i ∈ n.items, i.stop ≤ m := by
  rw [stop, foldr_max_le_iff]
  exact and_iff_right (Nat.zero_le m)

theorem items_sublist_contents {n : Node} {ns : List Node} (h : n ∈ ns) :
    n.items.Sublist (contents ns) := by
  induction ns with
  | nil => contradiction
  | cons m ns ih =>
      rw [contents_cons]
      obtain rfl | hmem := List.mem_cons.mp h
      · exact List.sublist_append_left _ _
      · exact (ih hmem).trans (List.sublist_append_right _ _)

/-- The items of a node anywhere in a forest are among those of the forest, in order. -/
theorem In.items_sublist {n : Node} {forest : List Node} (h : n.In forest) :
    n.items.Sublist (contents forest) := by
  induction h with
  | root hn => exact items_sublist_contents hn
  | inside hparent _ ih =>
      refine ih.trans (List.Sublist.trans ?_ (items_sublist_contents hparent))
      rw [items_element]
      exact List.sublist_cons_self _ _

/-- So are those of the nodes of a level. -/
theorem Level.contents_sublist {forest ns : List Node} (h : Level forest ns) :
    (contents ns).Sublist (contents forest) := by
  cases h with
  | roots => exact .refl _
  | inside h =>
      have hitems := h.items_sublist
      rw [items_element] at hitems
      exact (List.sublist_cons_self _ _).trans hitems

/-- Where items follow each other, nodes that stand side by side follow each other with all that is
in them. -/
theorem pairwise_of_contents {ns : List Node} (h : (contents ns).Pairwise Item.Precedes) :
    ns.Pairwise fun m n => m.stop ≤ n.start := by
  induction ns with
  | nil => exact .nil
  | cons m ns ih =>
      rw [contents_cons, List.pairwise_append] at h
      obtain ⟨-, hrest, hcross⟩ := h
      refine .cons ?_ (ih hrest)
      intro n hn
      rw [stop_le_iff]
      intro i hi
      exact hcross i hi n.item (mem_contents_of_mem hn n.item_mem_items)

end Node

/-! ## Attributes -/

namespace Attribute

/-- Of each name among attributes, the first is kept, in the order in which they come. -/
structure AreFirsts (kept all : List Attribute) : Prop where
  sublist : kept.Sublist all
  distinct : (kept.map Attribute.name).Nodup
  first : ∀ name, kept.find? (·.name == name) = all.find? (·.name == name)

/-- The first attributes of each name come in the order of all. -/
theorem firsts_sublist (seen : List String) (as : List Attribute) :
    (firsts seen as).Sublist as := by
  induction as generalizing seen with
  | nil => exact .refl _
  | cons a as ih =>
      rw [firsts]
      split
      · exact (ih seen).cons a
      · exact (ih _).cons_cons a

theorem name_notMem_of_mem_firsts {seen : List String} {as : List Attribute} {a : Attribute}
    (h : a ∈ firsts seen as) : a.name ∉ seen := by
  induction as generalizing seen with
  | nil => contradiction
  | cons b as ih =>
      rw [firsts] at h
      split at h
      · exact ih h
      · next hb =>
          obtain rfl | hmem := List.mem_cons.mp h
          · simpa using hb
          · exact fun hseen => ih hmem (List.mem_append_left _ hseen)

/-- No two of the first attributes have one name. -/
theorem nodup_map_name_firsts (seen : List String) (as : List Attribute) :
    ((firsts seen as).map Attribute.name).Nodup := by
  induction as generalizing seen with
  | nil => exact .nil
  | cons a as ih =>
      rw [firsts]
      split
      · exact ih seen
      · rw [List.map_cons, List.nodup_cons]
        refine ⟨?_, ih _⟩
        intro hmem
        obtain ⟨b, hb, hname⟩ := List.mem_map.mp hmem
        exact name_notMem_of_mem_firsts hb (by simp [hname])

/-- The attribute of a name is the first one written. -/
theorem find?_firsts {seen : List String} {name : String} (hname : name ∉ seen)
    (as : List Attribute) :
    (firsts seen as).find? (·.name == name) = as.find? (·.name == name) := by
  induction as generalizing seen with
  | nil => rfl
  | cons a as ih =>
      rw [firsts, List.find?_cons]
      by_cases ha : a.name = name
      · have hnew : seen.contains a.name = false := by simpa [ha] using hname
        rw [hnew, if_neg Bool.false_ne_true, List.find?_cons, beq_iff_eq.mpr ha]
      · rw [beq_eq_false_iff_ne.mpr ha]
        split
        · exact ih hname
        · rw [List.find?_cons, beq_eq_false_iff_ne.mpr ha]
          exact ih (by simp [hname, Ne.symm ha])

/-- The attributes that are kept are the first of each name. -/
theorem areFirsts_firsts (as : List Attribute) : AreFirsts (firsts [] as) as where
  sublist := firsts_sublist [] as
  distinct := nodup_map_name_firsts [] as
  first := fun _ => find?_firsts List.not_mem_nil as

end Attribute

/-! ## The forest of a source -/

/-- A start tag in the order of the source: its name, its attributes one after the other, then its
children.  The attributes are the first of each name among those written in the tag. -/
structure StartTag.Orderly (source : String) (tag : StartTag) (children : List Node) : Prop where
  ascending : tag.attributes.Pairwise fun a b => a.stop ≤ b.start
  behind_name : ∀ a ∈ tag.attributes, tag.nameStop < a.start ∧ a.start < a.stop
  before_children : ∀ a ∈ tag.attributes, ∀ n ∈ children, a.stop ≤ n.start
  written : ∃ before, ∃ t : WrittenTag, ∃ rest, source.toList = before ++ (t.render ++ rest) ∧
    t.Reads rest ∧ tag = t.located (byteCount before) ∧
    Attribute.AreFirsts tag.attributes
      (TagPart.attributesFrom (byteCount before + byteCount ('<' :: t.letters)) t.parts)
  void : isVoidElement tag.name = true → children = []

/-- A forest in the order of a source.  Its preorder is what the scan of the source meets, which is
what the segments of the source hold; the nodes of each level follow each other with all that is in
them, and a node takes the bytes of its children. -/
structure Node.Orderly (source : String) (forest : List Node) : Prop where
  scanned : contents forest = (MarkupEvent.scan source).flatMap MarkupEvent.items
  written : ∃ ps, Segment.Spells ps source ∧ contents forest = Segment.itemsFrom 0 ps
  ascending : (contents forest).Pairwise fun i j => i.start < j.start
  siblings : ∀ ns, Level forest ns → ns.Pairwise fun m n => m.stop ≤ n.start
  inside : ∀ tag children, (element tag children).In forest → ∀ n ∈ children,
    tag.start < n.start ∧ n.start < n.stop ∧ n.stop ≤ (element tag children).stop
  texts : ∀ run, (text run).In forest → run.content ≠ ""
  elements : ∀ tag children, (element tag children).In forest → tag.Orderly source children

namespace Node

variable {source : String} {tag : StartTag} {children : List Node}

/-- The items of a source stand one after the other. -/
theorem pairwise_contents_parse (source : String) :
    (contents (parse source)).Pairwise Item.Precedes := by
  rw [parse, contents_ofEvents]
  exact (MarkupEvent.eventsIn_scan source).pairwise_items

/-- No item of a source is empty. -/
theorem start_lt_stop_of_mem_contents_parse {i : Item} (h : i ∈ contents (parse source)) :
    i.start < i.stop := by
  rw [parse, contents_ofEvents] at h
  exact ((MarkupEvent.eventsIn_scan source).bounds i h).2

/-- The tag of an element precedes everything in the element. -/
theorem precedes_of_mem_children (h : (element tag children).In (parse source)) {n : Node}
    (hn : n ∈ children) : (Item.tag tag).Precedes n.item := by
  have hordered := (pairwise_contents_parse source).sublist h.items_sublist
  rw [items_element, List.pairwise_cons] at hordered
  exact hordered.1 n.item (mem_contents_of_mem hn n.item_mem_items)

/-- In what a scan meets, void elements are leaves. -/
theorem leafIfVoid_of_mem_scan {e : MarkupEvent} (h : e ∈ MarkupEvent.scan source) :
    e.LeafIfVoid := by
  obtain ⟨ps, hps⟩ := Segment.exists_spells source
  rw [Segment.scan_eq_eventsFrom hps.reads hps.spell_eq] at h
  exact Segment.leafIfVoid_of_mem_eventsFrom h

/-- Every element of a source is orderly. -/
theorem orderly_of_in_parse (h : (element tag children).In (parse source)) :
    tag.Orderly source children := by
  have hmem := h.item_mem_contents
  obtain ⟨stop, -, hplaced⟩ := placed_of_mem_contents_parse hmem
  obtain ⟨before, t, rest, hsource, hreads, htag⟩ := exists_writtenTag_of_mem_contents hmem
  refine ⟨hplaced.attributes.pairwise, ?_, ?_, ?_, ?_⟩
  · intro a ha
    obtain ⟨hstart, hspan, -⟩ := hplaced.attributes.bounds a ha
    exact ⟨hstart, hspan⟩
  · intro a ha n hn
    have hstop : a.stop ≤ tag.stop := (foldr_max_le_iff.mp (Nat.le_refl tag.stop)).2 a ha
    exact Nat.le_trans hstop (precedes_of_mem_children h hn)
  · refine ⟨before, t, rest, hsource, hreads, htag, ?_⟩
    rw [htag, WrittenTag.attributes_located]
    exact Attribute.areFirsts_firsts _
  · intro hvoid
    exact h.children_eq_nil fun isLeaf he => leafIfVoid_of_mem_scan he hvoid

/-- Children stand inside their element. -/
theorem bounds_of_mem_children (h : (element tag children).In (parse source)) {n : Node}
    (hn : n ∈ children) :
    tag.start < n.start ∧ n.start < n.stop ∧ n.stop ≤ (element tag children).stop := by
  have htag : tag.start < tag.stop := start_lt_stop_of_mem_contents_parse h.item_mem_contents
  have hafter : tag.stop ≤ n.start := precedes_of_mem_children h hn
  have hitem : n.item ∈ contents (parse source) := by
    refine h.items_sublist.subset ?_
    rw [items_element]
    exact List.mem_cons_of_mem _ (mem_contents_of_mem hn n.item_mem_items)
  have hspan : n.start < n.item.stop := start_lt_stop_of_mem_contents_parse hitem
  have hstop : n.item.stop ≤ n.stop := stop_le_iff.mp (Nat.le_refl n.stop) _ n.item_mem_items
  refine ⟨by omega, by omega, ?_⟩
  rw [stop_le_iff]
  intro i hi
  refine stop_le_iff.mp (Nat.le_refl (element tag children).stop) i ?_
  rw [items_element]
  exact List.mem_cons_of_mem _ (mem_contents_of_mem hn hi)

/-- **Building a forest keeps the order of the source.** -/
theorem orderly_parse (source : String) : Orderly source (parse source) where
  scanned := contents_ofEvents _
  written := by
    obtain ⟨ps, hps⟩ := Segment.exists_spells source
    exact ⟨ps, hps, hps.contents_parse⟩
  ascending := by
    refine (pairwise_contents_parse source).imp_of_mem ?_
    intro i j hi _ hij
    exact Nat.lt_of_lt_of_le (start_lt_stop_of_mem_contents_parse hi) hij
  siblings := fun _ h =>
    pairwise_of_contents ((pairwise_contents_parse source).sublist h.contents_sublist)
  inside := fun _ _ h _ hn => bounds_of_mem_children h hn
  texts := by
    intro run h hempty
    have hpos : 0 < byteLength run.content :=
      TextRun.Placed.nonempty (placed_of_mem_contents_parse h.item_mem_contents)
    rw [hempty] at hpos
    contradiction
  elements := fun _ _ h => orderly_of_in_parse h

end Node

end TemplateMigration
