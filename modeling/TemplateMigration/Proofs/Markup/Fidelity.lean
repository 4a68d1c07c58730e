import TemplateMigration.Proofs.Markup.Placement
import TemplateMigration.Proofs.Markup.Preorder

/-!
# TemplateMigration.Proofs.Markup.Fidelity

The offsets in a forest point at what the forest says.

The forest of a source holds what the scan has met (`Node.contents_ofEvents`), and the scan meets
everything where it stands (`eventsIn_scan`).  So whatever node is taken out of the forest, at any
depth (`Node.In`), cutting the source at its offsets gives back its text, its name, and the names
and values of its attributes (`Node.Faithful`).
-/

namespace TemplateMigration

/-! ## Items -/

/-- An item stands in a text. -/
def Item.Placed (text : List Char) : Item → Prop
  | .text run => run.Placed text
  | .tag t => ∃ stop, stop ≤ byteCount text ∧ t.Placed text stop

theorem placed_of_mem_items {text : List Char} {start : Nat} {es : List MarkupEvent}
    (h : EventsIn text start es) {i : Item} (hi : i ∈ es.flatMap MarkupEvent.items) :
    i.Placed text := by
  induction es generalizing start with
  | nil => contradiction
  | cons e es ih =>
      obtain ⟨stop, hstop, hplaced, hrest⟩ := h
      rw [List.flatMap_cons, List.mem_append] at hi
      cases hi with
      | inr hi => exact ih hrest hi
      | inl hi =>
          cases e with
          | text run =>
              obtain rfl := List.mem_singleton.mp hi
              exact hplaced.1
          | start tag closed =>
              obtain rfl := List.mem_singleton.mp hi
              exact ⟨stop, hstop, hplaced.1⟩
          | stop name => contradiction

/-- What a source holds stands in it. -/
theorem placed_of_mem_contents_parse {source : String} {i : Item}
    (hi : i ∈ Node.contents (Node.parse source)) : i.Placed source.toList := by
  rw [Node.parse, Node.contents_ofEvents] at hi
  exact placed_of_mem_items (MarkupEvent.eventsIn_scan source) hi

/-! ## Nodes at any depth -/

namespace Node

/-- A node of a forest, at any depth. -/
inductive In (n : Node) : List Node → Prop where
  | root {forest : List Node} (h : n ∈ forest) : In n forest
  | inside {forest children : List Node} {tag : StartTag} (h : element tag children ∈ forest)
      (hn : In n children) : In n forest

/-- What a node itself is, without what it encloses. -/
def item : Node → Item
  | text run => .text run
  | element tag _ => .tag tag

theorem item_mem_items (n : Node) : n.item ∈ n.items := by
  cases n <;> simp [item]

theorem mem_contents_of_mem {forest : List Node} {n : Node} {i : Item} (hn : n ∈ forest)
    (hi : i ∈ n.items) : i ∈ contents forest := by
  induction forest with
  | nil => contradiction
  | cons m forest ih =>
      cases List.mem_cons.mp hn with
      | inl heq => simp [← heq, hi]
      | inr hmem => simp [ih hmem]

/-- The item of a node stands in the preorder of every forest that holds the node. -/
theorem In.item_mem_contents {forest : List Node} {n : Node} (h : n.In forest) :
    n.item ∈ contents forest := by
  induction h with
  | root hn => exact mem_contents_of_mem hn n.item_mem_items
  | inside hparent hn ih => exact mem_contents_of_mem hparent (by simp [ih])

end Node

/-! ## Cutting the source at the offsets of a node -/

/-- Two boundaries of a text between which a part stands. -/
structure Spells (text : List Char) (start stop : Nat) (part : List Char) : Prop where
  isBoundary_start : IsBoundary text start
  isBoundary_stop : IsBoundary text stop
  slice_eq : slice start stop text = part

theorem OccursAt.spells {text part : List Char} {start stop : Nat} (h : OccursAt text start part)
    (hstop : start + byteCount part = stop) : Spells text start stop part := by
  subst hstop
  exact ⟨h.isBoundary_start, h.isBoundary_stop, h.slice_eq⟩

/-- A part of a text and its first character. -/
theorem OccursAt.of_cons {text part : List Char} {c : Char} {n : Nat}
    (h : OccursAt text n (c :: part)) :
    OccursAt text n [c] ∧ OccursAt text (n + c.utf8Size) part := by
  have hfirst : OccursAt (c :: part) 0 [c] := ⟨[], part, rfl, rfl⟩
  have hrest : OccursAt (c :: part) c.utf8Size part := ⟨[c], [], by simp, by simp⟩
  exact ⟨h.trans hfirst, h.trans hrest⟩

/-- The offsets of a run of text cut its content out of the source. -/
def TextRun.Faithful (text : List Char) (run : TextRun) : Prop :=
  Spells text run.start (run.start + byteLength run.content) run.content.toList

/-- The offsets of an attribute cut its name, up to case, and its value out of the source, in this
order.  The value is followed by the end of the attribute, with a quote between them if it is
quoted, so that counting back from the end never passes the start. -/
structure Attribute.Faithful (text : List Char) (a : Attribute) : Prop where
  name : ∃ letters, Spells text a.start (a.start + byteLength a.name) letters ∧
    a.name = MarkupEvent.lowerCase letters
  value : Spells text a.valueStart (a.valueStart + byteLength a.value) a.value.toList
  name_le : a.start + byteLength a.name ≤ a.valueStart
  value_le : a.valueStart + byteLength a.value + (if a.quoted then 1 else 0) = a.stop
  stop_boundary : IsBoundary text a.stop
  stop_le : a.stop ≤ byteCount text

/-- The offsets of a start tag cut its bracket and its name, up to case, out of the source, and so
do those of its attributes. -/
structure StartTag.Faithful (text : List Char) (t : StartTag) : Prop where
  bracket : Spells text t.start (t.start + 1) ['<']
  name : ∃ letters, Spells text (t.start + 1) t.nameStop letters ∧
    t.name = MarkupEvent.lowerCase letters
  attributes : ∀ a ∈ t.attributes, a.Faithful text

/-- The offsets of a node, apart from those of its children, cut what it says out of the source. -/
def Node.Faithful (text : List Char) : Node → Prop
  | .text run => run.Faithful text
  | .element tag _ => tag.Faithful text

/-- An attribute that stands in a source says what the source says. -/
theorem Attribute.Placed.faithful {text : List Char} {a : Attribute} (h : a.Placed text) :
    a.Faithful text := by
  obtain ⟨letters, -, hname, hletters⟩ := h.name
  have hlength : byteCount letters = byteLength a.name := by rw [hname, byteLength_lowerCase]
  exact {
    name := ⟨letters, hletters.spells (by rw [hlength]), hname⟩
    value := h.value.spells rfl
    name_le := h.name_le
    value_le := h.stop_eq
    stop_boundary := h.stop_boundary
    stop_le := h.stop_boundary.le }

theorem AttributesIn.placed_of_mem {text : List Char} {start stop : Nat} {as : List Attribute}
    (h : AttributesIn text start as stop) {a : Attribute} (ha : a ∈ as) : a.Placed text := by
  induction as generalizing start with
  | nil => contradiction
  | cons b as ih =>
      obtain ⟨-, hplaced, -, hrest⟩ := h
      cases List.mem_cons.mp ha with
      | inl heq => rwa [heq]
      | inr hmem => exact ih hrest hmem

/-- A start tag that stands in a source says what the source says. -/
theorem StartTag.Placed.faithful {text : List Char} {t : StartTag} {stop : Nat}
    (h : t.Placed text stop) : t.Faithful text := by
  obtain ⟨letters, hname, hoccurs⟩ := h.name
  obtain ⟨hbracket, hletters⟩ := hoccurs.of_cons
  have hlength : byteCount letters = byteLength t.name := by rw [hname, byteLength_lowerCase]
  exact {
    bracket := hbracket.spells rfl
    name := ⟨letters, hletters.spells (by rw [hlength]; rfl), hname⟩
    attributes := fun a ha => (h.attributes.placed_of_mem ha).faithful }

/-- A node that stands in a source says what the source says. -/
theorem Item.Placed.faithful {text : List Char} {n : Node} (h : n.item.Placed text) :
    n.Faithful text := by
  cases n with
  | text run => exact OccursAt.spells h.occurs rfl
  | element tag children =>
      obtain ⟨stop, -, htag⟩ := h
      exact htag.faithful

/-- **Offsets are faithful.**  Cutting a source at the offsets of any node of its forest gives what
the node says, and all these offsets are boundaries of the source. -/
theorem Node.faithful_of_in_parse {source : String} {n : Node} (h : n.In (parse source)) :
    n.Faithful source.toList :=
  Item.Placed.faithful (placed_of_mem_contents_parse h.item_mem_contents)

/-- A quoted value with blanks around the equals sign, a value whose quote is never closed, a name
in upper case and characters of several bytes, inside another element. -/
theorem Node.faithful_of_in_parse_nested :
    (element ⟨"p", 5, [⟨"Ä", "x", 8, 16, true⟩, ⟨"b", "é>", 17, 23, false⟩]⟩ []).In
        (parse "é<i><P Ä = 'x' b=\"é>") ∧
      (element ⟨"p", 5, [⟨"Ä", "x", 8, 16, true⟩, ⟨"b", "é>", 17, 23, false⟩]⟩ []).Faithful
        "é<i><P Ä = 'x' b=\"é>".toList := by
  have hscan : MarkupEvent.scan "é<i><P Ä = 'x' b=\"é>" =
      [.text ⟨"é", 0⟩, .start ⟨"i", 2, []⟩ false,
        .start ⟨"p", 5, [⟨"Ä", "x", 8, 16, true⟩, ⟨"b", "é>", 17, 23, false⟩]⟩ false] := by
    decide +kernel
  have hparse : parse "é<i><P Ä = 'x' b=\"é>" =
      [text ⟨"é", 0⟩, element ⟨"i", 2, []⟩
        [element ⟨"p", 5, [⟨"Ä", "x", 8, 16, true⟩, ⟨"b", "é>", 17, 23, false⟩]⟩ []]] := by
    rw [parse, hscan]
    rfl
  have hin : (element ⟨"p", 5, [⟨"Ä", "x", 8, 16, true⟩, ⟨"b", "é>", 17, 23, false⟩]⟩ []).In
      (parse "é<i><P Ä = 'x' b=\"é>") := by
    rw [hparse]
    exact .inside (.tail _ (.head _)) (.root (.head _))
  exact ⟨hin, faithful_of_in_parse hin⟩

end TemplateMigration
