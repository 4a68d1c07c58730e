import TemplateMigration.Markup.Forest

/-!
# TemplateMigration.Proofs.Markup.Preorder

Building a forest loses nothing and moves nothing.

A forest read from the front, each start tag before what it encloses, gives a sequence of text
runs and start tags (`Node.contents`), each at a depth (`Node.levels`).  The main statement is
`levels_ofEvents`: for the forest of a sequence of events these are the runs and tags of the events,
in their order, whatever end tags there are, and the depth of each is the number of elements that
are open where it stands (`MarkupEvent.levels`).
-/

namespace TemplateMigration

/-- What stands at a place of the source: a run of text or a start tag. -/
inductive Item where
  | text (run : TextRun)
  | tag (tag : StartTag)
  deriving DecidableEq, Repr

/-- The item of an event; an end tag has none. -/
def MarkupEvent.items : MarkupEvent → List Item
  | .text run => [.text run]
  | .start tag _ => [.tag tag]
  | .stop _ => []

mutual

/-- The items of a node, a start tag before its children. -/
def Node.items : Node → List Item
  | .text run => [.text run]
  | .element tag children => .tag tag :: Node.contents children

/-- The items of a forest. -/
def Node.contents : List Node → List Item
  | [] => []
  | n :: ns => n.items ++ Node.contents ns

end

namespace Node

@[simp] theorem contents_nil : contents [] = [] := by rw [contents]

@[simp] theorem contents_cons (n : Node) (ns : List Node) :
    contents (n :: ns) = n.items ++ contents ns := by rw [contents]

@[simp] theorem items_text (run : TextRun) : (text run).items = [.text run] := by rw [items]

@[simp] theorem items_element (tag : StartTag) (children : List Node) :
    (element tag children).items = .tag tag :: contents children := by rw [items]

end Node

/-! ## Depths -/

mutual

/-- The items of a node that stands at a depth, each with its own depth. -/
def Node.levelsOf (depth : Nat) : Node → List (Nat × Item)
  | .text run => [(depth, .text run)]
  | .element tag children => (depth, .tag tag) :: Node.levels (depth + 1) children

/-- The items of a forest that stands at a depth, each with its own depth. -/
def Node.levels (depth : Nat) : List Node → List (Nat × Item)
  | [] => []
  | n :: ns => n.levelsOf depth ++ Node.levels depth ns

end

namespace MarkupEvent

/-- The names of the open elements after an event, innermost first. -/
def opens (names : List String) : MarkupEvent → List String
  | text _ => names
  | start tag isLeaf => if isLeaf then names else tag.name :: names
  | stop name =>
      match names.findIdx? (· == name) with
      | none => names
      | some depth => names.drop (depth + 1)

/-- The items of events, each with the number of elements that are open where it stands. -/
def levels (names : List String) : List MarkupEvent → List (Nat × Item)
  | [] => []
  | e :: es => e.items.map (names.length, ·) ++ levels (e.opens names) es

/-- Without their depths, the levels of events are the items of the events. -/
theorem map_snd_levels (names : List String) (es : List MarkupEvent) :
    (levels names es).map Prod.snd = es.flatMap items := by
  induction es generalizing names with
  | nil => rfl
  | cons e es ih => simp [levels, ih, Function.comp_def]

end MarkupEvent

namespace Node

@[simp] theorem levels_nil (depth : Nat) : levels depth [] = [] := by rw [levels]

@[simp] theorem levels_cons (depth : Nat) (n : Node) (ns : List Node) :
    levels depth (n :: ns) = n.levelsOf depth ++ levels depth ns := by rw [levels]

@[simp] theorem levelsOf_text (depth : Nat) (run : TextRun) :
    (text run).levelsOf depth = [(depth, .text run)] := by rw [levelsOf]

@[simp] theorem levelsOf_element (depth : Nat) (tag : StartTag) (children : List Node) :
    (element tag children).levelsOf depth = (depth, .tag tag) :: levels (depth + 1) children := by
  rw [levelsOf]

/-- The levels of two lists of nodes stand one behind the other. -/
theorem levels_append (depth : Nat) (ns ms : List Node) :
    levels depth (ns ++ ms) = levels depth ns ++ levels depth ms := by
  induction ns with
  | nil => simp
  | cons n ns ih => simp [ih]

mutual

theorem map_snd_levelsOf (depth : Nat) (n : Node) : (n.levelsOf depth).map Prod.snd = n.items := by
  cases n with
  | text run => simp
  | element tag children => simp [map_snd_levels (depth + 1) children]

/-- Without their depths, the levels of a forest are its preorder. -/
theorem map_snd_levels (depth : Nat) (ns : List Node) :
    (levels depth ns).map Prod.snd = contents ns := by
  cases ns with
  | nil => simp
  | cons n ns => simp [map_snd_levelsOf depth n, map_snd_levels depth ns]

end

end Node

/-! ## Building a forest -/

namespace ForestBuilder

/-- The names of the open elements, innermost first. -/
def names (b : ForestBuilder) : List String := b.opened.map (·.tag.name)

/-- The items of open elements with the children met so far, from the outside in. -/
def openLevels : List OpenElement → List (Nat × Item)
  | [] => []
  | e :: outer =>
      openLevels outer ++ (outer.length, .tag e.tag) :: Node.levels (outer.length + 1) e.children

/-- The items of a forest under construction: the roots, then the open elements. -/
def levels (b : ForestBuilder) : List (Nat × Item) := Node.levels 0 b.roots ++ openLevels b.opened

/-- A node that is added opens nothing. -/
theorem names_add (b : ForestBuilder) (n : Node) : (b.add n).names = b.names := by
  obtain ⟨roots, opened⟩ := b
  cases opened <;> rfl

/-- A node is added after everything else, inside the innermost open element. -/
theorem levels_add (b : ForestBuilder) (n : Node) :
    (b.add n).levels = b.levels ++ n.levelsOf b.opened.length := by
  obtain ⟨roots, opened⟩ := b
  cases opened with
  | nil => simp [add, levels, openLevels, Node.levels_append]
  | cons e rest => simp [add, levels, openLevels, Node.levels_append]

/-- An element that is closed is the one opened last. -/
theorem names_close (b : ForestBuilder) : b.close.names = b.names.tail := by
  obtain ⟨roots, opened⟩ := b
  cases opened with
  | nil => rfl
  | cons e rest => rw [close, names_add]; rfl

/-- Closing an element moves it without moving its items. -/
theorem levels_close (b : ForestBuilder) : b.close.levels = b.levels := by
  obtain ⟨roots, opened⟩ := b
  cases opened with
  | nil => rfl
  | cons e rest =>
      rw [close, levels_add, Node.levelsOf_element]
      simp [levels, openLevels]

theorem names_closeMany (n : Nat) (b : ForestBuilder) : (b.closeMany n).names = b.names.drop n := by
  induction n generalizing b with
  | zero => rfl
  | succ n ih => rw [closeMany, ih, names_close, List.drop_tail]

/-- Closing elements changes no depth. -/
theorem levels_closeMany (n : Nat) (b : ForestBuilder) : (b.closeMany n).levels = b.levels := by
  induction n generalizing b with
  | zero => rfl
  | succ n ih => rw [closeMany, ih, levels_close]

/-- An end tag finds the element that it closes by its name. -/
theorem findIdx?_names (b : ForestBuilder) (name : String) :
    b.names.findIdx? (· == name) = b.opened.findIdx? (·.tag.name == name) := by
  rw [names, List.findIdx?_map]
  rfl

/-- Which elements are open after an event is decided by the names of those that were. -/
theorem names_step (b : ForestBuilder) (e : MarkupEvent) : (b.step e).names = e.opens b.names := by
  cases e with
  | text run => exact names_add b _
  | start tag isLeaf =>
      cases isLeaf with
      | true => exact names_add b _
      | false => rfl
  | stop name =>
      rw [step, MarkupEvent.opens, findIdx?_names]
      cases b.opened.findIdx? (·.tag.name == name) with
      | none => rfl
      | some depth => exact names_closeMany _ b

/-- One event adds its own items at the end. -/
theorem levels_step (b : ForestBuilder) (e : MarkupEvent) :
    (b.step e).levels = b.levels ++ e.items.map (b.names.length, ·) := by
  have hlength : b.names.length = b.opened.length := List.length_map _
  cases e with
  | text run => rw [step, levels_add, hlength, Node.levelsOf_text]; rfl
  | start tag isLeaf =>
      rw [hlength]
      cases isLeaf with
      | true => rw [step, levels_add, Node.levelsOf_element, Node.levels_nil]; rfl
      | false => simp [step, levels, openLevels, MarkupEvent.items]
  | stop name =>
      rw [step, MarkupEvent.items, List.map_nil, List.append_nil]
      split
      · rfl
      · exact levels_closeMany _ b

/-- A run over events adds their levels to those of the builder. -/
theorem levels_foldl_step (events : List MarkupEvent) (b : ForestBuilder) :
    (events.foldl step b).levels = b.levels ++ MarkupEvent.levels b.names events := by
  induction events generalizing b with
  | nil => simp [MarkupEvent.levels]
  | cons e events ih =>
      rw [List.foldl_cons, ih, levels_step, names_step, MarkupEvent.levels, List.append_assoc]

/-- At the end every item is in a root. -/
theorem levels_finish (b : ForestBuilder) : Node.levels 0 b.finish = b.levels := by
  have hnames : (b.closeMany b.opened.length).names = [] := by
    rw [names_closeMany, List.drop_eq_nil_of_le]
    exact Nat.le_of_eq (List.length_map _)
  have hopened : (b.closeMany b.opened.length).opened = [] := List.map_eq_nil_iff.mp hnames
  rw [finish, ← levels_closeMany b.opened.length b, levels, hopened, openLevels, List.append_nil]

end ForestBuilder

namespace Node

/-- The forest of a sequence of events holds the items of the events, in order and each inside the
elements that are open where it stands. -/
theorem levels_ofEvents (events : List MarkupEvent) :
    levels 0 (ofEvents events) = MarkupEvent.levels [] events := by
  rw [ofEvents, ForestBuilder.levels_finish, ForestBuilder.levels_foldl_step]
  simp [ForestBuilder.empty, ForestBuilder.levels, ForestBuilder.openLevels, ForestBuilder.names]

/-- The forest of a sequence of events holds the items of the events, in order. -/
theorem contents_ofEvents (events : List MarkupEvent) :
    contents (ofEvents events) = events.flatMap MarkupEvent.items := by
  rw [← map_snd_levels 0, levels_ofEvents, MarkupEvent.map_snd_levels]

end Node

end TemplateMigration
