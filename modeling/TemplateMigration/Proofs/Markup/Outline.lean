import TemplateMigration.Markup.Forest
import TemplateMigration.Proofs.Markup.Written

/-!
# TemplateMigration.Proofs.Markup.Outline

The outline of a forest: its elements with their names, how many attributes they have and how they
are nested.

An outline is built from the tags alone.  Text leaves no trace in it, and neither do the end tags of
void elements, which close nothing; every other tag is a `Mark`.  The builder of forests is followed
by a builder of outlines that takes marks (`OutlineBuilder`), step by step (`sketch_step`), so two
templates with the same marks have the same outline: `Node.outline_ofEvents`.
-/

namespace TemplateMigration

/-- An element with its name, the number of its attributes, and the elements in it. -/
inductive Outline where
  | element (name : String) (attributes : Nat) (children : List Outline)
  deriving Repr

namespace Node

variable (count : StartTag → Nat)

mutual

/-- The outline of a node, with the attributes of a tag counted in a given way. -/
def outlineNode : Node → List Outline
  | text _ => []
  | element tag children => [.element tag.name (count tag) (outline children)]

/-- The outline of a forest. -/
def outline : List Node → List Outline
  | [] => []
  | n :: ns => n.outlineNode ++ outline ns

end

theorem outline_append (ns ms : List Node) :
    outline count (ns ++ ms) = outline count ns ++ outline count ms := by
  induction ns with
  | nil => simp [outline]
  | cons n ns ih => simp [outline, ih]

@[simp] theorem outline_singleton (n : Node) : outline count [n] = n.outlineNode count := by
  simp [outline]

end Node

/-! ## Building an outline -/

/-- What a tag means for the outline. -/
inductive Mark where
  | start (name : String) (attributes : Nat) (isLeaf : Bool)
  | stop (name : String)
  deriving DecidableEq, Repr

/-- The mark of an event; text and the end tags of void elements have none. -/
def MarkupEvent.mark? (count : StartTag → Nat) : MarkupEvent → Option Mark
  | text _ => none
  | start tag isLeaf => some (.start tag.name (count tag) isLeaf)
  | stop name => if isVoidElement name then none else some (.stop name)

/-- An element that has been opened, with the elements met in it so far. -/
structure OpenOutline where
  name : String
  attributes : Nat
  children : List Outline

/-- An outline under construction: finished roots, and the open elements, innermost first. -/
structure OutlineBuilder where
  roots : List Outline
  opened : List OpenOutline

namespace OutlineBuilder

/-- Nothing met yet. -/
def empty : OutlineBuilder := ⟨[], []⟩

/-- Add finished elements. -/
def add (b : OutlineBuilder) (os : List Outline) : OutlineBuilder :=
  match b.opened with
  | [] => ⟨b.roots ++ os, []⟩
  | e :: rest => ⟨b.roots, ⟨e.name, e.attributes, e.children ++ os⟩ :: rest⟩

/-- Close the innermost open element. -/
def close (b : OutlineBuilder) : OutlineBuilder :=
  match b.opened with
  | [] => b
  | e :: rest => add ⟨b.roots, rest⟩ [.element e.name e.attributes e.children]

/-- Close a number of open elements from the inside. -/
def closeMany : Nat → OutlineBuilder → OutlineBuilder
  | 0, b => b
  | n + 1, b => closeMany n b.close

/-- Take in a mark. -/
def step (b : OutlineBuilder) : Mark → OutlineBuilder
  | .start name attributes true => b.add [.element name attributes []]
  | .start name attributes false => ⟨b.roots, ⟨name, attributes, []⟩ :: b.opened⟩
  | .stop name =>
      match b.opened.findIdx? (·.name == name) with
      | none => b
      | some depth => b.closeMany (depth + 1)

/-- Close every open element and give the outline. -/
def finish (b : OutlineBuilder) : List Outline := (b.closeMany b.opened.length).roots

end OutlineBuilder

/-! ## Forests and their outlines side by side -/

namespace ForestBuilder

variable (count : StartTag → Nat)

/-- What an open element means for the outline. -/
def sketchOpen (e : OpenElement) : OpenOutline :=
  ⟨e.tag.name, count e.tag, Node.outline count e.children⟩

/-- What a builder means for the outline. -/
def sketch (b : ForestBuilder) : OutlineBuilder :=
  ⟨Node.outline count b.roots, b.opened.map (sketchOpen count)⟩

/-- A node that is added is sketched as an outline that is added. -/
theorem sketch_add (b : ForestBuilder) (n : Node) :
    (b.add n).sketch count = (b.sketch count).add (n.outlineNode count) := by
  obtain ⟨roots, opened⟩ := b
  cases opened with
  | nil => simp [add, sketch, OutlineBuilder.add, Node.outline_append]
  | cons e rest => simp [add, sketch, OutlineBuilder.add, sketchOpen, Node.outline_append]

theorem sketch_close (b : ForestBuilder) : b.close.sketch count = (b.sketch count).close := by
  obtain ⟨roots, opened⟩ := b
  cases opened with
  | nil => rfl
  | cons e rest =>
      have hadd := sketch_add count ⟨roots, rest⟩ (.element e.tag e.children)
      rw [Node.outlineNode] at hadd
      exact hadd

theorem sketch_closeMany (n : Nat) (b : ForestBuilder) :
    (b.closeMany n).sketch count = (b.sketch count).closeMany n := by
  induction n generalizing b with
  | zero => rfl
  | succ n ih => rw [closeMany, OutlineBuilder.closeMany, ih, sketch_close]

/-- Elements of a name are open exactly if they are in the outline. -/
theorem findIdx?_opened_sketch (b : ForestBuilder) (name : String) :
    (b.sketch count).opened.findIdx? (·.name == name) =
      b.opened.findIdx? (·.tag.name == name) := by
  rw [sketch, List.findIdx?_map]
  rfl

/-- An open element that is not void: void elements are leaves. -/
def NoneVoid (b : ForestBuilder) : Prop := ∀ e ∈ b.opened, isVoidElement e.tag.name = false

end ForestBuilder

/-- Void elements are leaves. -/
def MarkupEvent.LeafIfVoid : MarkupEvent → Prop
  | start tag isLeaf => isVoidElement tag.name = true → isLeaf = true
  | text _ | stop _ => True

/-- The tags of segments say that void elements are leaves. -/
theorem Segment.leafIfVoid_of_mem_eventsFrom {ps : List Segment} {start offset : Nat}
    {pending : List Char} {e : MarkupEvent} (h : e ∈ eventsFrom start pending offset ps) :
    e.LeafIfVoid := by
  obtain ⟨run, rfl⟩ | ⟨p, -, offset', hevent⟩ := exists_of_mem_eventsFrom h
  · trivial
  · cases p with
    | startTag tag body =>
        obtain rfl := Option.some.inj hevent
        intro hvoid
        have hname : isVoidElement tag.name = true := hvoid
        simp [WrittenTag.isLeaf, hname]
    | endTag letters body =>
        obtain rfl := Option.some.inj hevent
        trivial
    | _ => contradiction

namespace ForestBuilder

variable (count : StartTag → Nat) {b : ForestBuilder} {e : MarkupEvent}

theorem NoneVoid.add (h : b.NoneVoid) (n : Node) : (b.add n).NoneVoid := by
  obtain ⟨roots, opened⟩ := b
  cases opened with
  | nil => simp [ForestBuilder.add, NoneVoid]
  | cons e rest => simpa [ForestBuilder.add, NoneVoid] using h

theorem NoneVoid.closeMany (h : b.NoneVoid) (n : Nat) : (b.closeMany n).NoneVoid := by
  induction n generalizing b with
  | zero => exact h
  | succ n ih =>
      refine ih ?_
      obtain ⟨roots, opened⟩ := b
      cases opened with
      | nil => exact h
      | cons e rest =>
          have hrest : NoneVoid ⟨roots, rest⟩ := fun d hd => h d (List.mem_cons_of_mem _ hd)
          exact hrest.add _

/-- A step over an event in which void elements are leaves opens no void element. -/
theorem NoneVoid.step (h : b.NoneVoid) (he : e.LeafIfVoid) : (b.step e).NoneVoid := by
  cases e with
  | text run => exact h.add _
  | start tag isLeaf =>
      cases isLeaf with
      | true => exact h.add _
      | false =>
          have hname : isVoidElement tag.name = false := by simpa [MarkupEvent.LeafIfVoid] using he
          simpa [ForestBuilder.step, NoneVoid, hname] using h
  | stop name =>
      rw [ForestBuilder.step]
      split
      · exact h
      · exact h.closeMany _

/-- A void element is never open, so its end tag closes nothing. -/
theorem NoneVoid.findIdx?_eq_none (h : b.NoneVoid) {name : String}
    (hname : isVoidElement name = true) : b.opened.findIdx? (·.tag.name == name) = none := by
  rw [List.findIdx?_eq_none_iff]
  intro e he
  have hopen := h e he
  rw [beq_eq_false_iff_ne]
  rintro rfl
  rw [hname] at hopen
  contradiction

/-- One event is one mark of the outline, or nothing. -/
theorem sketch_step (h : b.NoneVoid) :
    (b.step e).sketch count =
      ((e.mark? count).toList).foldl OutlineBuilder.step (b.sketch count) := by
  cases e with
  | text run =>
      rw [step, sketch_add, Node.outlineNode]
      obtain ⟨roots, opened⟩ := b
      cases opened <;> simp [sketch, OutlineBuilder.add, MarkupEvent.mark?, sketchOpen]
  | start tag isLeaf =>
      cases isLeaf with
      | true =>
          rw [step, sketch_add, Node.outlineNode, Node.outline]
          rfl
      | false =>
          show _ = OutlineBuilder.step _ (.start _ _ false)
          simp [step, sketch, OutlineBuilder.step, sketchOpen, Node.outline]
  | stop name =>
      by_cases hname : isVoidElement name = true
      · rw [step, h.findIdx?_eq_none hname]
        simp [MarkupEvent.mark?, hname]
      · have hmark : MarkupEvent.mark? count (.stop name) = some (.stop name) := by
          simp [MarkupEvent.mark?, hname]
        rw [hmark, Option.toList_some, List.foldl_cons, List.foldl_nil, step, OutlineBuilder.step,
          findIdx?_opened_sketch]
        cases b.opened.findIdx? (·.tag.name == name) with
        | none => rfl
        | some depth => exact sketch_closeMany count (depth + 1) b

/-- A run of events is the run of its marks. -/
theorem sketch_foldl_step (h : b.NoneVoid) {es : List MarkupEvent}
    (hes : ∀ e ∈ es, e.LeafIfVoid) :
    (es.foldl step b).sketch count =
      (es.filterMap (·.mark? count)).foldl OutlineBuilder.step (b.sketch count) := by
  induction es generalizing b with
  | nil => rfl
  | cons e es ih =>
      have hnext := ih (h.step (hes e (by simp))) (fun d hd => hes d (by simp [hd]))
      rw [List.foldl_cons, hnext, sketch_step count h]
      cases hmark : e.mark? count with
      | none => simp [hmark]
      | some m => simp [hmark]

end ForestBuilder

/-- **The outline of a template is that of its tags.** -/
theorem Node.outline_ofEvents (count : StartTag → Nat) {es : List MarkupEvent}
    (hes : ∀ e ∈ es, e.LeafIfVoid) :
    outline count (ofEvents es) =
      ((es.filterMap (·.mark? count)).foldl OutlineBuilder.step .empty).finish := by
  have hempty : ForestBuilder.empty.NoneVoid := by
    simp [ForestBuilder.NoneVoid, ForestBuilder.empty]
  have hsketch := ForestBuilder.sketch_foldl_step count hempty hes
  have hstart : ForestBuilder.empty.sketch count = .empty := by
    simp [ForestBuilder.sketch, ForestBuilder.empty, OutlineBuilder.empty, outline]
  rw [hstart] at hsketch
  have hclose := ForestBuilder.sketch_closeMany count
    (es.foldl ForestBuilder.step .empty).opened.length (es.foldl ForestBuilder.step .empty)
  rw [ofEvents, ForestBuilder.finish, OutlineBuilder.finish, ← hsketch]
  have hlength : ((es.foldl ForestBuilder.step .empty).sketch count).opened.length =
      (es.foldl ForestBuilder.step .empty).opened.length := by
    simp [ForestBuilder.sketch]
  rw [hlength, ← hclose]
  rfl

end TemplateMigration
