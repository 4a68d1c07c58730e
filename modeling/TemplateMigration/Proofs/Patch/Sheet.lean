import Mathlib.Data.List.Basic
import TemplateMigration.Proofs.Patch.Chain

/-!
# TemplateMigration.Proofs.Patch.Sheet

The meaning of a patch, offset by offset.

A `Sheet` writes down for every byte offset what has been inserted there on the left and on the
right, whether the offset is dead, and whether its byte is removed.  Calls on a patch are calls on
its sheet (`PatchCall.draw`), with no pieces, no cuts and no order of edges.  After any sequence
of calls, refused ones included, a patch renders what its sheet renders.
-/

namespace TemplateMigration

/-! ## Sheets -/

/-- What is known about each byte offset of a text. -/
@[ext] structure Sheet where
  /-- The text inserted on the left of an offset. -/
  left : Nat → List Char
  /-- The text inserted on the right of an offset. -/
  right : Nat → List Char
  /-- Whether an offset lies strictly inside a removal. -/
  dead : Nat → Bool
  /-- Whether the byte at an offset is removed. -/
  removed : Nat → Bool

namespace Sheet

/-- Nothing inserted, nothing removed. -/
def blank : Sheet := ⟨fun _ => [], fun _ => [], fun _ => false, fun _ => false⟩

/-- Append to the left text of an offset, unless it is dead. -/
def insertLeft (s : Sheet) (offset : Nat) (text : List Char) : Sheet :=
  if s.dead offset then s
  else { s with left := fun x => if x = offset then s.left x ++ text else s.left x }

/-- Prepend to the right text of an offset, unless it is dead. -/
def insertRight (s : Sheet) (offset : Nat) (text : List Char) : Sheet :=
  if s.dead offset then s
  else { s with right := fun x => if x = offset then text ++ s.right x else s.right x }

/-- Remove the bytes of a range, and empty and kill every offset strictly inside it. -/
def remove (s : Sheet) (offset length : Nat) : Sheet where
  left x := if offset < x ∧ x < offset + length then [] else s.left x
  right x := if offset < x ∧ x < offset + length then [] else s.right x
  dead x := decide (offset < x ∧ x < offset + length) || s.dead x
  removed x := decide (offset ≤ x ∧ x < offset + length) || s.removed x

/-- A removal kills the offsets strictly inside its range. -/
theorem dead_remove (s : Sheet) (offset length x : Nat) :
    (s.remove offset length).dead x =
      (decide (offset < x ∧ x < offset + length) || s.dead x) := rfl

/-- A removal removes the bytes of its range. -/
theorem removed_remove (s : Sheet) (offset length x : Nat) :
    (s.remove offset length).removed x =
      (decide (offset ≤ x ∧ x < offset + length) || s.removed x) := rfl

/-- Live offsets take what is inserted on their left, dead ones drop it. -/
theorem left_insertLeft (s : Sheet) (offset : Nat) (text : List Char) (x : Nat) :
    (s.insertLeft offset text).left x =
      if x = offset ∧ s.dead x = false then s.left x ++ text else s.left x := by
  unfold insertLeft
  by_cases hx : x = offset
  · subst hx
    cases s.dead x <;> simp
  · cases s.dead offset <;> simp [hx]

@[simp] theorem right_insertLeft (s : Sheet) (offset : Nat) (text : List Char) :
    (s.insertLeft offset text).right = s.right := by
  unfold insertLeft
  split <;> rfl

@[simp] theorem dead_insertLeft (s : Sheet) (offset : Nat) (text : List Char) :
    (s.insertLeft offset text).dead = s.dead := by
  unfold insertLeft
  split <;> rfl

@[simp] theorem removed_insertLeft (s : Sheet) (offset : Nat) (text : List Char) :
    (s.insertLeft offset text).removed = s.removed := by
  unfold insertLeft
  split <;> rfl

/-- Live offsets take what is inserted on their right, dead ones drop it. -/
theorem right_insertRight (s : Sheet) (offset : Nat) (text : List Char) (x : Nat) :
    (s.insertRight offset text).right x =
      if x = offset ∧ s.dead x = false then text ++ s.right x else s.right x := by
  unfold insertRight
  by_cases hx : x = offset
  · subst hx
    cases s.dead x <;> simp
  · cases s.dead offset <;> simp [hx]

@[simp] theorem left_insertRight (s : Sheet) (offset : Nat) (text : List Char) :
    (s.insertRight offset text).left = s.left := by
  unfold insertRight
  split <;> rfl

@[simp] theorem dead_insertRight (s : Sheet) (offset : Nat) (text : List Char) :
    (s.insertRight offset text).dead = s.dead := by
  unfold insertRight
  split <;> rfl

@[simp] theorem removed_insertRight (s : Sheet) (offset : Nat) (text : List Char) :
    (s.insertRight offset text).removed = s.removed := by
  unfold insertRight
  split <;> rfl

/-- A removal of nothing does nothing. -/
@[simp] theorem remove_zero (s : Sheet) (offset : Nat) : s.remove offset 0 = s := by
  have hnone : ∀ x, ¬ (offset < x ∧ x < offset + 0) := by omega
  have hnone' : ∀ x, ¬ (offset ≤ x ∧ x < offset + 0) := by omega
  apply Sheet.ext <;> funext x <;> simp only [remove, hnone, hnone'] <;> rfl

/-- An insertion of nothing does nothing. -/
@[simp] theorem insertLeft_nil (s : Sheet) (offset : Nat) : s.insertLeft offset [] = s := by
  apply Sheet.ext
  · funext x
    rw [left_insertLeft, List.append_nil, ite_self]
  · rw [right_insertLeft]
  · rw [dead_insertLeft]
  · rw [removed_insertLeft]

/-- What an offset contributes to the rendered text: the text on its left, the text on its right,
and its byte unless that is removed. -/
def renderAt (s : Sheet) (bytes : List UInt8) (x : Nat) : List UInt8 :=
  utf8 (s.left x) ++ utf8 (s.right x) ++ if s.removed x then [] else bytes[x]?.toList

/-- The rendered text, given the bytes of the text as it was: all offsets in order, the end of the
text included. -/
def render (s : Sheet) (bytes : List UInt8) : List UInt8 :=
  (List.range (bytes.length + 1)).flatMap (s.renderAt bytes)

end Sheet

/-! ## Calls -/

/-- A call on a patch. -/
inductive PatchCall where
  | insertLeft (offset : Nat) (text : String)
  | insertRight (offset : Nat) (text : String)
  | remove (offset length : Nat)
  deriving DecidableEq, Repr

namespace PatchCall

/-- Make a call. -/
def apply (p : Patch) : PatchCall → Except Failure Patch
  | insertLeft offset text => p.insertLeft offset text
  | insertRight offset text => p.insertRight offset text
  | remove offset length => p.remove offset length

/-- The calls that a text admits: every offset they name is a boundary of the text, and the end of
a removed range is a number that an offset can have. -/
def Admissible (text : List Char) : PatchCall → Prop
  | insertLeft offset _ => IsBoundary text offset
  | insertRight offset _ => IsBoundary text offset
  | remove offset length =>
      offset + length ≤ Patch.maxOffset ∧ IsBoundary text offset ∧
        IsBoundary text (offset + length)

instance (text : List Char) (call : PatchCall) : Decidable (call.Admissible text) := by
  cases call with
  | insertLeft offset _ => exact inferInstanceAs (Decidable (IsBoundary text offset))
  | insertRight offset _ => exact inferInstanceAs (Decidable (IsBoundary text offset))
  | remove offset length =>
      exact inferInstanceAs (Decidable (_ ∧ IsBoundary text _ ∧ IsBoundary text _))

/-- What an admissible call does to a sheet; a removal of nothing does nothing. -/
def effect (s : Sheet) : PatchCall → Sheet
  | insertLeft offset text => s.insertLeft offset text.toList
  | insertRight offset text => s.insertRight offset text.toList
  | remove offset length => if length = 0 then s else s.remove offset length

/-- A removal has its effect also if its range is empty. -/
theorem effect_remove (s : Sheet) (offset length : Nat) :
    effect s (remove offset length) = s.remove offset length := by
  rw [effect]
  split
  · next hzero => rw [hzero, Sheet.remove_zero]
  · rfl

/-- What a call does to the sheet of a text; one that the text does not admit does nothing. -/
def draw (text : List Char) (s : Sheet) (call : PatchCall) : Sheet :=
  if call.Admissible text then call.effect s else s

end PatchCall

/-- Make a call if it succeeds. -/
def Patch.attempt (p : Patch) (call : PatchCall) : Patch :=
  match call.apply p with
  | .ok q => q
  | .error _ => p

/-- Make calls one after the other on a text, passing over those that fail. -/
def Patch.run (text : String) (calls : List PatchCall) : Patch :=
  calls.foldl Patch.attempt (.ofText text)

/-- Make calls one after the other on the blank sheet of a text. -/
def Sheet.run (text : String) (calls : List PatchCall) : Sheet :=
  calls.foldl (PatchCall.draw text.toList) .blank

/-! ## The sheet of a chain -/

namespace Edge

/-- The text on the left of an edge. -/
def left : Edge → List Char
  | live left _ => left
  | dead => []

/-- The text on the right of an edge. -/
def right : Edge → List Char
  | live _ right => right
  | dead => []

/-- Whether an edge drops what is inserted at it. -/
def isDead : Edge → Bool
  | live _ _ => false
  | dead => true

@[simp] theorem render_live_nil : (live [] []).render = [] := rfl

/-- An edge writes what was inserted on its left, then what was inserted on its right. -/
theorem render_eq (e : Edge) : e.render = e.left ++ e.right := by
  cases e <;> rfl

/-- Text is inserted on the left of an edge that is alive, behind what stands there. -/
theorem left_insertLeft (text : List Char) (e : Edge) :
    (e.insertLeft text).left = if e.isDead = false then e.left ++ text else e.left := by
  cases e <;> rfl

/-- Text is inserted on the right of an edge that is alive, in front of what stands there. -/
theorem right_insertRight (text : List Char) (e : Edge) :
    (e.insertRight text).right = if e.isDead = false then text ++ e.right else e.right := by
  cases e <;> rfl

end Edge

namespace Chain

variable {c : Chain} {n : Nat}

/-- The sheet that a chain stands for. -/
def sheet (c : Chain) : Sheet where
  left x := (c.edgeAt x).left
  right x := (c.edgeAt x).right
  dead x := (c.edgeAt x).isDead
  removed x := c.removedAt x

/-- A cut shows nothing. -/
theorem sheet_addEdge (hb : IsBoundary c.source n) (hc : c.Proper) :
    (c.addEdge n).sheet = c.sheet := by
  have hedge : ∀ x, (c.addEdge n).edgeAt x = c.edgeAt x :=
    edgeAt_addEdge hb (fun _ => hc.head_kept) hc.last_kept
  simp only [sheet, hedge, removedAt_addEdge hb]

/-- An insertion on the left of an edge is one on the sheet. -/
theorem sheet_insertLeft (hn : (c.edge? n).isSome) (text : List Char) :
    (c.updateEdge (.insertLeft text) n).sheet = c.sheet.insertLeft n text := by
  apply Sheet.ext
  · funext x
    rw [Sheet.left_insertLeft]
    simp only [sheet, edgeAt_updateEdge hn]
    by_cases hx : x = n
    · simp only [hx, if_true, true_and, Edge.left_insertLeft]
    · simp [hx]
  · funext x
    rw [Sheet.right_insertLeft]
    simp only [sheet, edgeAt_updateEdge hn]
    split
    · cases c.edgeAt x <;> rfl
    · rfl
  · funext x
    rw [Sheet.dead_insertLeft]
    simp only [sheet, edgeAt_updateEdge hn]
    split
    · cases c.edgeAt x <;> rfl
    · rfl
  · rw [Sheet.removed_insertLeft]
    simp only [sheet, removedAt_updateEdge]

/-- An insertion on the right of an edge is one on the sheet. -/
theorem sheet_insertRight (hn : (c.edge? n).isSome) (text : List Char) :
    (c.updateEdge (.insertRight text) n).sheet = c.sheet.insertRight n text := by
  apply Sheet.ext
  · funext x
    rw [Sheet.left_insertRight]
    simp only [sheet, edgeAt_updateEdge hn]
    split
    · cases c.edgeAt x <;> rfl
    · rfl
  · funext x
    rw [Sheet.right_insertRight]
    simp only [sheet, edgeAt_updateEdge hn]
    by_cases hx : x = n
    · simp only [hx, if_true, true_and, Edge.right_insertRight]
    · simp [hx]
  · funext x
    rw [Sheet.dead_insertRight]
    simp only [sheet, edgeAt_updateEdge hn]
    split
    · cases c.edgeAt x <;> rfl
    · rfl
  · rw [Sheet.removed_insertRight]
    simp only [sheet, removedAt_updateEdge]

/-- A removal between two edges is one on the sheet. -/
theorem sheet_removeFrom {length : Nat} (hlength : 0 < length) (hstart : (c.edge? n).isSome)
    (hstop : (c.edge? (n + length)).isSome) :
    (c.removeFrom n length).sheet = c.sheet.remove n length := by
  have hedge := edgeAt_removeFrom hlength hstart hstop
  have hbyte := removedAt_removeFrom hlength hstart hstop
  apply Sheet.ext
  · funext x
    simp only [sheet, Sheet.remove, hedge]
    split <;> rfl
  · funext x
    simp only [sheet, Sheet.remove, hedge]
    split <;> rfl
  · funext x
    simp only [sheet, Sheet.remove, hedge]
    split
    · next hx => rw [decide_eq_true hx, Bool.true_or]; rfl
    · next hx => rw [decide_eq_false hx, Bool.false_or]
  · funext x
    simp only [sheet, Sheet.remove, hbyte]

/-! ## Rendering -/

/-- Reading a text byte by byte gives the text. -/
theorem flatMap_range_getElem? (xs ys : List UInt8) :
    (List.range xs.length).flatMap (fun x => (xs ++ ys)[x]?.toList) = xs := by
  induction xs with
  | nil => rfl
  | cons b bs ih =>
      rw [List.length_cons, List.range_succ_eq_map, List.flatMap_cons, List.flatMap_map]
      simpa using ih

/-- What an offset contributes, in terms of the chain. -/
theorem renderAt_sheet (c : Chain) (bytes : List UInt8) (x : Nat) :
    c.sheet.renderAt bytes x =
      utf8 (c.edgeAt x).render ++ if c.removedAt x then [] else bytes[x]?.toList := by
  rw [Edge.render_eq, utf8_append]
  rfl

/-- The offsets inside a piece contribute the piece. -/
theorem flatMap_range_piece (p : Piece) (ys : List UInt8) :
    (List.range p.size).flatMap
      (fun x => if p.removed then [] else (utf8 p.content ++ ys)[x]?.toList) = utf8 p.render := by
  have hlength : p.size = (utf8 p.content).length := (length_utf8 p.content).symm
  rw [hlength, Piece.render]
  cases p.removed with
  | false => simpa using flatMap_range_getElem? (utf8 p.content) ys
  | true => simp

/-- At its start a filled chain has no edge. -/
theorem edgeAt_zero_of_filled (hc : c.Filled) : c.edgeAt 0 = .live [] [] := by
  cases c with
  | single p => simp [edgeAt]
  | join p e rest => rw [edgeAt_join_of_lt hc.1, if_pos rfl]

theorem innerFilled_of_filled (hc : c.Filled) : c.InnerFilled := by
  cases c with
  | single p => trivial
  | join p e rest => exact hc.2

/-- Inside the first piece an offset contributes its byte only. -/
theorem renderAt_join_of_lt {p : Piece} {e : Edge} {rest : Chain} {x : Nat} (hx : x < p.size)
    (bytes : List UInt8) :
    (join p e rest).sheet.renderAt bytes x = if p.removed then [] else bytes[x]?.toList := by
  rw [renderAt_sheet, edgeAt_join_of_lt hx, removedAt_join_of_lt hx]
  split <;> simp

/-- Past the first edge the offsets contribute what they do in the rest. -/
theorem renderAt_join_of_gt {p : Piece} {e : Edge} {rest : Chain} (x : Nat) (ys : List UInt8) :
    (join p e rest).sheet.renderAt (utf8 p.content ++ ys) (p.size + (x + 1)) =
      rest.sheet.renderAt ys (x + 1) := by
  have hlength : (utf8 p.content).length = p.size := length_utf8 p.content
  rw [renderAt_sheet, renderAt_sheet, edgeAt_join_of_gt (by omega),
    removedAt_join_of_ge (by omega), Nat.add_sub_cancel_left,
    List.getElem?_append_right (by omega), hlength, Nat.add_sub_cancel_left]

/-- A chain renders what its sheet renders.  The induction is on the chain; the first edge of the
rest is never its own, so the edge between the two is counted once. -/
theorem utf8_render (hc : c.InnerFilled) : utf8 c.render = c.sheet.render (utf8 c.source) := by
  induction c with
  | single p =>
      have hlength : (utf8 p.content).length = p.size := length_utf8 p.content
      have hat : (single p).sheet.renderAt (utf8 p.content) =
          fun x => if p.removed then [] else (utf8 p.content ++ [])[x]?.toList := by
        funext x
        have hedge : ((single p).edgeAt x).render = [] := by
          rw [edgeAt]
          split <;> simp
        rw [renderAt_sheet, hedge, removedAt, List.append_nil]
        by_cases hx : x < p.size
        · simp [hx]
        · rw [List.getElem?_eq_none (by omega)]
          simp
      rw [Sheet.render, source, hlength, List.range_succ, List.flatMap_append, hat,
        flatMap_range_piece, render, List.flatMap_cons, List.flatMap_nil, List.append_nil,
        List.append_nil, List.getElem?_eq_none (by omega)]
      simp
  | join p e rest ih =>
      have hrest : rest.Filled := hc
      have hlength : (utf8 p.content).length = p.size := length_utf8 p.content
      have hcount : (utf8 (join p e rest).source).length + 1 =
          p.size + ((utf8 rest.source).length + 1) := by
        rw [source, utf8_append, List.length_append, hlength]
        omega
      have hpiece : (List.range p.size).flatMap
          ((join p e rest).sheet.renderAt (utf8 p.content ++ utf8 rest.source)) =
            utf8 p.render := by
        rw [← flatMap_range_piece p (utf8 rest.source)]
        apply List.flatMap_congr
        intro x hx
        exact renderAt_join_of_lt (List.mem_range.mp hx) _
      have hfirst : (join p e rest).sheet.renderAt (utf8 p.content ++ utf8 rest.source)
          (p.size + 0) = utf8 e.render ++ rest.sheet.renderAt (utf8 rest.source) 0 := by
        rw [renderAt_sheet, renderAt_sheet, edgeAt_join_of_eq (Nat.add_zero p.size),
          removedAt_join_of_ge (by omega), edgeAt_zero_of_filled hrest, Nat.add_sub_cancel_left,
          List.getElem?_append_right (by omega), hlength, Nat.add_sub_cancel_left,
          Edge.render_live_nil, utf8_nil, List.nil_append]
      have hshift : ∀ x, (join p e rest).sheet.renderAt (utf8 p.content ++ utf8 rest.source)
          (p.size + (x + 1)) = rest.sheet.renderAt (utf8 rest.source) (x + 1) :=
        fun x => renderAt_join_of_gt x _
      rw [Sheet.render, hcount, source, utf8_append, List.range_add, List.flatMap_append, hpiece,
        List.flatMap_map, List.range_succ_eq_map, List.flatMap_cons, hfirst, List.flatMap_map]
      simp only [Nat.succ_eq_add_one, hshift]
      rw [render, utf8_append, utf8_append, ih (innerFilled_of_filled hrest), Sheet.render,
        List.range_succ_eq_map, List.flatMap_cons, List.flatMap_map]
      simp only [Nat.succ_eq_add_one, List.append_assoc]

end Chain

/-! ## Steps and runs -/

/-- A patch of a text shows a sheet: its chain is proper, covers the text and stands for the
sheet. -/
structure Patch.Shows (p : Patch) (text : List Char) (s : Sheet) : Prop where
  proper : p.chain.Proper
  source : p.chain.source = text
  sheet : p.chain.sheet = s

namespace Patch

variable {p : Patch} {text : List Char} {s : Sheet}

/-- A patch without calls shows a blank sheet. -/
theorem shows_ofText (text : String) : (ofText text).Shows text.toList .blank where
  proper := ⟨rfl, rfl, trivial⟩
  source := rfl
  sheet := by
    have hedge : ∀ x, (Chain.single ⟨text.toList, false⟩).edgeAt x = .live [] [] := by
      intro x
      rw [Chain.edgeAt, Edge.fresh_of_kept rfl, ite_self]
    simp [ofText, Chain.sheet, hedge, Chain.removedAt, Edge.left, Edge.right, Edge.isDead,
      Sheet.blank]

/-- A patch renders what its sheet renders. -/
theorem Shows.utf8_render (h : p.Shows text s) : utf8 p.render.toList = s.render (utf8 text) := by
  rw [render, String.toList_ofList, Chain.utf8_render h.proper.filled, h.source, h.sheet]

/-- The offsets of a text that are accepted are its boundaries. -/
theorem check_eq_ok_iff (p : Patch) (n : Nat) :
    p.check n = .ok () ↔ IsBoundary p.chain.source n := by
  rw [check]
  by_cases hlt : p.size < n
  · rw [if_pos hlt]
    constructor
    · intro h
      contradiction
    · intro hb
      exact absurd hb.le (Nat.not_le_of_lt hlt)
  · rw [if_neg hlt, ← isSome_cut?_iff]
    cases cut? n p.chain.source <;> simp

/-- An offset that is no boundary is refused. -/
theorem exists_check_eq_error {n : Nat} (hb : ¬ IsBoundary p.chain.source n) :
    ∃ failure, p.check n = .error failure := by
  cases hcheck : p.check n with
  | error failure => exact ⟨failure, rfl⟩
  | ok _ => exact absurd ((check_eq_ok_iff p n).mp hcheck) hb

/-- Changing the edge at a boundary succeeds and keeps the text. -/
theorem exists_edit_eq_ok (h : p.Shows text s) {n : Nat} (hb : IsBoundary text n)
    (f : Edge → Edge) :
    p.edit f n = .ok ⟨(p.chain.addEdge n).updateEdge f n⟩ ∧
      ((p.chain.addEdge n).updateEdge f n).Proper ∧
      ((p.chain.addEdge n).updateEdge f n).source = text := by
  rw [← h.source] at hb
  refine ⟨?_, ?_, ?_⟩
  · rw [edit, (check_eq_ok_iff p n).mpr hb]
    rfl
  · exact Chain.proper_updateEdge f n (Chain.proper_addEdge hb h.proper)
  · rw [Chain.source_updateEdge, Chain.source_addEdge hb, h.source]

/-- An insertion on the left succeeds at a boundary, and the patch shows it. -/
theorem exists_insertLeft (h : p.Shows text s) {n : Nat} (hb : IsBoundary text n) (t : String) :
    ∃ q, p.insertLeft n t = .ok q ∧ q.Shows text (s.insertLeft n t.toList) := by
  obtain ⟨hedit, hproper, hsource⟩ := exists_edit_eq_ok h hb (.insertLeft t.toList)
  rw [← h.source] at hb
  refine ⟨_, hedit, hproper, hsource, ?_⟩
  rw [Chain.sheet_insertLeft (Chain.isSome_edge?_addEdge_self hb),
    Chain.sheet_addEdge hb h.proper, h.sheet]

/-- An insertion on the right succeeds at a boundary, and the patch shows it. -/
theorem exists_insertRight (h : p.Shows text s) {n : Nat} (hb : IsBoundary text n) (t : String) :
    ∃ q, p.insertRight n t = .ok q ∧ q.Shows text (s.insertRight n t.toList) := by
  obtain ⟨hedit, hproper, hsource⟩ := exists_edit_eq_ok h hb (.insertRight t.toList)
  rw [← h.source] at hb
  refine ⟨_, hedit, hproper, hsource, ?_⟩
  rw [Chain.sheet_insertRight (Chain.isSome_edge?_addEdge_self hb),
    Chain.sheet_addEdge hb h.proper, h.sheet]

/-- What a removal between two boundaries makes of a patch. -/
theorem remove_eq_ok {n length : Nat} (hmax : n + length ≤ maxOffset)
    (hstart : IsBoundary p.chain.source n) (hstop : IsBoundary p.chain.source (n + length)) :
    p.remove n length = if length = 0 then .ok p else
      .ok ⟨((p.chain.addEdge n).addEdge (n + length)).removeFrom n length⟩ := by
  rw [remove, if_neg (Nat.not_lt_of_le hmax), (check_eq_ok_iff p n).mpr hstart,
    (check_eq_ok_iff p (n + length)).mpr hstop]
  rfl

/-- A removal first puts edges at both ends of its range, the second of which keeps the first. -/
theorem exists_remove (h : p.Shows text s) {n length : Nat} (hmax : n + length ≤ maxOffset)
    (hstart : IsBoundary text n) (hstop : IsBoundary text (n + length)) :
    ∃ q, p.remove n length = .ok q ∧
      q.Shows text (if length = 0 then s else s.remove n length) := by
  rw [← h.source] at hstart hstop
  rw [remove_eq_ok hmax hstart hstop]
  by_cases hlength : length = 0
  · rw [if_pos hlength, if_pos hlength]
    exact ⟨p, rfl, h⟩
  · rw [if_neg hlength, if_neg hlength]
    have hpos : 0 < length := Nat.pos_of_ne_zero hlength
    have hsource := Chain.source_addEdge hstart
    have hstop' : IsBoundary (p.chain.addEdge n).source (n + length) := by rwa [hsource]
    have hproper := Chain.proper_addEdge hstart h.proper
    have hedge := Chain.isSome_edge?_addEdge hstop' (Chain.isSome_edge?_addEdge_self hstart)
    have hedge' := Chain.isSome_edge?_addEdge_self hstop'
    refine ⟨_, rfl, ?_, ?_, ?_⟩
    · exact Chain.proper_removeFrom hpos hedge hedge' (Chain.proper_addEdge hstop' hproper)
    · rw [Chain.source_removeFrom, Chain.source_addEdge hstop', hsource, h.source]
    · rw [Chain.sheet_removeFrom hpos hedge hedge', Chain.sheet_addEdge hstop' hproper,
        Chain.sheet_addEdge hstart h.proper, h.sheet]

/-- An admissible call succeeds and has its effect on the sheet. -/
theorem exists_apply (h : p.Shows text s) {call : PatchCall} (ha : call.Admissible text) :
    ∃ q, call.apply p = .ok q ∧ q.Shows text (call.effect s) := by
  cases call with
  | insertLeft offset t => exact exists_insertLeft h ha t
  | insertRight offset t => exact exists_insertRight h ha t
  | remove offset length =>
      obtain ⟨hmax, hstart, hstop⟩ := ha
      exact exists_remove h hmax hstart hstop

/-- Any other call fails. -/
theorem exists_apply_eq_error (h : p.Shows text s) {call : PatchCall}
    (ha : ¬ call.Admissible text) : ∃ failure, call.apply p = .error failure := by
  cases call with
  | insertLeft offset t =>
      obtain ⟨failure, hcheck⟩ := exists_check_eq_error (p := p) (by rw [h.source]; exact ha)
      exact ⟨failure, by rw [PatchCall.apply, insertLeft, edit, hcheck]; rfl⟩
  | insertRight offset t =>
      obtain ⟨failure, hcheck⟩ := exists_check_eq_error (p := p) (by rw [h.source]; exact ha)
      exact ⟨failure, by rw [PatchCall.apply, insertRight, edit, hcheck]; rfl⟩
  | remove offset length =>
      rw [PatchCall.apply, remove]
      by_cases hmax : maxOffset < offset + length
      · exact ⟨_, if_pos hmax⟩
      · rw [if_neg hmax]
        by_cases hstart : IsBoundary p.chain.source offset
        · have hstop : ¬ IsBoundary p.chain.source (offset + length) := by
            intro hstop
            rw [h.source] at hstart hstop
            exact ha ⟨Nat.le_of_not_lt hmax, hstart, hstop⟩
          obtain ⟨failure, hcheck⟩ := exists_check_eq_error hstop
          exact ⟨failure, by rw [(check_eq_ok_iff p offset).mpr hstart, hcheck]; rfl⟩
        · obtain ⟨failure, hcheck⟩ := exists_check_eq_error hstart
          exact ⟨failure, by rw [hcheck]; rfl⟩

/-- The calls that succeed are those that the text admits. -/
theorem exists_apply_iff (h : p.Shows text s) (call : PatchCall) :
    (∃ q, call.apply p = .ok q) ↔ call.Admissible text := by
  constructor
  · rintro ⟨q, hq⟩
    by_contra ha
    obtain ⟨failure, herror⟩ := exists_apply_eq_error h ha
    rw [hq] at herror
    contradiction
  · intro ha
    obtain ⟨q, hq, -⟩ := exists_apply h ha
    exact ⟨q, hq⟩

/-- A patch drops what is inserted at the dead offsets of its sheet. -/
theorem drops_eq_dead (h : p.Shows text s) {n : Nat} (hb : IsBoundary text n) :
    p.drops n = s.dead n := by
  rw [← h.source] at hb
  obtain ⟨e, he⟩ := Option.isSome_iff_exists.mp (Chain.isSome_edge?_addEdge_self hb)
  have hedge : p.chain.edgeAt n = e := by
    rw [← Chain.edgeAt_addEdge hb (fun _ => h.proper.head_kept) h.proper.last_kept]
    exact Chain.edgeAt_of_edge? he
  have hdead : p.chain.sheet.dead n = e.isDead := by
    rw [← hedge]
    rfl
  rw [drops, he, ← h.sheet, hdead]
  cases e <;> rfl

/-- One call, refused or not, is one step of the sheet. -/
theorem shows_attempt (h : p.Shows text s) (call : PatchCall) :
    (p.attempt call).Shows text (call.draw text s) := by
  by_cases ha : call.Admissible text
  · obtain ⟨q, hq, hshows⟩ := exists_apply h ha
    rw [attempt, hq, PatchCall.draw, if_pos ha]
    exact hshows
  · obtain ⟨failure, herror⟩ := exists_apply_eq_error h ha
    rw [attempt, herror, PatchCall.draw, if_neg ha]
    exact h

/-- A call that the text admits has its effect on the sheet. -/
theorem shows_attempt_of_admissible (h : p.Shows text s) {call : PatchCall}
    (ha : call.Admissible text) : (p.attempt call).Shows text (call.effect s) := by
  have hshows := shows_attempt h call
  rwa [PatchCall.draw, if_pos ha] at hshows

/-- Calls are made on the sheet as on the patch. -/
theorem shows_foldl_attempt (h : p.Shows text s) (calls : List PatchCall) :
    (calls.foldl attempt p).Shows text (calls.foldl (PatchCall.draw text) s) := by
  induction calls generalizing p s with
  | nil => exact h
  | cons call calls ih => exact ih (shows_attempt h call)

/-- Calls that a text admits all succeed. -/
theorem foldlM_apply (h : p.Shows text s) {calls : List PatchCall}
    (ha : ∀ call ∈ calls, call.Admissible text) :
    calls.foldlM PatchCall.apply p = .ok (calls.foldl attempt p) := by
  induction calls generalizing p s with
  | nil => rfl
  | cons call calls ih =>
      obtain ⟨q, hq, hshows⟩ := exists_apply h (ha call (by simp))
      have hattempt : p.attempt call = q := by rw [attempt, hq]
      rw [List.foldlM_cons, hq, List.foldl_cons, hattempt]
      exact ih hshows (fun c hc => ha c (List.mem_cons_of_mem _ hc))

/-- A patch shows the sheet of its calls. -/
theorem shows_run (text : String) (calls : List PatchCall) :
    (run text calls).Shows text.toList (Sheet.run text calls) :=
  shows_foldl_attempt (shows_ofText text) calls

/-- **Patches are sheets.**  After every sequence of calls on a text a patch renders what the
sheet of the same calls renders, and the calls that succeed next are those that the text admits. -/
theorem toUTF8_render_run (text : String) (calls : List PatchCall) :
    (run text calls).render.toUTF8.data.toList =
        (Sheet.run text calls).render text.toUTF8.data.toList ∧
      ∀ call : PatchCall,
        (∃ q, call.apply (run text calls) = .ok q) ↔ call.Admissible text.toList := by
  have hshows := shows_run text calls
  constructor
  · rw [data_toUTF8, data_toUTF8, hshows.utf8_render]
  · exact exists_apply_iff hshows

end Patch

end TemplateMigration
