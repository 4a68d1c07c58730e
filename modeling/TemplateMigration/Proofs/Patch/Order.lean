import Mathlib.Data.Finset.Card
import TemplateMigration.Proofs.Patch.Edges

/-!
# TemplateMigration.Proofs.Patch.Order

The order of edits does not matter.

What calls leave on a sheet is described without running them (`Sheet.ofCalls`): an offset shows
the texts inserted there unless some removal, earlier or later, holds it strictly inside, and a
byte is removed when some removal covers it.  `Sheet.run_eq_ofCalls` says that a run leaves this
sheet.  In the same way the edges of the chain stand at the offsets that calls have named
(`Patch.mem_offsets_run`), which gives the number of pieces.

Both descriptions look at the calls as a collection, but for the order of the insertions on one
side of one offset.  Sequences that differ in nothing else (`PatchCall.Rearranged`) therefore leave
patches that cannot be told apart.
-/

namespace TemplateMigration

/-! ## One call -/

namespace PatchCall

/-- The text that a call inserts on the left of an offset. -/
def leftAt (x : Nat) : PatchCall → List Char
  | insertLeft offset text => if x = offset then text.toList else []
  | insertRight _ _ | remove _ _ => []

/-- The text that a call inserts on the right of an offset. -/
def rightAt (x : Nat) : PatchCall → List Char
  | insertRight offset text => if x = offset then text.toList else []
  | insertLeft _ _ | remove _ _ => []

/-- Whether a call removes a range that holds an offset strictly inside. -/
def killsAt (x : Nat) : PatchCall → Bool
  | remove offset length => decide (offset < x ∧ x < offset + length)
  | insertLeft _ _ | insertRight _ _ => false

/-- Whether a call removes the byte at an offset. -/
def removesAt (x : Nat) : PatchCall → Bool
  | remove offset length => decide (offset ≤ x ∧ x < offset + length)
  | insertLeft _ _ | insertRight _ _ => false

/-- Whether a call inserts on the left of an offset. -/
def insertsLeftAt (x : Nat) : PatchCall → Bool
  | insertLeft offset _ => x == offset
  | insertRight _ _ | remove _ _ => false

/-- Whether a call inserts on the right of an offset. -/
def insertsRightAt (x : Nat) : PatchCall → Bool
  | insertRight offset _ => x == offset
  | insertLeft _ _ | remove _ _ => false

/-- The offsets at which a call needs an edge; a removal of nothing needs none. -/
def cuts : PatchCall → List Nat
  | insertLeft offset _ | insertRight offset _ => [offset]
  | remove offset length => if length = 0 then [] else [offset, offset + length]

theorem leftAt_eq_nil {x : Nat} {call : PatchCall} (h : call.insertsLeftAt x = false) :
    call.leftAt x = [] := by
  cases call with
  | insertLeft offset text =>
      have hne : x ≠ offset := by simpa [insertsLeftAt] using h
      simp [leftAt, hne]
  | insertRight offset text => rfl
  | remove offset length => rfl

theorem rightAt_eq_nil {x : Nat} {call : PatchCall} (h : call.insertsRightAt x = false) :
    call.rightAt x = [] := by
  cases call with
  | insertRight offset text =>
      have hne : x ≠ offset := by simpa [insertsRightAt] using h
      simp [rightAt, hne]
  | insertLeft offset text => rfl
  | remove offset length => rfl

/-! ## Sequences of calls -/

/-- The text that calls insert on the left of an offset, each after what stands there. -/
def leftTextAt (calls : List PatchCall) (x : Nat) : List Char := calls.flatMap (·.leftAt x)

/-- The text that calls insert on the right of an offset, each before what stands there. -/
def rightTextAt (calls : List PatchCall) (x : Nat) : List Char :=
  calls.reverse.flatMap (·.rightAt x)

/-- Whether an offset lies strictly inside a range that one of the calls removes. -/
def killedAt (calls : List PatchCall) (x : Nat) : Bool := calls.any (·.killsAt x)

/-- Whether one of the calls removes the byte at an offset. -/
def removedAt (calls : List PatchCall) (x : Nat) : Bool := calls.any (·.removesAt x)

variable (calls : List PatchCall) (call : PatchCall) (x : Nat)

@[simp] theorem leftTextAt_concat :
    leftTextAt (calls ++ [call]) x = leftTextAt calls x ++ call.leftAt x := by
  simp [leftTextAt]

@[simp] theorem rightTextAt_concat :
    rightTextAt (calls ++ [call]) x = call.rightAt x ++ rightTextAt calls x := by
  simp [rightTextAt]

@[simp] theorem killedAt_concat :
    killedAt (calls ++ [call]) x = (call.killsAt x || killedAt calls x) := by
  simp [killedAt, Bool.or_comm]

@[simp] theorem removedAt_concat :
    removedAt (calls ++ [call]) x = (call.removesAt x || removedAt calls x) := by
  simp [removedAt, Bool.or_comm]

end PatchCall

/-! ## The sheet of a sequence of calls -/

namespace Sheet

open PatchCall in
/-- The sheet that calls leave. -/
def ofCalls (calls : List PatchCall) : Sheet where
  left x := if killedAt calls x then [] else leftTextAt calls x
  right x := if killedAt calls x then [] else rightTextAt calls x
  dead x := killedAt calls x
  removed x := removedAt calls x

/-- One more call.  A removal empties the offsets inside it, and an insertion at a dead offset is
dropped: either way the offset shows nothing. -/
theorem effect_ofCalls (calls : List PatchCall) (call : PatchCall) :
    call.effect (ofCalls calls) = ofCalls (calls ++ [call]) := by
  cases call with
  | insertLeft offset text =>
      apply Sheet.ext
      · funext x
        simp only [PatchCall.effect, left_insertLeft, ofCalls, PatchCall.killedAt_concat,
          PatchCall.leftTextAt_concat, PatchCall.killsAt, PatchCall.leftAt]
        by_cases hx : x = offset <;> cases PatchCall.killedAt calls x <;> simp [hx]
      · simp [PatchCall.effect, ofCalls, PatchCall.killsAt, PatchCall.rightAt]
      · simp [PatchCall.effect, ofCalls, PatchCall.killsAt]
      · simp [PatchCall.effect, ofCalls, PatchCall.removesAt]
  | insertRight offset text =>
      apply Sheet.ext
      · simp [PatchCall.effect, ofCalls, PatchCall.killsAt, PatchCall.leftAt]
      · funext x
        simp only [PatchCall.effect, right_insertRight, ofCalls, PatchCall.killedAt_concat,
          PatchCall.rightTextAt_concat, PatchCall.killsAt, PatchCall.rightAt]
        by_cases hx : x = offset <;> cases PatchCall.killedAt calls x <;> simp [hx]
      · simp [PatchCall.effect, ofCalls, PatchCall.killsAt]
      · simp [PatchCall.effect, ofCalls, PatchCall.removesAt]
  | remove offset length =>
      rw [PatchCall.effect_remove]
      apply Sheet.ext
      · funext x
        by_cases hx : offset < x ∧ x < offset + length <;>
          simp [ofCalls, Sheet.remove, PatchCall.killsAt, PatchCall.leftAt, hx]
      · funext x
        by_cases hx : offset < x ∧ x < offset + length <;>
          simp [ofCalls, Sheet.remove, PatchCall.killsAt, PatchCall.rightAt, hx]
      · simp [ofCalls, Sheet.remove, PatchCall.killsAt]
      · simp [ofCalls, Sheet.remove, PatchCall.removesAt]

/-- A sheet on which calls are drawn is the sheet of the admissible ones. -/
theorem foldl_draw_ofCalls (text : List Char) (done calls : List PatchCall) :
    calls.foldl (PatchCall.draw text) (ofCalls done) =
      ofCalls (done ++ calls.filter (·.Admissible text)) := by
  induction calls generalizing done with
  | nil => simp
  | cons call calls ih =>
      by_cases ha : call.Admissible text
      · simp [PatchCall.draw, ha, effect_ofCalls, ih]
      · simp [PatchCall.draw, ha, ih]

/-- A run leaves the sheet of the calls that the text admits. -/
theorem run_eq_ofCalls (text : String) (calls : List PatchCall) :
    run text calls = ofCalls (calls.filter (·.Admissible text.toList)) := by
  exact foldl_draw_ofCalls text.toList [] calls

end Sheet

/-! ## The pieces of a run -/

namespace Patch

variable {p : Patch} {text : List Char} {s : Sheet} {m : Nat}

theorem mem_offsets_edit (h : p.Shows text s) {n : Nat} (hb : IsBoundary text n)
    (f : Edge → Edge) :
    m ∈ ((p.chain.addEdge n).updateEdge f n).offsets ↔ m = n ∨ m ∈ p.chain.offsets := by
  rw [← h.source] at hb
  rw [Chain.offsets_updateEdge, Chain.mem_offsets_addEdge hb]

/-- One call puts edges where it needs them, if it succeeds, and nowhere else. -/
theorem mem_offsets_attempt (h : p.Shows text s) (call : PatchCall) :
    m ∈ (p.attempt call).chain.offsets ↔
      m ∈ p.chain.offsets ∨ call.Admissible text ∧ m ∈ call.cuts := by
  by_cases ha : call.Admissible text
  · cases call with
    | insertLeft offset t =>
        have hok : PatchCall.apply p (.insertLeft offset t) = _ :=
          (exists_edit_eq_ok h ha (.insertLeft t.toList)).1
        simp only [attempt, hok, mem_offsets_edit h ha]
        simp [ha, PatchCall.cuts, or_comm]
    | insertRight offset t =>
        have hok : PatchCall.apply p (.insertRight offset t) = _ :=
          (exists_edit_eq_ok h ha (.insertRight t.toList)).1
        simp only [attempt, hok, mem_offsets_edit h ha]
        simp [ha, PatchCall.cuts, or_comm]
    | remove offset length =>
        obtain ⟨hmax, hstart, hstop⟩ := id ha
        rw [← h.source] at hstart hstop
        have hok : PatchCall.apply p (.remove offset length) = _ := remove_eq_ok hmax hstart hstop
        by_cases hlength : length = 0
        · subst hlength
          rw [if_pos rfl] at hok
          simp [attempt, hok, PatchCall.cuts]
        · rw [if_neg hlength] at hok
          have hstop' : IsBoundary (p.chain.addEdge offset).source (offset + length) := by
            rwa [Chain.source_addEdge hstart]
          simp only [attempt, hok, Chain.offsets_removeFrom, Chain.mem_offsets_addEdge hstop',
            Chain.mem_offsets_addEdge hstart, ha, PatchCall.cuts, if_neg hlength]
          grind
  · obtain ⟨failure, herror⟩ := exists_apply_eq_error h ha
    simp [attempt, herror, ha]

/-- The edges after calls are those before and the cuts of the admissible calls. -/
theorem mem_offsets_foldl_attempt (h : p.Shows text s) (calls : List PatchCall) :
    m ∈ (calls.foldl attempt p).chain.offsets ↔
      m ∈ p.chain.offsets ∨ ∃ call ∈ calls, call.Admissible text ∧ m ∈ call.cuts := by
  induction calls generalizing p s with
  | nil => simp
  | cons call calls ih =>
      rw [List.foldl_cons, ih (shows_attempt h call), mem_offsets_attempt h]
      simp [or_assoc]

/-- The edges stand at the offsets that successful calls have named. -/
theorem mem_offsets_run (text : String) (calls : List PatchCall) :
    m ∈ (run text calls).chain.offsets ↔
      ∃ call ∈ calls, call.Admissible text.toList ∧ m ∈ call.cuts := by
  rw [run, mem_offsets_foldl_attempt (shows_ofText text)]
  simp [ofText]

/-- The number of pieces is one more than the number of offsets that successful calls have named. -/
theorem pieceCount_run (text : String) (calls : List PatchCall) :
    (run text calls).pieceCount =
      ((calls.filter (·.Admissible text.toList)).flatMap PatchCall.cuts).toFinset.card + 1 := by
  have hnodup := Chain.nodup_offsets (shows_run text calls).proper.filled
  have hset : (run text calls).chain.offsets.toFinset =
      ((calls.filter (·.Admissible text.toList)).flatMap PatchCall.cuts).toFinset := by
    ext m
    simp [mem_offsets_run, and_assoc]
  rw [pieceCount, Chain.count_eq_length_offsets, ← List.toFinset_card_of_nodup hnodup, hset]

end Patch

/-! ## Rearranged calls -/

/-- The same calls in another order, but for the insertions on one side of one offset, which keep
theirs. -/
structure PatchCall.Rearranged (calls calls' : List PatchCall) : Prop where
  perm : calls.Perm calls'
  left : ∀ x, calls.filter (·.insertsLeftAt x) = calls'.filter (·.insertsLeftAt x)
  right : ∀ x, calls.filter (·.insertsRightAt x) = calls'.filter (·.insertsRightAt x)

namespace PatchCall.Rearranged

variable {calls calls' : List PatchCall}

/-- Calls that are rearranged are so after a selection. -/
theorem filter (h : Rearranged calls calls') (p : PatchCall → Bool) :
    Rearranged (calls.filter p) (calls'.filter p) where
  perm := h.perm.filter p
  left x := by
    have hleft := congrArg (List.filter p) (h.left x)
    simpa [List.filter_filter, Bool.and_comm] using hleft
  right x := by
    have hright := congrArg (List.filter p) (h.right x)
    simpa [List.filter_filter, Bool.and_comm] using hright

/-- Calls that insert elsewhere add nothing to the text at an offset. -/
theorem flatMap_filter {f : PatchCall → List Char} {p : PatchCall → Bool}
    (hf : ∀ call, p call = false → f call = []) (calls : List PatchCall) :
    (calls.filter p).flatMap f = calls.flatMap f := by
  induction calls with
  | nil => rfl
  | cons call calls ih =>
      cases hp : p call with
      | true => simp [hp, ih]
      | false => simp [hp, ih, hf call hp]

theorem leftTextAt_eq (h : Rearranged calls calls') (x : Nat) :
    leftTextAt calls x = leftTextAt calls' x := by
  rw [leftTextAt, ← flatMap_filter (fun call => leftAt_eq_nil) calls, h.left x,
    flatMap_filter (fun call => leftAt_eq_nil), leftTextAt]

theorem rightTextAt_eq (h : Rearranged calls calls') (x : Nat) :
    rightTextAt calls x = rightTextAt calls' x := by
  rw [rightTextAt, ← flatMap_filter (fun call => rightAt_eq_nil) calls.reverse,
    List.filter_reverse, h.right x, ← List.filter_reverse,
    flatMap_filter (fun call => rightAt_eq_nil), rightTextAt]

/-- Rearranged calls leave one sheet. -/
theorem ofCalls_eq (h : Rearranged calls calls') : Sheet.ofCalls calls = Sheet.ofCalls calls' := by
  have hkilled : killedAt calls = killedAt calls' := funext fun _ => h.perm.any_eq
  have hremoved : removedAt calls = removedAt calls' := funext fun _ => h.perm.any_eq
  simp only [Sheet.ofCalls, hkilled, hremoved, h.leftTextAt_eq, h.rightTextAt_eq]

end PatchCall.Rearranged

namespace Patch

/-- **The order of edits does not matter.**  Calls on one text that are rearranged, refused ones
and insertions inside removals included, render the same text and cut the text into the same
number of pieces. -/
theorem render_run_eq_of_rearranged (text : String) {calls calls' : List PatchCall}
    (h : PatchCall.Rearranged calls calls') :
    (run text calls).render = (run text calls').render ∧
      (run text calls).pieceCount = (run text calls').pieceCount := by
  have hadmitted := h.filter (·.Admissible text.toList)
  constructor
  · have hsheet : Sheet.run text calls = Sheet.run text calls' := by
      rw [Sheet.run_eq_ofCalls, Sheet.run_eq_ofCalls, hadmitted.ofCalls_eq]
    have hbytes : utf8 (run text calls).render.toList = utf8 (run text calls').render.toList := by
      rw [(shows_run text calls).utf8_render, (shows_run text calls').utf8_render, hsheet]
    exact String.toList_inj.mp (utf8_injective hbytes)
  · rw [pieceCount_run, pieceCount_run]
    congr 2
    exact List.toFinset_eq_of_perm _ _ (hadmitted.perm.flatMap_right _)

/-- Overlapping removals, an insertion strictly inside them, two insertions on one side of one
offset and one inside a character, which is refused. -/
theorem render_run_eq_of_rearranged_overlapping :
    PatchCall.Rearranged
        [.insertRight 4 "y", .remove 1 4, .insertLeft 1 "a", .remove 2 4, .insertLeft 1 "b",
          .insertLeft 3 "x"]
        [.insertLeft 3 "x", .insertLeft 1 "a", .remove 2 4, .insertLeft 1 "b", .remove 1 4,
          .insertRight 4 "y"] ∧
      (run "12é5678" [.insertRight 4 "y", .remove 1 4, .insertLeft 1 "a", .remove 2 4,
          .insertLeft 1 "b", .insertLeft 3 "x"]).render =
        (run "12é5678" [.insertLeft 3 "x", .insertLeft 1 "a", .remove 2 4, .insertLeft 1 "b",
          .remove 1 4, .insertRight 4 "y"]).render := by
  have h : PatchCall.Rearranged
      [.insertRight 4 "y", .remove 1 4, .insertLeft 1 "a", .remove 2 4, .insertLeft 1 "b",
        .insertLeft 3 "x"]
      [.insertLeft 3 "x", .insertLeft 1 "a", .remove 2 4, .insertLeft 1 "b", .remove 1 4,
        .insertRight 4 "y"] := by
    refine ⟨by decide, fun x => ?_, fun x => ?_⟩
    · by_cases h1 : x = 1 <;> by_cases h3 : x = 3 <;> simp [PatchCall.insertsLeftAt, h1, h3]
    · by_cases h4 : x = 4 <;> simp [PatchCall.insertsRightAt, h4]
  exact ⟨h, (render_run_eq_of_rearranged "12é5678" h).1⟩

end Patch

end TemplateMigration
