/-!
# TemplateMigration.Text.LineDiff

The difference of two texts, line by line.  `Hunk.between` finds a shortest script by divide and
conquer: common lines at both ends are kept, and the middle is divided where a search from the
start and a search from the end meet.  `Hunk.settle` then moves each insertion down as far as the
lines around it allow, and `LineChange.ofHunks` puts the deletions of a changed run before its
insertions.
-/

namespace TemplateMigration

/-! ## lines -/

/-- The lines of a text with their ends: a line feed, a carriage return, or both in this order. -/
def splitKeepingEnds : List Char → List (List Char)
  | [] => []
  | '\r' :: '\n' :: cs => ['\r', '\n'] :: splitKeepingEnds cs
  | c :: cs =>
      if c == '\r' || c == '\n' then [c] :: splitKeepingEnds cs
      else
        match splitKeepingEnds cs with
        | [] => [[c]]
        | line :: more => (c :: line) :: more

/-- The lines of a string with their ends. -/
def linesOf (text : String) : List String := (splitKeepingEnds text.toList).map String.ofList

/-- The number of items that two lists have in common at their start. -/
def commonLength {α : Type} [DecidableEq α] : List α → List α → Nat
  | x :: xs, y :: ys => if x = y then commonLength xs ys + 1 else 0
  | _, _ => 0

/-! ## hunks -/

/-- What happens to lines. -/
inductive ChangeKind where
  | keep
  | delete
  | insert
  deriving DecidableEq, Repr

/-- Consecutive lines to which the same happens. -/
structure Hunk where
  kind : ChangeKind
  lines : List String
  deriving DecidableEq, Repr

namespace Hunk

/-- A hunk, left out if it has no lines. -/
def nonempty (kind : ChangeKind) (lines : List String) : List Hunk :=
  if lines.isEmpty then [] else [⟨kind, lines⟩]

/-! ## where two searches meet -/

/-- How far along the old lines a search has come, by diagonal. -/
structure Frontier where
  /-- Where diagonal 0 is kept. -/
  origin : Nat
  reached : Array Nat

namespace Frontier

/-- A frontier for searches of up to `steps` steps. -/
def start (steps : Nat) : Frontier := ⟨steps, Array.replicate (2 * steps + 1) 0⟩

/-- The place reached on a diagonal. -/
def get (f : Frontier) (diagonal : Int) : Nat := f.reached.getD (diagonal + f.origin).toNat 0

/-- Reach a place on a diagonal. -/
def set (f : Frontier) (diagonal : Int) (place : Nat) : Frontier :=
  { f with reached := f.reached.setIfInBounds (diagonal + f.origin).toNat place }

/-- Where a further step starts on a diagonal: after an insertion from the diagonal above, or
after a deletion from the one below, whichever comes further. -/
def next (f : Frontier) (steps : Nat) (diagonal : Int) : Nat :=
  let above := f.get (diagonal + 1)
  let below := f.get (diagonal - 1)
  if diagonal = -steps ∨ (diagonal ≠ steps ∧ below < above) then above else below + 1

end Frontier

/-- The number of lines that agree from two places on. -/
def agreement (old new : Array String) (x y : Nat) : Nat :=
  if _h : x < old.size ∧ y < new.size then
    if old[x] = new[y] then agreement old new (x + 1) (y + 1) + 1 else 0
  else 0
termination_by old.size - x

/-- The diagonals after a number of steps, from the highest down. -/
def diagonals (steps : Nat) : List Int :=
  (List.range (steps + 1)).map fun i => (steps : Int) - 2 * (i : Nat)

/-- One step of a search along all diagonals.  The search stops when `meets` says that it has met
the other one, and then gives where the last agreement starts and how long it is. -/
def advance (old new : Array String) (steps : Nat) (meets : Int → Nat → Bool) (f : Frontier) :
    Except (Nat × Nat × Nat) Frontier :=
  (diagonals steps).foldlM (fun f diagonal =>
    let x := f.next steps diagonal
    let y := ((x : Int) - diagonal).toNat
    let run := agreement old new x y
    if meets diagonal (x + run) then .error (x, y, run) else .ok (f.set diagonal (x + run))) f

/-- Search from both ends, one step at a time, for a place where a shortest script can be
divided. -/
def meet (old new : Array String) : (fuel steps : Nat) → (forward backward : Frontier) →
    Option (Nat × Nat)
  | 0, _, _, _ => none
  | fuel + 1, steps, forward, backward =>
      let delta : Int := (old.size : Int) - new.size
      let isOdd := delta % 2 == 1
      let near (diagonal : Int) (limit : Int) := ((diagonal - delta).natAbs : Int) ≤ limit
      let touches (other : Frontier) (diagonal : Int) (x : Nat) :=
        decide (old.size ≤ x + other.get (delta - diagonal))
      let forwardMeets (diagonal : Int) (x : Nat) :=
        isOdd && near diagonal (steps - 1) && touches backward diagonal x
      match advance old new steps forwardMeets forward with
      | .error (x, y, _) => some (x, y)
      | .ok forward =>
          let backwardMeets (diagonal : Int) (x : Nat) :=
            !isOdd && near diagonal steps && touches forward diagonal x
          match advance old.reverse new.reverse steps backwardMeets backward with
          | .error (x, y, run) => some (old.size - (x + run), new.size - (y + run))
          | .ok backward => meet old new fuel (steps + 1) forward backward

/-- A place where a shortest script can be divided. -/
def middle? (old new : List String) : Option (Nat × Nat) :=
  let limit := (old.length + new.length + 1) / 2 + 1
  meet old.toArray new.toArray limit 0 (.start limit) (.start limit)

/-! ## scripts -/

/-- A shortest script from old lines to new lines. -/
def between (old new : List String) : List Hunk :=
  let before := commonLength old new
  let oldRest := old.drop before
  let newRest := new.drop before
  let after := commonLength oldRest.reverse newRest.reverse
  let oldCore := oldRest.take (oldRest.length - after)
  let newCore := newRest.take (newRest.length - after)
  let replaced := nonempty .delete oldCore ++ nonempty .insert newCore
  let core :=
    if oldCore.isEmpty || newCore.isEmpty then replaced
    else
      match middle? oldCore newCore with
      | none => replaced
      | some (x, y) =>
          if _h : (oldCore.take x).length + (newCore.take y).length < old.length + new.length ∧
              (oldCore.drop x).length + (newCore.drop y).length < old.length + new.length then
            between (oldCore.take x) (newCore.take y) ++ between (oldCore.drop x) (newCore.drop y)
          else replaced
  nonempty .keep (old.take before) ++ core ++ nonempty .keep (oldRest.drop (oldRest.length - after))
termination_by old.length + new.length
decreasing_by
  · exact _h.1
  · exact _h.2

/-! ## settling -/

/-- A hunk and those around it, the nearest first on both sides. -/
structure Spot where
  before : List Hunk
  here : Hunk
  after : List Hunk

/-- A measure of the hunks on one side. -/
def weight : List Hunk → Nat
  | [] => 0
  | h :: hunks => h.lines.length + 1 + weight hunks

theorem weight_nonempty_append_le (kind : ChangeKind) (lines : List String) (hunks : List Hunk) :
    weight (nonempty kind lines ++ hunks) ≤ lines.length + 1 + weight hunks := by
  unfold nonempty
  split <;> simp [weight]

/-- Add kept lines in front of hunks. -/
def consKept (lines : List String) : List Hunk → List Hunk
  | ⟨.keep, more⟩ :: hunks => ⟨.keep, lines ++ more⟩ :: hunks
  | hunks => ⟨.keep, lines⟩ :: hunks

/-- Add kept lines to hunks that are listed backwards. -/
def snocKept (lines : List String) : List Hunk → List Hunk
  | ⟨.keep, more⟩ :: hunks => ⟨.keep, more ++ lines⟩ :: hunks
  | hunks => ⟨.keep, lines⟩ :: hunks

/-- Lines of which some trade places with an insertion next to them. -/
structure Trade where
  /-- The lines that stay where they are. -/
  kept : List String
  /-- The lines that move to the other side of the insertion. -/
  moved : List String
  /-- The insertion afterwards. -/
  inserted : List String

namespace Trade

/-- Trade an insertion with the kept lines before it that equal its last lines. -/
def upward (kept inserted : List String) : Trade :=
  let common := commonLength kept.reverse inserted.reverse
  let moved := kept.drop (kept.length - common)
  ⟨kept.take (kept.length - common), moved, moved ++ inserted.take (inserted.length - common)⟩

/-- Trade an insertion with the kept lines after it that equal its first lines. -/
def downward (kept inserted : List String) : Trade :=
  let common := commonLength kept inserted
  let moved := kept.take common
  ⟨kept.drop common, moved, inserted.drop common ++ moved⟩

end Trade

/-- Move a change up: past changes of the other kind, merging with changes of its own, and, if it is
an insertion, over kept lines that equal its last lines. -/
def raise (before : List Hunk) (here : Hunk) (after : List Hunk) : Spot :=
  match before with
  | [] => ⟨[], here, after⟩
  | prev :: rest =>
      if prev.kind = .keep then
        let trade := Trade.upward prev.lines here.lines
        if _h : here.kind = .insert ∧ trade.kept.length < prev.lines.length then
          raise (nonempty .keep trade.kept ++ rest) ⟨.insert, trade.inserted⟩
            (consKept trade.moved after)
        else ⟨prev :: rest, here, after⟩
      else if prev.kind = here.kind then raise rest ⟨here.kind, prev.lines ++ here.lines⟩ after
      else raise rest here (prev :: after)
termination_by weight before
decreasing_by
  · have := weight_nonempty_append_le .keep (Trade.upward prev.lines here.lines).kept rest
    have : (Trade.upward prev.lines here.lines).kept.length < prev.lines.length := _h.2
    have : weight (prev :: rest) = prev.lines.length + 1 + weight rest := rfl
    omega
  · simp [weight]
  · simp [weight]

/-- Move a change down: past changes of the other kind, merging with changes of its own, and, if it
is an insertion, over kept lines that equal its first lines. -/
def lower (before : List Hunk) (here : Hunk) (after : List Hunk) : Spot :=
  match after with
  | [] => ⟨before, here, []⟩
  | next :: rest =>
      if next.kind = .keep then
        let trade := Trade.downward next.lines here.lines
        if _h : here.kind = .insert ∧ trade.kept.length < next.lines.length then
          lower (snocKept trade.moved before) ⟨.insert, trade.inserted⟩
            (nonempty .keep trade.kept ++ rest)
        else ⟨before, here, next :: rest⟩
      else if next.kind = here.kind then lower before ⟨here.kind, here.lines ++ next.lines⟩ rest
      else lower (next :: before) here rest
termination_by weight after
decreasing_by
  · have := weight_nonempty_append_le .keep (Trade.downward next.lines here.lines).kept rest
    have : (Trade.downward next.lines here.lines).kept.length < next.lines.length := _h.2
    have : weight (next :: rest) = next.lines.length + 1 + weight rest := rfl
    omega
  · simp [weight]
  · simp [weight]

/-- Move each change of a kind up and then down as far as it goes. -/
def settleKind (kind : ChangeKind) : (fuel : Nat) → (before after : List Hunk) → List Hunk
  | fuel + 1, before, here :: after =>
      if here.kind = kind then
        let up := raise before here after
        let down := lower up.before up.here up.after
        settleKind kind fuel (down.here :: down.before) down.after
      else settleKind kind fuel (here :: before) after
  | _, before, after => before.reverse ++ after

/-- Settle deletions, then insertions.  No pass meets more hunks than there are lines. -/
def settle (hunks : List Hunk) : List Hunk :=
  let fuel := weight hunks
  settleKind .insert fuel [] (settleKind .delete fuel [] hunks)

end Hunk

/-! ## changes of lines -/

/-- A line and what happens to it. -/
structure LineChange where
  kind : ChangeKind
  line : String
  deriving DecidableEq, Repr

namespace LineChange

/-- The changes of a run: deletions, then insertions. -/
def run (deleted inserted : List String) : List LineChange :=
  deleted.map (⟨.delete, ·⟩) ++ inserted.map (⟨.insert, ·⟩)

/-- The changes of hunks, after a run of which the lines so far are given. -/
def ofHunks (deleted inserted : List String) : List Hunk → List LineChange
  | [] => run deleted inserted
  | ⟨.keep, lines⟩ :: more =>
      run deleted inserted ++ lines.map (⟨.keep, ·⟩) ++ ofHunks [] [] more
  | ⟨.delete, lines⟩ :: more => ofHunks (deleted ++ lines) inserted more
  | ⟨.insert, lines⟩ :: more => ofHunks deleted (inserted ++ lines) more

/-- The difference of two texts. -/
def between (old new : String) : List LineChange :=
  ofHunks [] [] (Hunk.settle (Hunk.between (linesOf old) (linesOf new)))

end LineChange

end TemplateMigration
