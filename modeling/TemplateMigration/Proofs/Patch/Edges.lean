import Mathlib.Data.List.Nodup
import TemplateMigration.Proofs.Patch.Sheet

/-!
# TemplateMigration.Proofs.Patch.Edges

Where the edges of a chain stand.

A chain has one piece more than it has edges, so the offsets of the edges (`Chain.offsets`) tell
how far the edits have cut the text.  `addEdge` adds the offset it is given and no other
(`mem_offsets_addEdge`); changing an edge and removing a range move none.  In the chains that
patches build no two edges stand at one offset (`nodup_offsets`).
-/

namespace TemplateMigration

@[simp] theorem Piece.size_remove (p : Piece) : p.remove.size = p.size := rfl

namespace Chain

variable {p : Piece} {e : Edge} {rest c : Chain} {m n : Nat}

/-- The offsets at which edges stand, from left to right. -/
def offsets : Chain → List Nat
  | single _ => []
  | join p _ rest => p.size :: rest.offsets.map (p.size + ·)

@[simp] theorem offsets_single (p : Piece) : (single p).offsets = [] := rfl

@[simp] theorem offsets_join (p : Piece) (e : Edge) (rest : Chain) :
    (join p e rest).offsets = p.size :: rest.offsets.map (p.size + ·) := rfl

/-- Every edge has a piece before it, and one piece stands after the last. -/
theorem count_eq_length_offsets (c : Chain) : c.count = c.offsets.length + 1 := by
  induction c with
  | single p => rfl
  | join p e rest ih => simp [count, ih]

theorem mem_offsets_join :
    m ∈ (join p e rest).offsets ↔ m = p.size ∨ p.size ≤ m ∧ m - p.size ∈ rest.offsets := by
  have hshift : m ∈ rest.offsets.map (p.size + ·) ↔ p.size ≤ m ∧ m - p.size ∈ rest.offsets := by
    constructor
    · intro h
      obtain ⟨k, hk, rfl⟩ := List.mem_map.mp h
      simpa using hk
    · rintro ⟨hle, hmem⟩
      exact List.mem_map.mpr ⟨m - p.size, hmem, by omega⟩
  simp [hshift]

/-- No edge of a filled chain stands at its start. -/
theorem pos_of_mem_offsets (hc : c.Filled) (hn : n ∈ c.offsets) : 0 < n := by
  cases c with
  | single p => simp at hn
  | join p e rest =>
      have hpos : 0 < p.size := hc.1
      have hcases := mem_offsets_join.mp hn
      omega

/-- No two edges stand at one offset.  Two could only meet across an empty piece, and pieces
between edges have content. -/
theorem nodup_offsets (hc : c.InnerFilled) : c.offsets.Nodup := by
  induction c with
  | single p => simp
  | join p e rest ih =>
      have hrest : rest.Filled := hc
      have hinner : rest.InnerFilled := innerFilled_of_filled hrest
      have hfirst : p.size ∉ rest.offsets.map (p.size + ·) := by
        simp only [List.mem_map, not_exists, not_and]
        intro k hk hsum
        have hpos := pos_of_mem_offsets hrest hk
        omega
      exact List.nodup_cons.mpr ⟨hfirst, (ih hinner).map (fun a b h => Nat.add_left_cancel h)⟩

/-- `addEdge` adds the offset it is given, unless an edge stands there. -/
theorem mem_offsets_addEdge (hb : IsBoundary c.source n) :
    m ∈ (c.addEdge n).offsets ↔ m = n ∨ m ∈ c.offsets := by
  induction c generalizing m n with
  | single p =>
      have hfst := Piece.size_cut_fst hb
      simp [addEdge, hfst]
  | join p e rest ih =>
      obtain hlt | heq | hgt := Nat.lt_trichotomy n p.size
      · have hfst := Piece.size_cut_fst (isBoundary_head hb hlt)
        have hsnd := Piece.size_cut_snd (isBoundary_head hb hlt)
        have hoff : m - n - (p.size - n) = m - p.size := by omega
        rw [addEdge_join_of_lt hlt]
        simp only [mem_offsets_join, hfst, hsnd, hoff]
        grind
      · rw [addEdge_join_of_eq heq, mem_offsets_join]
        grind
      · have hrest := isBoundary_rest hb hgt
        rw [addEdge_join_of_gt hgt]
        simp only [mem_offsets_join, ih hrest]
        grind

@[simp] theorem offsets_updateEdge (f : Edge → Edge) (n : Nat) (c : Chain) :
    (c.updateEdge f n).offsets = c.offsets := by
  induction c generalizing n with
  | single p => rfl
  | join p e rest ih =>
      rw [updateEdge]
      split
      · rfl
      · split
        · rfl
        · simp [ih]

@[simp] theorem offsets_removeUpTo (n : Nat) (c : Chain) :
    (c.removeUpTo n).offsets = c.offsets := by
  induction c generalizing n with
  | single p => rfl
  | join p e rest ih =>
      rw [removeUpTo]
      split
      · simp
      · simp [ih]

@[simp] theorem offsets_removeFrom (n length : Nat) (c : Chain) :
    (c.removeFrom n length).offsets = c.offsets := by
  induction c generalizing n with
  | single p => rfl
  | join p e rest ih =>
      rw [removeFrom]
      split
      · rfl
      · split
        · simp
        · simp [ih]

end Chain

end TemplateMigration
