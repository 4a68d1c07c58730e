import TemplateMigration.Patch
import TemplateMigration.Proofs.Text.Boundary

/-!
# TemplateMigration.Proofs.Patch.Chain

What the operations on chains do to what stands at each offset.

A chain only holds the edges that edits have named.  `Chain.edgeAt` gives every offset an edge:
the one that stands there, or the one that a cut would make.  Seen this way `addEdge` changes
nothing, `updateEdge` changes one edge and `removeFrom` kills the edges strictly inside a range
(`edgeAt_addEdge`, `edgeAt_updateEdge`, `edgeAt_removeFrom`); `Chain.removedAt` is the same view
of the bytes.

The view is right for the chains that patches build (`Chain.Proper`): their two ends are kept, and
only a piece at an end can be empty.
-/

namespace TemplateMigration

/-! ## Pieces -/

namespace Piece

variable {p : Piece} {n : Nat}

@[simp] theorem removed_cut_fst (p : Piece) (n : Nat) : (p.cut n).1.removed = p.removed := by
  unfold cut
  split <;> rfl

@[simp] theorem removed_cut_snd (p : Piece) (n : Nat) : (p.cut n).2.removed = p.removed := by
  unfold cut
  split <;> rfl

/-- A cut at a boundary divides the content. -/
theorem content_cut (h : IsBoundary p.content n) :
    (p.cut n).1.content ++ (p.cut n).2.content = p.content := by
  obtain ⟨before, after, hcontent, hn⟩ := h
  have hcut : cut? n p.content = some (before, after) := cut?_eq_some_iff.mpr ⟨hcontent, hn⟩
  simp only [cut, hcut]
  exact hcontent.symm

/-- A cut at a boundary takes as many bytes as it says. -/
theorem size_cut_fst (h : IsBoundary p.content n) : (p.cut n).1.size = n := by
  obtain ⟨before, after, hcontent, hn⟩ := h
  have hcut : cut? n p.content = some (before, after) := cut?_eq_some_iff.mpr ⟨hcontent, hn⟩
  simp only [cut, hcut, size, hn]

/-- What a cut at a boundary leaves. -/
theorem size_cut_snd (h : IsBoundary p.content n) : (p.cut n).2.size = p.size - n := by
  have hfst : byteCount (p.cut n).1.content = n := size_cut_fst h
  rw [size, size, ← content_cut h, byteCount_append, hfst]
  omega

end Piece

namespace Edge

@[simp] theorem fresh_cut_fst (p : Piece) (n : Nat) : fresh (p.cut n).1 = fresh p := by
  rw [fresh, fresh, Piece.removed_cut_fst]

@[simp] theorem fresh_cut_snd (p : Piece) (n : Nat) : fresh (p.cut n).2 = fresh p := by
  rw [fresh, fresh, Piece.removed_cut_snd]

/-- A cut through a kept piece makes an edge without text. -/
theorem fresh_of_kept {p : Piece} (h : p.removed = false) : fresh p = .live [] [] := by
  simp [fresh, h]

/-- A cut inserts nothing. -/
@[simp] theorem render_fresh (p : Piece) : (fresh p).render = [] := by
  unfold fresh
  split <;> rfl

end Edge

namespace Chain

variable {p : Piece} {e : Edge} {rest c : Chain} {m n x : Nat}

/-! ## The two views -/

/-- The edge at an offset; where none stands, the one that a cut would make there. -/
def edgeAt : Chain → Nat → Edge
  | single p, x => if x = 0 ∨ p.size ≤ x then .live [] [] else .fresh p
  | join p e rest, x =>
      if x < p.size then (if x = 0 then .live [] [] else .fresh p)
      else if x = p.size then e
      else rest.edgeAt (x - p.size)

/-- Whether the byte at an offset is removed. -/
def removedAt : Chain → Nat → Bool
  | single p, x => decide (x < p.size) && p.removed
  | join p _ rest, x => if x < p.size then p.removed else rest.removedAt (x - p.size)

theorem edgeAt_join_of_lt (hx : x < p.size) :
    (join p e rest).edgeAt x = if x = 0 then .live [] [] else .fresh p := by
  rw [edgeAt, if_pos hx]

theorem edgeAt_join_of_eq (hx : x = p.size) : (join p e rest).edgeAt x = e := by
  rw [edgeAt, if_neg (by omega), if_pos hx]

theorem edgeAt_join_of_gt (hx : p.size < x) :
    (join p e rest).edgeAt x = rest.edgeAt (x - p.size) := by
  rw [edgeAt, if_neg (by omega), if_neg (by omega)]

theorem removedAt_join_of_lt (hx : x < p.size) : (join p e rest).removedAt x = p.removed := by
  rw [removedAt, if_pos hx]

theorem removedAt_join_of_ge (hx : p.size ≤ x) :
    (join p e rest).removedAt x = rest.removedAt (x - p.size) := by
  rw [removedAt, if_neg (by omega)]

/-- No edge stands inside the first piece. -/
theorem size_le_of_isSome_edge? (hn : ((join p e rest).edge? n).isSome) : p.size ≤ n := by
  apply Nat.le_of_not_lt
  intro hlt
  simp [edge?, hlt] at hn

theorem edge?_join_of_eq (hn : n = p.size) : (join p e rest).edge? n = some e := by
  rw [edge?, if_neg (by omega), if_pos hn]

theorem edge?_join_of_gt (hn : p.size < n) :
    (join p e rest).edge? n = rest.edge? (n - p.size) := by
  rw [edge?, if_neg (by omega), if_neg (by omega)]

/-- An edge that stands at an offset is the edge there. -/
theorem edgeAt_of_edge? (h : c.edge? n = some e) : c.edgeAt n = e := by
  induction c generalizing n with
  | single p => simp [edge?] at h
  | join p e' rest ih =>
      have hle : p.size ≤ n := size_le_of_isSome_edge? (by rw [h]; rfl)
      obtain heq | hlt := Nat.eq_or_lt_of_le hle
      · rw [edge?_join_of_eq heq.symm] at h
        rw [edgeAt_join_of_eq heq.symm]
        exact Option.some.inj h
      · rw [edge?_join_of_gt hlt] at h
        rw [edgeAt_join_of_gt hlt]
        exact ih h

/-! ## Proper chains -/

/-- The first piece. -/
def head : Chain → Piece
  | single p => p
  | join p _ _ => p

/-- The last piece. -/
def last : Chain → Piece
  | single p => p
  | join _ _ rest => rest.last

/-- Every piece but the last has content. -/
def Filled : Chain → Prop
  | single _ => True
  | join p _ rest => 0 < p.size ∧ rest.Filled

/-- The chain after the first edge is filled: only its two end pieces can be empty. -/
def InnerFilled : Chain → Prop
  | single _ => True
  | join _ _ rest => rest.Filled

/-- The chains that patches build: both ends are kept, and every piece between them has
content. -/
structure Proper (c : Chain) : Prop where
  head_kept : c.head.removed = false
  last_kept : c.last.removed = false
  filled : c.InnerFilled

/-! ## Adding an edge -/

/-- An edge inside the first piece cuts it in two. -/
theorem addEdge_join_of_lt (hn : n < p.size) :
    (join p e rest).addEdge n = join (p.cut n).1 (.fresh p) (join (p.cut n).2 e rest) := by
  rw [addEdge, if_pos hn]

/-- An edge that stands is not added again. -/
theorem addEdge_join_of_eq (hn : n = p.size) : (join p e rest).addEdge n = join p e rest := by
  rw [addEdge, if_neg (by omega), if_pos hn]

/-- An edge behind the first piece is added to the rest. -/
theorem addEdge_join_of_gt (hn : p.size < n) :
    (join p e rest).addEdge n = join p e (rest.addEdge (n - p.size)) := by
  rw [addEdge, if_neg (by omega), if_neg (by omega)]

/-- Up to the end of the first piece, the boundaries of a chain are those of the piece. -/
theorem isBoundary_head (hb : IsBoundary (join p e rest).source n) (hn : n < p.size) :
    IsBoundary p.content n :=
  (isBoundary_append_of_le (Nat.le_of_lt hn)).mp hb

/-- Past the first piece, the boundaries of a chain are those of its rest. -/
theorem isBoundary_rest (hb : IsBoundary (join p e rest).source n) (hn : p.size < n) :
    IsBoundary rest.source (n - p.size) :=
  (isBoundary_append_of_ge (Nat.le_of_lt hn)).mp hb

/-- A cut does not change the text. -/
theorem source_addEdge (hb : IsBoundary c.source n) : (c.addEdge n).source = c.source := by
  induction c generalizing n with
  | single p =>
      rw [addEdge, source, source, source]
      exact Piece.content_cut hb
  | join p e rest ih =>
      obtain hlt | heq | hgt := Nat.lt_trichotomy n p.size
      · rw [addEdge_join_of_lt hlt, source, source, source, ← List.append_assoc,
          Piece.content_cut (isBoundary_head hb hlt)]
      · rw [addEdge_join_of_eq heq]
      · rw [addEdge_join_of_gt hgt, source, ih (isBoundary_rest hb hgt), source]

/-- After `addEdge` an edge stands at the offset. -/
theorem isSome_edge?_addEdge_self (hb : IsBoundary c.source n) :
    ((c.addEdge n).edge? n).isSome := by
  induction c generalizing n with
  | single p =>
      rw [addEdge, edge?_join_of_eq (Piece.size_cut_fst hb).symm]
      rfl
  | join p e rest ih =>
      obtain hlt | heq | hgt := Nat.lt_trichotomy n p.size
      · rw [addEdge_join_of_lt hlt,
          edge?_join_of_eq (Piece.size_cut_fst (isBoundary_head hb hlt)).symm]
        rfl
      · rw [addEdge_join_of_eq heq, edge?_join_of_eq heq]
        rfl
      · rw [addEdge_join_of_gt hgt, edge?_join_of_gt hgt]
        exact ih (isBoundary_rest hb hgt)

/-- `addEdge` keeps the edges that stand already. -/
theorem isSome_edge?_addEdge (hb : IsBoundary c.source n) (hm : (c.edge? m).isSome) :
    ((c.addEdge n).edge? m).isSome := by
  induction c generalizing m n with
  | single p => simp [edge?] at hm
  | join p e rest ih =>
      have hle : p.size ≤ m := size_le_of_isSome_edge? hm
      obtain hlt | heq | hgt := Nat.lt_trichotomy n p.size
      · have hfst := Piece.size_cut_fst (isBoundary_head hb hlt)
        have hsnd := Piece.size_cut_snd (isBoundary_head hb hlt)
        rw [addEdge_join_of_lt hlt, edge?_join_of_gt (by omega), hfst]
        obtain hmp | hmp := Nat.eq_or_lt_of_le hle
        · rw [edge?_join_of_eq (by omega)]
          rfl
        · rw [edge?_join_of_gt hmp] at hm
          rw [edge?_join_of_gt (by omega), hsnd]
          have hoff : m - n - (p.size - n) = m - p.size := by omega
          rwa [hoff]
      · rwa [addEdge_join_of_eq heq]
      · rw [addEdge_join_of_gt hgt]
        obtain hmp | hmp := Nat.eq_or_lt_of_le hle
        · rw [edge?_join_of_eq hmp.symm]
          rfl
        · rw [edge?_join_of_gt hmp] at hm ⊢
          exact ih (isBoundary_rest hb hgt) hm

/-- Where no edge stood before, `addEdge` puts the one that the view shows already.  At the start
of the chain this needs a kept first piece, at its end a kept last one. -/
theorem edgeAt_addEdge (hb : IsBoundary c.source n) (hhead : n = 0 → c.head.removed = false)
    (hlast : c.last.removed = false) (x : Nat) : (c.addEdge n).edgeAt x = c.edgeAt x := by
  induction c generalizing n x with
  | single p =>
      have hfresh : Edge.fresh p = .live [] [] := Edge.fresh_of_kept hlast
      simp only [addEdge, edgeAt, Edge.fresh_cut_fst, Edge.fresh_cut_snd, hfresh, ite_self]
  | join p e rest ih =>
      obtain hlt | heq | hgt := Nat.lt_trichotomy n p.size
      · have hfst := Piece.size_cut_fst (isBoundary_head hb hlt)
        have hsnd := Piece.size_cut_snd (isBoundary_head hb hlt)
        rw [addEdge_join_of_lt hlt]
        obtain hx | hx | hx := Nat.lt_trichotomy x n
        · rw [edgeAt_join_of_lt (by omega), edgeAt_join_of_lt (by omega), Edge.fresh_cut_fst]
        · rw [edgeAt_join_of_eq (by omega), edgeAt_join_of_lt (by omega)]
          by_cases hx0 : x = 0
          · rw [if_pos hx0]
            exact Edge.fresh_of_kept (hhead (by omega))
          · rw [if_neg hx0]
        · rw [edgeAt_join_of_gt (by omega), hfst]
          obtain hxp | hxp | hxp := Nat.lt_trichotomy x p.size
          · rw [edgeAt_join_of_lt (by omega), edgeAt_join_of_lt hxp, if_neg (by omega),
              if_neg (by omega), Edge.fresh_cut_snd]
          · rw [edgeAt_join_of_eq (by omega), edgeAt_join_of_eq hxp]
          · rw [edgeAt_join_of_gt (by omega), edgeAt_join_of_gt hxp, hsnd]
            congr 1
            omega
      · rw [addEdge_join_of_eq heq]
      · rw [addEdge_join_of_gt hgt, edgeAt, edgeAt]
        have hpos : n - p.size = 0 → rest.head.removed = false := by
          intro h
          omega
        rw [ih (isBoundary_rest hb hgt) hpos hlast]

/-- `addEdge` removes nothing. -/
theorem removedAt_addEdge (hb : IsBoundary c.source n) (x : Nat) :
    (c.addEdge n).removedAt x = c.removedAt x := by
  induction c generalizing n x with
  | single p =>
      have hfst := Piece.size_cut_fst hb
      have hsnd := Piece.size_cut_snd hb
      rw [addEdge]
      by_cases hx : x < n
      · have hn : n ≤ p.size := hb.le
        rw [removedAt_join_of_lt (by omega), removedAt, Piece.removed_cut_fst,
          decide_eq_true (show x < p.size by omega), Bool.true_and]
      · rw [removedAt_join_of_ge (by omega), removedAt, removedAt, Piece.removed_cut_snd, hfst,
          hsnd]
        congr 1
        exact decide_eq_decide.mpr (by omega)
  | join p e rest ih =>
      obtain hlt | heq | hgt := Nat.lt_trichotomy n p.size
      · have hfst := Piece.size_cut_fst (isBoundary_head hb hlt)
        have hsnd := Piece.size_cut_snd (isBoundary_head hb hlt)
        rw [addEdge_join_of_lt hlt]
        by_cases hx : x < n
        · rw [removedAt_join_of_lt (by omega), removedAt_join_of_lt (by omega),
            Piece.removed_cut_fst]
        · rw [removedAt_join_of_ge (by omega), hfst]
          by_cases hxp : x < p.size
          · rw [removedAt_join_of_lt (by omega), removedAt_join_of_lt hxp, Piece.removed_cut_snd]
          · rw [removedAt_join_of_ge (by omega), removedAt_join_of_ge (by omega), hsnd]
            congr 1
            omega
      · rw [addEdge_join_of_eq heq]
      · rw [addEdge_join_of_gt hgt, removedAt, removedAt, ih (isBoundary_rest hb hgt)]

/-- A cut does not remove the start. -/
theorem removed_head_addEdge (c : Chain) (n : Nat) :
    (c.addEdge n).head.removed = c.head.removed := by
  cases c with
  | single p => exact Piece.removed_cut_fst p n
  | join p e rest =>
      rw [addEdge]
      split
      · exact Piece.removed_cut_fst p n
      · split <;> rfl

/-- A cut does not remove the end. -/
theorem removed_last_addEdge (c : Chain) (n : Nat) :
    (c.addEdge n).last.removed = c.last.removed := by
  induction c generalizing n with
  | single p => exact Piece.removed_cut_snd p n
  | join p e rest ih =>
      rw [addEdge]
      split
      · rfl
      · split
        · rfl
        · exact ih _

/-- Past the start, `addEdge` makes no empty piece but the last. -/
theorem filled_addEdge (hb : IsBoundary c.source n) (hn : 0 < n) (hc : c.Filled) :
    (c.addEdge n).Filled := by
  induction c generalizing n with
  | single p =>
      rw [addEdge]
      exact ⟨by rw [Piece.size_cut_fst hb]; exact hn, trivial⟩
  | join p e rest ih =>
      obtain hlt | heq | hgt := Nat.lt_trichotomy n p.size
      · have hpiece := isBoundary_head hb hlt
        rw [addEdge_join_of_lt hlt]
        exact ⟨by rw [Piece.size_cut_fst hpiece]; exact hn,
          by rw [Piece.size_cut_snd hpiece]; omega, hc.2⟩
      · rwa [addEdge_join_of_eq heq]
      · rw [addEdge_join_of_gt hgt]
        exact ⟨hc.1, ih (isBoundary_rest hb hgt) (by omega) hc.2⟩

/-- Cuts at boundaries keep a chain proper. -/
theorem proper_addEdge (hb : IsBoundary c.source n) (hc : c.Proper) : (c.addEdge n).Proper := by
  refine ⟨by rw [removed_head_addEdge, hc.head_kept],
    by rw [removed_last_addEdge, hc.last_kept], ?_⟩
  cases c with
  | single p => trivial
  | join p e rest =>
      have hrest : rest.Filled := hc.filled
      obtain hlt | heq | hgt := Nat.lt_trichotomy n p.size
      · rw [addEdge_join_of_lt hlt]
        exact ⟨by rw [Piece.size_cut_snd (isBoundary_head hb hlt)]; omega, hrest⟩
      · rwa [addEdge_join_of_eq heq]
      · rw [addEdge_join_of_gt hgt]
        exact filled_addEdge (isBoundary_rest hb hgt) (by omega) hrest

/-! ## Changing an edge -/

theorem updateEdge_join_of_eq (f : Edge → Edge) (hn : n = p.size) :
    (join p e rest).updateEdge f n = join p (f e) rest := by
  rw [updateEdge, if_neg (by omega), if_pos hn]

theorem updateEdge_join_of_gt (f : Edge → Edge) (hn : p.size < n) :
    (join p e rest).updateEdge f n = join p e (rest.updateEdge f (n - p.size)) := by
  rw [updateEdge, if_neg (by omega), if_neg (by omega)]

@[simp] theorem source_updateEdge (f : Edge → Edge) (n : Nat) (c : Chain) :
    (c.updateEdge f n).source = c.source := by
  induction c generalizing n with
  | single p => rfl
  | join p e rest ih =>
      rw [updateEdge]
      split
      · rfl
      · split
        · rfl
        · rw [source, ih, source]

@[simp] theorem removedAt_updateEdge (f : Edge → Edge) (n : Nat) (c : Chain) (x : Nat) :
    (c.updateEdge f n).removedAt x = c.removedAt x := by
  induction c generalizing n x with
  | single p => rfl
  | join p e rest ih =>
      rw [updateEdge]
      split
      · rfl
      · split
        · rfl
        · rw [removedAt, removedAt, ih]

/-- Changing an edge that stands changes it and no other. -/
theorem edgeAt_updateEdge (hn : (c.edge? n).isSome) (f : Edge → Edge) (x : Nat) :
    (c.updateEdge f n).edgeAt x = if x = n then f (c.edgeAt x) else c.edgeAt x := by
  induction c generalizing n x with
  | single p => simp [edge?] at hn
  | join p e rest ih =>
      have hle : p.size ≤ n := size_le_of_isSome_edge? hn
      obtain heq | hgt := Nat.eq_or_lt_of_le hle
      · rw [updateEdge_join_of_eq f heq.symm]
        obtain hx | hx | hx := Nat.lt_trichotomy x p.size
        · rw [edgeAt_join_of_lt hx, edgeAt_join_of_lt hx, if_neg (show ¬ x = n by omega)]
        · rw [edgeAt_join_of_eq hx, edgeAt_join_of_eq hx, if_pos (by omega)]
        · rw [edgeAt_join_of_gt hx, edgeAt_join_of_gt hx, if_neg (by omega)]
      · rw [edge?_join_of_gt hgt] at hn
        rw [updateEdge_join_of_gt f hgt]
        obtain hx | hx | hx := Nat.lt_trichotomy x p.size
        · rw [edgeAt_join_of_lt hx, edgeAt_join_of_lt hx, if_neg (show ¬ x = n by omega)]
        · rw [edgeAt_join_of_eq hx, edgeAt_join_of_eq hx, if_neg (by omega)]
        · rw [edgeAt_join_of_gt hx, edgeAt_join_of_gt hx, ih hn]
          have hiff : x - p.size = n - p.size ↔ x = n := by omega
          simp only [hiff]

@[simp] theorem head_updateEdge (f : Edge → Edge) (n : Nat) (c : Chain) :
    (c.updateEdge f n).head = c.head := by
  cases c with
  | single p => rfl
  | join p e rest =>
      rw [updateEdge]
      split
      · rfl
      · split <;> rfl

@[simp] theorem last_updateEdge (f : Edge → Edge) (n : Nat) (c : Chain) :
    (c.updateEdge f n).last = c.last := by
  induction c generalizing n with
  | single p => rfl
  | join p e rest ih =>
      rw [updateEdge]
      split
      · rfl
      · split
        · rfl
        · rw [last, ih, last]

/-- Text that is inserted empties no piece. -/
theorem filled_updateEdge (f : Edge → Edge) (n : Nat) (hc : c.Filled) :
    (c.updateEdge f n).Filled := by
  induction c generalizing n with
  | single p => trivial
  | join p e rest ih =>
      rw [updateEdge]
      split
      · exact hc
      · split
        · exact hc
        · exact ⟨hc.1, ih _ hc.2⟩

/-- Insertions keep a chain proper. -/
theorem proper_updateEdge (f : Edge → Edge) (n : Nat) (hc : c.Proper) :
    (c.updateEdge f n).Proper := by
  refine ⟨by rw [head_updateEdge, hc.head_kept], by rw [last_updateEdge, hc.last_kept], ?_⟩
  cases c with
  | single p => trivial
  | join p e rest =>
      have hrest : rest.Filled := hc.filled
      rw [updateEdge]
      split
      · exact hrest
      · split
        · exact hrest
        · exact filled_updateEdge f _ hrest

/-! ## Removing a range

`removeUpTo` starts at the beginning of a chain, `removeFrom` at one of its edges.  Both need an
edge at the end of the range: it is what stops them before the last piece. -/

theorem removeUpTo_join_of_eq (hn : n = p.size) :
    (join p e rest).removeUpTo n = join p.remove e rest := by
  rw [removeUpTo, if_pos (by omega)]

theorem removeUpTo_join_of_gt (hn : p.size < n) :
    (join p e rest).removeUpTo n = join p.remove .dead (rest.removeUpTo (n - p.size)) := by
  rw [removeUpTo, if_neg (by omega)]

@[simp] theorem source_removeUpTo (n : Nat) (c : Chain) : (c.removeUpTo n).source = c.source := by
  induction c generalizing n with
  | single p => rfl
  | join p e rest ih =>
      rw [removeUpTo]
      split
      · rfl
      · rw [source, ih, source]
        rfl

/-- The edges strictly inside the removed range are dead, and the others are as they were. -/
theorem edgeAt_removeUpTo (hn : (c.edge? n).isSome) (hx : 0 < x) :
    (c.removeUpTo n).edgeAt x = if x < n then .dead else c.edgeAt x := by
  induction c generalizing n x with
  | single p => simp [edge?] at hn
  | join p e rest ih =>
      have hle : p.size ≤ n := size_le_of_isSome_edge? hn
      have hsize : p.remove.size = p.size := rfl
      obtain heq | hgt := Nat.eq_or_lt_of_le hle
      · rw [removeUpTo_join_of_eq heq.symm]
        obtain hxp | hxp | hxp := Nat.lt_trichotomy x p.size
        · rw [edgeAt_join_of_lt (by omega), if_neg (by omega), if_pos (by omega)]
          rfl
        · rw [edgeAt_join_of_eq (by omega), edgeAt_join_of_eq hxp, if_neg (by omega)]
        · rw [edgeAt_join_of_gt (by omega), edgeAt_join_of_gt hxp, if_neg (by omega), hsize]
      · rw [edge?_join_of_gt hgt] at hn
        rw [removeUpTo_join_of_gt hgt]
        obtain hxp | hxp | hxp := Nat.lt_trichotomy x p.size
        · rw [edgeAt_join_of_lt (by omega), if_neg (by omega), if_pos (by omega)]
          rfl
        · rw [edgeAt_join_of_eq (by omega), if_pos (by omega)]
        · rw [edgeAt_join_of_gt (by omega), edgeAt_join_of_gt hxp, hsize, ih hn (by omega)]
          have hiff : x - p.size < n - p.size ↔ x < n := by omega
          simp only [hiff]

/-- What is removed afterwards: what is in the range, and what was removed before. -/
theorem removedAt_removeUpTo (hn : (c.edge? n).isSome) (x : Nat) :
    (c.removeUpTo n).removedAt x = (decide (x < n) || c.removedAt x) := by
  induction c generalizing n x with
  | single p => simp [edge?] at hn
  | join p e rest ih =>
      have hle : p.size ≤ n := size_le_of_isSome_edge? hn
      have hsize : p.remove.size = p.size := rfl
      obtain heq | hgt := Nat.eq_or_lt_of_le hle
      · rw [removeUpTo_join_of_eq heq.symm]
        by_cases hxp : x < p.size
        · rw [removedAt_join_of_lt (by omega), decide_eq_true (show x < n by omega)]
          rfl
        · rw [removedAt_join_of_ge (by omega), removedAt_join_of_ge (by omega), hsize,
            decide_eq_false (show ¬ x < n by omega), Bool.false_or]
      · rw [edge?_join_of_gt hgt] at hn
        rw [removeUpTo_join_of_gt hgt]
        by_cases hxp : x < p.size
        · rw [removedAt_join_of_lt (by omega), decide_eq_true (show x < n by omega)]
          rfl
        · rw [removedAt_join_of_ge (by omega), removedAt_join_of_ge (by omega), hsize, ih hn]
          congr 1
          exact decide_eq_decide.mpr (by omega)

/-- The piece behind the removed range is as it was. -/
theorem last_removeUpTo (hn : (c.edge? n).isSome) : (c.removeUpTo n).last = c.last := by
  induction c generalizing n with
  | single p => simp [edge?] at hn
  | join p e rest ih =>
      have hle : p.size ≤ n := size_le_of_isSome_edge? hn
      obtain heq | hgt := Nat.eq_or_lt_of_le hle
      · rw [removeUpTo_join_of_eq heq.symm]
        rfl
      · rw [edge?_join_of_gt hgt] at hn
        rw [removeUpTo_join_of_gt hgt, last, ih hn, last]

/-- A removal empties no piece of its bytes. -/
theorem filled_removeUpTo (n : Nat) (hc : c.Filled) : (c.removeUpTo n).Filled := by
  induction c generalizing n with
  | single p => trivial
  | join p e rest ih =>
      rw [removeUpTo]
      split
      · exact hc
      · exact ⟨hc.1, ih _ hc.2⟩

theorem removeFrom_join_of_eq (hn : n = p.size) (length : Nat) :
    (join p e rest).removeFrom n length = join p e (rest.removeUpTo length) := by
  rw [removeFrom, if_neg (by omega), if_pos hn]

theorem removeFrom_join_of_gt (hn : p.size < n) (length : Nat) :
    (join p e rest).removeFrom n length = join p e (rest.removeFrom (n - p.size) length) := by
  rw [removeFrom, if_neg (by omega), if_neg (by omega)]

@[simp] theorem source_removeFrom (n length : Nat) (c : Chain) :
    (c.removeFrom n length).source = c.source := by
  induction c generalizing n with
  | single p => rfl
  | join p e rest ih =>
      rw [removeFrom]
      split
      · rfl
      · split
        · rw [source, source_removeUpTo, source]
        · rw [source, ih, source]

/-- The edge at the end of a range that starts after the first piece stands in the rest. -/
theorem isSome_edge?_rest {length : Nat} (hstop : ((join p e rest).edge? (n + length)).isSome)
    (hn : p.size ≤ n) (hlength : 0 < length) :
    (rest.edge? (n - p.size + length)).isSome := by
  rw [edge?_join_of_gt (by omega)] at hstop
  have hoff : n + length - p.size = n - p.size + length := by omega
  rwa [hoff] at hstop

/-- A removal kills the edges strictly inside its range and leaves all others alone. -/
theorem edgeAt_removeFrom {length : Nat} (hlength : 0 < length) (hstart : (c.edge? n).isSome)
    (hstop : (c.edge? (n + length)).isSome) (x : Nat) :
    (c.removeFrom n length).edgeAt x =
      if n < x ∧ x < n + length then .dead else c.edgeAt x := by
  induction c generalizing n x with
  | single p => simp [edge?] at hstart
  | join p e rest ih =>
      have hle : p.size ≤ n := size_le_of_isSome_edge? hstart
      have hrest := isSome_edge?_rest hstop hle hlength
      obtain heq | hgt := Nat.eq_or_lt_of_le hle
      · have hzero : n - p.size + length = length := by omega
        rw [hzero] at hrest
        rw [removeFrom_join_of_eq heq.symm]
        obtain hx | hx | hx := Nat.lt_trichotomy x p.size
        · rw [edgeAt_join_of_lt hx, edgeAt_join_of_lt hx, if_neg (by omega : ¬ (n < x ∧ _))]
        · rw [edgeAt_join_of_eq hx, edgeAt_join_of_eq hx, if_neg (by omega)]
        · rw [edgeAt_join_of_gt hx, edgeAt_join_of_gt hx, edgeAt_removeUpTo hrest (by omega)]
          have hiff : x - p.size < length ↔ n < x ∧ x < n + length := by omega
          simp only [hiff]
      · rw [edge?_join_of_gt hgt] at hstart
        rw [removeFrom_join_of_gt hgt]
        obtain hx | hx | hx := Nat.lt_trichotomy x p.size
        · rw [edgeAt_join_of_lt hx, edgeAt_join_of_lt hx, if_neg (by omega : ¬ (n < x ∧ _))]
        · rw [edgeAt_join_of_eq hx, edgeAt_join_of_eq hx, if_neg (by omega)]
        · rw [edgeAt_join_of_gt hx, edgeAt_join_of_gt hx, ih hstart hrest]
          have hiff : n - p.size < x - p.size ∧ x - p.size < n - p.size + length ↔
              n < x ∧ x < n + length := by omega
          simp only [hiff]

/-- A removal removes the bytes of its range. -/
theorem removedAt_removeFrom {length : Nat} (hlength : 0 < length) (hstart : (c.edge? n).isSome)
    (hstop : (c.edge? (n + length)).isSome) (x : Nat) :
    (c.removeFrom n length).removedAt x =
      (decide (n ≤ x ∧ x < n + length) || c.removedAt x) := by
  induction c generalizing n x with
  | single p => simp [edge?] at hstart
  | join p e rest ih =>
      have hle : p.size ≤ n := size_le_of_isSome_edge? hstart
      have hrest := isSome_edge?_rest hstop hle hlength
      obtain heq | hgt := Nat.eq_or_lt_of_le hle
      · have hzero : n - p.size + length = length := by omega
        rw [hzero] at hrest
        rw [removeFrom_join_of_eq heq.symm]
        by_cases hx : x < p.size
        · rw [removedAt_join_of_lt hx, removedAt_join_of_lt hx,
            decide_eq_false (by omega : ¬ (n ≤ x ∧ _)), Bool.false_or]
        · rw [removedAt_join_of_ge (by omega), removedAt_join_of_ge (by omega),
            removedAt_removeUpTo hrest]
          congr 1
          exact decide_eq_decide.mpr (by omega)
      · rw [edge?_join_of_gt hgt] at hstart
        rw [removeFrom_join_of_gt hgt]
        by_cases hx : x < p.size
        · rw [removedAt_join_of_lt hx, removedAt_join_of_lt hx,
            decide_eq_false (by omega : ¬ (n ≤ x ∧ _)), Bool.false_or]
        · rw [removedAt_join_of_ge (by omega), removedAt_join_of_ge (by omega),
            ih hstart hrest]
          congr 1
          exact decide_eq_decide.mpr (by omega)

@[simp] theorem head_removeFrom (n length : Nat) (c : Chain) :
    (c.removeFrom n length).head = c.head := by
  cases c with
  | single p => rfl
  | join p e rest =>
      rw [removeFrom]
      split
      · rfl
      · split <;> rfl

/-- A removal between two edges does not reach the last piece. -/
theorem last_removeFrom {length : Nat} (hlength : 0 < length) (hstart : (c.edge? n).isSome)
    (hstop : (c.edge? (n + length)).isSome) : (c.removeFrom n length).last = c.last := by
  induction c generalizing n with
  | single p => rfl
  | join p e rest ih =>
      have hle : p.size ≤ n := size_le_of_isSome_edge? hstart
      have hrest := isSome_edge?_rest hstop hle hlength
      obtain heq | hgt := Nat.eq_or_lt_of_le hle
      · have hzero : n - p.size + length = length := by omega
        rw [hzero] at hrest
        rw [removeFrom_join_of_eq heq.symm, last, last_removeUpTo hrest, last]
      · rw [edge?_join_of_gt hgt] at hstart
        rw [removeFrom_join_of_gt hgt, last, ih hstart hrest, last]

theorem filled_removeFrom (n length : Nat) (hc : c.Filled) : (c.removeFrom n length).Filled := by
  induction c generalizing n with
  | single p => trivial
  | join p e rest ih =>
      rw [removeFrom]
      split
      · exact hc
      · split
        · exact ⟨hc.1, filled_removeUpTo _ hc.2⟩
        · exact ⟨hc.1, ih _ hc.2⟩

/-- Removals between two edges keep a chain proper. -/
theorem proper_removeFrom {length : Nat} (hlength : 0 < length) (hstart : (c.edge? n).isSome)
    (hstop : (c.edge? (n + length)).isSome) (hc : c.Proper) : (c.removeFrom n length).Proper := by
  refine ⟨by rw [head_removeFrom, hc.head_kept],
    by rw [last_removeFrom hlength hstart hstop, hc.last_kept], ?_⟩
  cases c with
  | single p => trivial
  | join p e rest =>
      have hrest : rest.Filled := hc.filled
      rw [removeFrom]
      split
      · exact hrest
      · split
        · exact filled_removeUpTo _ hrest
        · exact filled_removeFrom _ _ hrest

end Chain

end TemplateMigration
