import TemplateMigration.Proofs.Patch.Order

/-!
# TemplateMigration.Proofs.Patch.Chunks

A patch that is changed in place.

A text is covered by a list of chunks.  A `Chunk` knows the offsets of its two ends and the texts
inserted at them; a missing text marks an end inside a removal.  A call searches the list for its
offsets, cuts chunks in two where it has to, and writes into the list (`PatchCall.perform`).  It
runs in `EStateM`, where a failure does not undo what was written before it.

`Chain.chunksFrom` reads a chain as such a list.  One call in place does to the list what the same
call does to the chain (`Patch.perform_of_ok`), and one that fails has not written anything
(`Patch.perform_of_error`), so a run in place ends with the chunks of the run (`Chunk.run_eq`).
-/

namespace TemplateMigration

/-! ## Calls in place -/

/-- A stretch of the text between two byte offsets, with the texts inserted at its ends. -/
structure Chunk where
  start : Nat
  stop : Nat
  removed : Bool
  left : Option (List Char)
  right : Option (List Char)

namespace Chunk

/-- What stands at an end that a cut through a chunk makes: no text inside a removal. -/
def cutText (c : Chunk) : Option (List Char) := if c.removed then none else some []

/-- The part of a chunk before an offset. -/
def lower (c : Chunk) (offset : Nat) : Chunk := { c with stop := offset, right := c.cutText }

/-- The part of a chunk from an offset on. -/
def upper (c : Chunk) (offset : Nat) : Chunk := { c with start := offset, left := c.cutText }

/-- Append to the text at the right end. -/
def appendRight (new : List Char) (c : Chunk) : Chunk := { c with right := c.right.map (· ++ new) }

/-- Put before the text at the left end. -/
def prependLeft (new : List Char) (c : Chunk) : Chunk := { c with left := c.left.map (new ++ ·) }

/-- The chunk at an index when the chunks from one index to another are removed: the ends between
them lose their texts. -/
def strike (first last index : Nat) (c : Chunk) : Chunk :=
  if first ≤ index ∧ index ≤ last then
    { c with
      removed := true
      left := if index = first then c.left else none
      right := if index = last then c.right else none }
  else c

/-- Programs that change a list of chunks. -/
abbrev InPlace := EStateM Failure (List Chunk)

/-- Refuse an offset past the end or inside a character. -/
def check (text : List Char) (offset : Nat) : InPlace Unit :=
  if byteCount text < offset then throw (.offsetOutOfBounds offset (byteCount text))
  else if (cut? offset text).isNone then throw (.offsetInsideCharacter offset)
  else pure ()

/-- The index of the chunk that ends at an offset, with a chunk after it: the first chunk that
reaches the offset is cut, unless it ends there and is not the last. -/
def boundary (text : List Char) (offset : Nat) : InPlace Nat := do
  check text offset
  let chunks ← get
  let before := chunks.takeWhile (·.stop < offset)
  match chunks.dropWhile (·.stop < offset) with
  | [] => throw (.offsetOutOfBounds offset (byteCount text))
  | c :: after =>
      unless c.stop = offset && !after.isEmpty do
        set (before ++ c.lower offset :: c.upper offset :: after)
      return before.length

/-- Insert text at the right end of the chunk before an offset. -/
def insertLeft (text : List Char) (offset : Nat) (new : List Char) : InPlace Unit := do
  let before ← boundary text offset
  modify (·.modify before (appendRight new))

/-- Insert text at the left end of the chunk after an offset. -/
def insertRight (text : List Char) (offset : Nat) (new : List Char) : InPlace Unit := do
  let before ← boundary text offset
  modify (·.modify (before + 1) (prependLeft new))

/-- Remove a range of the text. -/
def remove (text : List Char) (offset length : Nat) : InPlace Unit := do
  if Patch.maxOffset < offset + length then
    throw (.offsetOutOfBounds Patch.maxOffset (byteCount text))
  check text offset
  check text (offset + length)
  if length = 0 then return
  let before ← boundary text offset
  let last ← boundary text (offset + length)
  modify (·.mapIdx (strike (before + 1) last))

end Chunk

/-- Make a call in place. -/
def PatchCall.perform (text : List Char) : PatchCall → Chunk.InPlace Unit
  | insertLeft offset new => Chunk.insertLeft text offset new.toList
  | insertRight offset new => Chunk.insertRight text offset new.toList
  | remove offset length => Chunk.remove text offset length

namespace Chunk

/-- The chunks of a text without edits. -/
def whole (text : List Char) : List Chunk := [⟨0, byteCount text, false, some [], some []⟩]

/-- The chunks that a call leaves, whether it fails or not. -/
def attempt (text : List Char) (chunks : List Chunk) (call : PatchCall) : List Chunk :=
  match call.perform text chunks with
  | .ok _ chunks => chunks
  | .error _ chunks => chunks

/-- Make calls one after the other in place, going on after those that fail. -/
def run (text : String) (calls : List PatchCall) : List Chunk :=
  calls.foldl (attempt text.toList) (whole text.toList)

end Chunk

/-! ## The chunks of a chain -/

namespace Edge

/-- The text at the right end of the piece before an edge. -/
def left? : Edge → Option (List Char)
  | live left _ => some left
  | dead => none

/-- The text at the left end of the piece after an edge. -/
def right? : Edge → Option (List Char)
  | live _ right => some right
  | dead => none

theorem left?_fresh (p : Piece) : (fresh p).left? = if p.removed then none else some [] := by
  cases h : p.removed <;> simp [fresh, h, left?]

theorem right?_fresh (p : Piece) : (fresh p).right? = if p.removed then none else some [] := by
  cases h : p.removed <;> simp [fresh, h, right?]

end Edge

namespace Chain

variable {p : Piece} {e : Edge} {rest c : Chain} {m n s : Nat} {l : Option (List Char)}

/-- The chunks of a chain that starts at an offset, with the text at its left end. -/
def chunksFrom (start : Nat) (left : Option (List Char)) : Chain → List Chunk
  | single p => [⟨start, start + p.size, p.removed, left, some []⟩]
  | join p e rest =>
      ⟨start, start + p.size, p.removed, left, e.left?⟩ ::
        rest.chunksFrom (start + p.size) e.right?

/-- The number of pieces that end before an offset. -/
def index (n : Nat) : Chain → Nat
  | single _ => 0
  | join p _ rest => if n ≤ p.size then 0 else rest.index (n - p.size) + 1

/-- No piece ends before an offset up to the end of the first one. -/
theorem index_join_of_le (hn : n ≤ p.size) : (join p e rest).index n = 0 := by
  rw [index, if_pos hn]

/-- Behind the first piece the pieces of the rest are counted. -/
theorem index_join_of_gt (hn : p.size < n) :
    (join p e rest).index n = rest.index (n - p.size) + 1 := by
  rw [index, if_neg (by omega)]

/-- An edge moves no index at or before it. -/
theorem index_addEdge (hb : IsBoundary c.source n) (hm : m ≤ n) :
    (c.addEdge n).index m = c.index m := by
  induction c generalizing m n with
  | single p =>
      rw [addEdge, index_join_of_le (by rw [Piece.size_cut_fst hb]; exact hm), index]
  | join p e rest ih =>
      obtain hlt | heq | hgt := Nat.lt_trichotomy n p.size
      · have hfst := Piece.size_cut_fst (isBoundary_head hb hlt)
        rw [addEdge_join_of_lt hlt, index_join_of_le (by omega), index_join_of_le (by omega)]
      · rw [addEdge_join_of_eq heq]
      · rw [addEdge_join_of_gt hgt]
        by_cases hmp : m ≤ p.size
        · rw [index_join_of_le hmp, index_join_of_le hmp]
        · rw [index_join_of_gt (by omega), index_join_of_gt (by omega),
            ih (isBoundary_rest hb hgt) (by omega)]

/-- Only the first chunk holds the text at the left end. -/
theorem exists_chunksFrom (c : Chain) (s : Nat) :
    ∃ (ch : Chunk) (cs : List Chunk), ∀ l, c.chunksFrom s l = { ch with left := l } :: cs := by
  cases c with
  | single p => exact ⟨⟨s, s + p.size, p.removed, none, some []⟩, [], fun _ => rfl⟩
  | join p e rest => exact ⟨⟨s, s + p.size, p.removed, none, e.left?⟩, _, fun _ => rfl⟩

theorem isEmpty_chunksFrom (c : Chain) (s : Nat) (l : Option (List Char)) :
    (c.chunksFrom s l).isEmpty = false := by
  cases c <;> rfl

/-- There is a chunk for every piece. -/
theorem length_chunksFrom (c : Chain) (s : Nat) (l : Option (List Char)) :
    (c.chunksFrom s l).length = c.count := by
  induction c generalizing s l with
  | single p => rfl
  | join p e rest ih => simp [chunksFrom, count, ih]

/-! ## Cutting -/

/-- The search for an offset ends at a chunk that reaches it.  Cutting that chunk, unless it ends
there and is not the last, adds the edge. -/
theorem exists_search (hb : IsBoundary c.source n) (s : Nat) (l : Option (List Char)) :
    ∃ before ch after,
      (c.chunksFrom s l).takeWhile (·.stop < s + n) = before ∧
      (c.chunksFrom s l).dropWhile (·.stop < s + n) = ch :: after ∧
      before.length = c.index n ∧
      (c.addEdge n).chunksFrom s l =
        if ch.stop = s + n && !after.isEmpty then c.chunksFrom s l
        else before ++ ch.lower (s + n) :: ch.upper (s + n) :: after := by
  induction c generalizing n s l with
  | single p =>
      have hle : n ≤ p.size := hb.le
      have hfst := Piece.size_cut_fst hb
      have hsnd := Piece.size_cut_snd hb
      have hstop : s + n + (p.size - n) = s + p.size := by omega
      refine ⟨[], ⟨s, s + p.size, p.removed, l, some []⟩, [], ?_, ?_, rfl, ?_⟩
      · simp [chunksFrom, hle]
      · simp [chunksFrom, hle]
      · simp [addEdge, chunksFrom, hfst, hsnd, hstop, Chunk.lower, Chunk.upper, Chunk.cutText,
          Edge.left?_fresh, Edge.right?_fresh]
  | join p e rest ih =>
      obtain hlt | heq | hgt := Nat.lt_trichotomy n p.size
      · have hfst := Piece.size_cut_fst (isBoundary_head hb hlt)
        have hsnd := Piece.size_cut_snd (isBoundary_head hb hlt)
        have hstop : s + n + (p.size - n) = s + p.size := by omega
        have hne : p.size ≠ n := by omega
        refine ⟨[], ⟨s, s + p.size, p.removed, l, e.left?⟩, rest.chunksFrom (s + p.size) e.right?,
          ?_, ?_, (index_join_of_le (by omega)).symm, ?_⟩
        · simp [chunksFrom, Nat.le_of_lt hlt]
        · simp [chunksFrom, Nat.le_of_lt hlt]
        · simp [addEdge_join_of_lt hlt, chunksFrom, hfst, hsnd, hstop, hne, Chunk.lower,
            Chunk.upper, Chunk.cutText, Edge.left?_fresh, Edge.right?_fresh]
      · refine ⟨[], ⟨s, s + p.size, p.removed, l, e.left?⟩, rest.chunksFrom (s + p.size) e.right?,
          ?_, ?_, (index_join_of_le (by omega)).symm, ?_⟩
        · simp [chunksFrom, heq]
        · simp [chunksFrom, heq]
        · rw [addEdge_join_of_eq heq]
          simp [chunksFrom, heq, isEmpty_chunksFrom]
      · obtain ⟨before, ch, after, hbefore, hafter, hindex, hadd⟩ :=
          ih (isBoundary_rest hb hgt) (s + p.size) e.right?
        have hoff : s + p.size + (n - p.size) = s + n := by omega
        rw [hoff] at hbefore hafter hadd
        refine ⟨⟨s, s + p.size, p.removed, l, e.left?⟩ :: before, ch, after, ?_, ?_, ?_, ?_⟩
        · simp [chunksFrom, hgt, hbefore]
        · simp [chunksFrom, hgt, hafter]
        · rw [index_join_of_gt hgt, ← hindex, List.length_cons]
        · rw [addEdge_join_of_gt hgt, chunksFrom, hadd]
          split <;> simp [chunksFrom]

/-! ## Inserting -/

/-- The text before an edge stands at the right end of the chunk that ends there. -/
theorem modify_appendRight (hn : (c.edge? n).isSome) (new : List Char) (s : Nat)
    (l : Option (List Char)) :
    (c.chunksFrom s l).modify (c.index n) (Chunk.appendRight new) =
      (c.updateEdge (.insertLeft new) n).chunksFrom s l := by
  induction c generalizing n s l with
  | single p => simp [edge?] at hn
  | join p e rest ih =>
      have hle : p.size ≤ n := size_le_of_isSome_edge? hn
      obtain heq | hgt := Nat.eq_or_lt_of_le hle
      · rw [updateEdge_join_of_eq _ heq.symm, index_join_of_le (by omega)]
        cases e <;> rfl
      · rw [edge?_join_of_gt hgt] at hn
        rw [updateEdge_join_of_gt _ hgt, index_join_of_gt hgt, chunksFrom, chunksFrom,
          List.modify_succ_cons, ih hn]

/-- The text after an edge stands at the left end of the chunk that starts there. -/
theorem modify_prependLeft (hn : (c.edge? n).isSome) (new : List Char) (s : Nat)
    (l : Option (List Char)) :
    (c.chunksFrom s l).modify (c.index n + 1) (Chunk.prependLeft new) =
      (c.updateEdge (.insertRight new) n).chunksFrom s l := by
  induction c generalizing n s l with
  | single p => simp [edge?] at hn
  | join p e rest ih =>
      have hle : p.size ≤ n := size_le_of_isSome_edge? hn
      obtain heq | hgt := Nat.eq_or_lt_of_le hle
      · obtain ⟨ch, cs, hrest⟩ := exists_chunksFrom rest (s + p.size)
        rw [updateEdge_join_of_eq _ heq.symm, index_join_of_le (by omega), chunksFrom, chunksFrom,
          List.modify_succ_cons, hrest, hrest, List.modify_zero_cons]
        cases e <;> rfl
      · rw [edge?_join_of_gt hgt] at hn
        rw [updateEdge_join_of_gt _ hgt, index_join_of_gt hgt, chunksFrom, chunksFrom,
          List.modify_succ_cons, ih hn]

/-! ## Removing -/

theorem strike_succ (first last i : Nat) :
    Chunk.strike (first + 1) (last + 1) (i + 1) = Chunk.strike first last i := by
  funext ch
  simp [Chunk.strike]

/-- After the first struck chunk, only the last one is special. -/
theorem strike_zero_succ (last i : Nat) :
    Chunk.strike 0 (last + 1) (i + 1 + 1) = Chunk.strike 0 last (i + 1) := by
  funext ch
  simp [Chunk.strike]

/-- Chunks past the last index stay. -/
theorem mapIdx_strike_of_lt {first last k : Nat} (hk : last < k) (cs : List Chunk) :
    cs.mapIdx (fun i => Chunk.strike first last (i + k)) = cs := by
  apply List.ext_getElem?
  intro i
  have hnot : ¬ (first ≤ i + k ∧ i + k ≤ last) := by omega
  cases h : cs[i]? <;> simp [h, Chunk.strike, hnot]

/-- Striking the chunks up to an edge is removing the pieces up to it. -/
theorem mapIdx_removeUpTo (hn : (c.edge? n).isSome) (s : Nat) (l : Option (List Char)) :
    (c.chunksFrom s l).mapIdx (Chunk.strike 0 (c.index n)) =
      (c.removeUpTo n).chunksFrom s l := by
  induction c generalizing n s l with
  | single p => simp [edge?] at hn
  | join p e rest ih =>
      have hle : p.size ≤ n := size_le_of_isSome_edge? hn
      obtain heq | hgt := Nat.eq_or_lt_of_le hle
      · rw [removeUpTo_join_of_eq heq.symm, index_join_of_le (by omega), chunksFrom, chunksFrom,
          List.mapIdx_cons, mapIdx_strike_of_lt (by omega)]
        rfl
      · rw [edge?_join_of_gt hgt] at hn
        rw [removeUpTo_join_of_gt hgt, index_join_of_gt hgt, chunksFrom, chunksFrom,
          List.mapIdx_cons]
        have hrest : (rest.chunksFrom (s + p.size) e.right?).mapIdx
              (fun i => Chunk.strike 0 (rest.index (n - p.size) + 1) (i + 1)) =
            (rest.chunksFrom (s + p.size) none).mapIdx
              (Chunk.strike 0 (rest.index (n - p.size))) := by
          obtain ⟨ch, cs, hcs⟩ := exists_chunksFrom rest (s + p.size)
          rw [hcs, hcs, List.mapIdx_cons, List.mapIdx_cons]
          simp only [strike_zero_succ]
          simp [Chunk.strike, eq_comm]
        rw [hrest, ih hn]
        rfl

/-- Striking the chunks between two edges removes the range between them. -/
theorem mapIdx_removeFrom {length : Nat} (hlength : 0 < length) (hstart : (c.edge? n).isSome)
    (hstop : (c.edge? (n + length)).isSome) (s : Nat) (l : Option (List Char)) :
    (c.chunksFrom s l).mapIdx (Chunk.strike (c.index n + 1) (c.index (n + length))) =
      (c.removeFrom n length).chunksFrom s l := by
  induction c generalizing n s l with
  | single p => simp [edge?] at hstart
  | join p e rest ih =>
      have hle : p.size ≤ n := size_le_of_isSome_edge? hstart
      have hrest := isSome_edge?_rest hstop hle hlength
      have hoff : n + length - p.size = n - p.size + length := by omega
      rw [index_join_of_gt (show p.size < n + length by omega), hoff]
      obtain heq | hgt := Nat.eq_or_lt_of_le hle
      · have hzero : n - p.size + length = length := by omega
        rw [hzero] at hrest ⊢
        rw [removeFrom_join_of_eq heq.symm, index_join_of_le (by omega), chunksFrom, chunksFrom,
          List.mapIdx_cons, ← mapIdx_removeUpTo hrest]
        simp only [strike_succ]
        simp [Chunk.strike]
      · rw [edge?_join_of_gt hgt] at hstart
        rw [removeFrom_join_of_gt hgt, index_join_of_gt hgt, chunksFrom, chunksFrom,
          List.mapIdx_cons, ← ih hstart hrest]
        simp only [strike_succ]
        simp [Chunk.strike]

end Chain

/-! ## Steps -/

/-- The chunks of a patch. -/
def Patch.chunks (p : Patch) : List Chunk := p.chain.chunksFrom 0 (some [])

@[simp] theorem Patch.length_chunks (p : Patch) : p.chunks.length = p.pieceCount :=
  Chain.length_chunksFrom _ _ _

namespace Chunk

variable {text : List Char} {n : Nat} {chunks : List Chunk} {failure : Failure}

theorem check_of_isBoundary (hb : IsBoundary text n) : check text n chunks = .ok () chunks := by
  have hle := hb.le
  have hcut : (cut? n text).isNone = false := by
    rw [Option.isNone_eq_false_iff, isSome_cut?_iff]
    exact hb
  rw [check, if_neg (by omega), hcut]
  rfl

/-- Checking an offset in place finds the faults that a patch of the same text finds. -/
theorem check_of_error {p : Patch} (hsource : p.chain.source = text)
    (h : p.check n = .error failure) : check text n chunks = .error failure chunks := by
  subst hsource
  rw [Patch.check, Patch.size] at h
  rw [check]
  split at h
  · next hlt =>
      cases h
      rw [if_pos hlt]
      rfl
  · next hlt =>
      rw [if_neg hlt]
      split at h
      · next hcut =>
          cases h
          rw [if_pos hcut]
          rfl
      · contradiction

/-- An offset that is refused is no boundary to cut at. -/
theorem boundary_of_error (h : check text n chunks = .error failure chunks) :
    boundary text n chunks = .error failure chunks := by
  simp only [boundary, bind, EStateM.bind, h]

/-- A search at a boundary of the text adds the edge. -/
theorem boundary_chunksFrom {c : Chain} (hb : IsBoundary c.source n) (l : Option (List Char)) :
    boundary c.source n (c.chunksFrom 0 l) =
      .ok (c.index n) ((c.addEdge n).chunksFrom 0 l) := by
  obtain ⟨before, ch, after, hbefore, hafter, hindex, hadd⟩ := Chain.exists_search hb 0 l
  rw [Nat.zero_add] at hbefore hafter hadd
  have hget : ∀ chunks : List Chunk, (get : InPlace (List Chunk)) chunks = .ok chunks chunks :=
    fun _ => rfl
  simp only [boundary, bind, EStateM.bind, check_of_isBoundary hb, hget, hbefore, hafter]
  rw [hadd, ← hindex]
  by_cases hkeep : (ch.stop = n && !after.isEmpty) = true
  · simp [hkeep, pure, EStateM.pure]
  · simp only [hkeep]
    rfl

end Chunk

namespace Patch

variable {p q : Patch} {failure : Failure} {n length : Nat}

/-- Cutting the chunks at a boundary is adding an edge. -/
theorem boundary_chunks (hb : IsBoundary p.chain.source n) :
    Chunk.boundary p.chain.source n p.chunks = .ok (p.chain.index n) (chunks ⟨p.chain.addEdge n⟩) :=
  Chunk.boundary_chunksFrom hb (some [])

/-- A change of an edge fails when its offset is refused, and only then. -/
theorem edit_eq_error_iff {f : Edge → Edge} :
    p.edit f n = .error failure ↔ p.check n = .error failure := by
  rw [edit]
  cases p.check n <;> simp [Except.map]

/-- Text on the left of an offset is put at the end of a chunk. -/
theorem perform_insertLeft (hb : IsBoundary p.chain.source n) (new : List Char) :
    Chunk.insertLeft p.chain.source n new p.chunks =
      .ok () (chunks ⟨(p.chain.addEdge n).updateEdge (.insertLeft new) n⟩) := by
  have hindex := Chain.index_addEdge hb (Nat.le_refl n)
  have hmodify := Chain.modify_appendRight (Chain.isSome_edge?_addEdge_self hb) new 0 (some [])
  rw [hindex] at hmodify
  simp only [Chunk.insertLeft, bind, EStateM.bind, boundary_chunks hb]
  rw [chunks, chunks, ← hmodify]
  rfl

/-- Text on the right of an offset is put at the start of a chunk. -/
theorem perform_insertRight (hb : IsBoundary p.chain.source n) (new : List Char) :
    Chunk.insertRight p.chain.source n new p.chunks =
      .ok () (chunks ⟨(p.chain.addEdge n).updateEdge (.insertRight new) n⟩) := by
  have hindex := Chain.index_addEdge hb (Nat.le_refl n)
  have hmodify := Chain.modify_prependLeft (Chain.isSome_edge?_addEdge_self hb) new 0 (some [])
  rw [hindex] at hmodify
  simp only [Chunk.insertRight, bind, EStateM.bind, boundary_chunks hb]
  rw [chunks, chunks, ← hmodify]
  rfl

/-- The second edge moves no index of the first, so the indices found stay right. -/
theorem perform_remove (hmax : n + length ≤ maxOffset) (hstart : IsBoundary p.chain.source n)
    (hstop : IsBoundary p.chain.source (n + length)) :
    Chunk.remove p.chain.source n length p.chunks =
      .ok () (if length = 0 then p.chunks
        else chunks ⟨((p.chain.addEdge n).addEdge (n + length)).removeFrom n length⟩) := by
  have hchecks : Chunk.remove p.chain.source n length p.chunks =
      (do
        if length = 0 then return
        let before ← Chunk.boundary p.chain.source n
        let last ← Chunk.boundary p.chain.source (n + length)
        modify (·.mapIdx (Chunk.strike (before + 1) last)) : Chunk.InPlace Unit) p.chunks := by
    simp only [Chunk.remove, bind, EStateM.bind, if_neg (Nat.not_lt_of_le hmax),
      Chunk.check_of_isBoundary hstart, Chunk.check_of_isBoundary hstop]
  rw [hchecks]
  by_cases hlength : length = 0
  · rw [if_pos hlength, if_pos hlength]
    rfl
  · have hpos : 0 < length := Nat.pos_of_ne_zero hlength
    have hsource := Chain.source_addEdge hstart
    have hstop' : IsBoundary (p.chain.addEdge n).source (n + length) := by rwa [hsource]
    have hedge := Chain.isSome_edge?_addEdge hstop' (Chain.isSome_edge?_addEdge_self hstart)
    have hedge' := Chain.isSome_edge?_addEdge_self hstop'
    have hsecond := boundary_chunks (p := ⟨p.chain.addEdge n⟩) hstop'
    rw [hsource] at hsecond
    have hstrike := Chain.mapIdx_removeFrom hpos hedge hedge' 0 (some [])
    rw [Chain.index_addEdge hstop' (Nat.le_add_right n length),
      Chain.index_addEdge hstart (Nat.le_refl n),
      Chain.index_addEdge hstop' (Nat.le_refl _)] at hstrike
    rw [if_neg hlength, if_neg hlength]
    simp only [bind, EStateM.bind, boundary_chunks hstart, hsecond]
    rw [chunks, chunks, ← hstrike]
    rfl

/-- A call that succeeds on a patch does the same to its chunks in place. -/
theorem perform_of_ok {text : List Char} {s : Sheet} (hp : p.Shows text s) {call : PatchCall}
    (h : call.apply p = .ok q) : call.perform text p.chunks = .ok () q.chunks := by
  have ha : call.Admissible text := (exists_apply_iff hp call).mp ⟨q, h⟩
  obtain rfl := hp.source
  cases call with
  | insertLeft offset new =>
      have hok := (exists_edit_eq_ok hp ha (.insertLeft new.toList)).1
      rw [PatchCall.apply, insertLeft, hok] at h
      cases h
      exact perform_insertLeft ha new.toList
  | insertRight offset new =>
      have hok := (exists_edit_eq_ok hp ha (.insertRight new.toList)).1
      rw [PatchCall.apply, insertRight, hok] at h
      cases h
      exact perform_insertRight ha new.toList
  | remove offset length =>
      obtain ⟨hmax, hstart, hstop⟩ := ha
      rw [PatchCall.apply, remove_eq_ok hmax hstart hstop] at h
      rw [PatchCall.perform, perform_remove hmax hstart hstop]
      split at h
      · next hlength =>
          cases h
          rw [if_pos hlength]
      · next hlength =>
          cases h
          rw [if_neg hlength]

/-- A call that fails on a patch fails for the same cause in place, and has not written anything
when it does: a removal looks at both of its offsets before it cuts at the first. -/
theorem perform_of_error {text : List Char} (hsource : p.chain.source = text) {call : PatchCall}
    (h : call.apply p = .error failure) :
    call.perform text p.chunks = .error failure p.chunks := by
  cases call with
  | insertLeft offset new =>
      have hcheck : Chunk.check text offset p.chunks = .error failure p.chunks :=
        Chunk.check_of_error hsource (edit_eq_error_iff.mp h)
      simp only [PatchCall.perform, Chunk.insertLeft, bind, EStateM.bind,
        Chunk.boundary_of_error hcheck]
  | insertRight offset new =>
      have hcheck : Chunk.check text offset p.chunks = .error failure p.chunks :=
        Chunk.check_of_error hsource (edit_eq_error_iff.mp h)
      simp only [PatchCall.perform, Chunk.insertRight, bind, EStateM.bind,
        Chunk.boundary_of_error hcheck]
  | remove offset length =>
      rw [PatchCall.apply, remove] at h
      rw [PatchCall.perform, Chunk.remove]
      split at h
      · next hmax =>
          cases h
          rw [if_pos hmax, ← hsource]
          rfl
      · next hmax =>
          rw [if_neg hmax]
          cases hstart : p.check offset with
          | error fault =>
              rw [hstart] at h
              cases h
              simp only [bind, EStateM.bind, Chunk.check_of_error hsource hstart]
          | ok _ =>
              have hb := (check_eq_ok_iff p offset).mp hstart
              rw [hsource] at hb
              cases hstop : p.check (offset + length) with
              | error fault =>
                  rw [hstart, hstop] at h
                  cases h
                  simp only [bind, EStateM.bind, Chunk.check_of_isBoundary hb,
                    Chunk.check_of_error hsource hstop]
              | ok _ =>
                  rw [hstart, hstop] at h
                  simp only [bind, Except.bind] at h
                  split at h <;> contradiction

/-! ## Runs -/

/-- The chunks after a call are those of the patch after the call. -/
theorem attempt_chunks {text : List Char} {s : Sheet} (hp : p.Shows text s) (call : PatchCall) :
    Chunk.attempt text p.chunks call = (p.attempt call).chunks := by
  rw [Chunk.attempt, attempt]
  cases happly : call.apply p with
  | ok q => rw [perform_of_ok hp happly]
  | error failure => rw [perform_of_error hp.source happly]

/-- Calls on the chunks of a patch do what they do on the patch. -/
theorem foldl_attempt_chunks {text : List Char} {s : Sheet} (hp : p.Shows text s)
    (calls : List PatchCall) :
    calls.foldl (Chunk.attempt text) p.chunks = (calls.foldl attempt p).chunks := by
  induction calls generalizing p s with
  | nil => rfl
  | cons call calls ih =>
      rw [List.foldl_cons, List.foldl_cons, attempt_chunks hp, ih (shows_attempt hp call)]

/-- A text without calls is one chunk. -/
theorem chunks_ofText (text : String) : (ofText text).chunks = Chunk.whole text.toList := by
  simp [chunks, ofText, Chain.chunksFrom, Chunk.whole, Piece.size]

end Patch

/-- A run in place ends with the chunks of the run. -/
theorem Chunk.run_eq (text : String) (calls : List PatchCall) :
    run text calls = (Patch.run text calls).chunks := by
  rw [run, Patch.run, ← Patch.chunks_ofText,
    Patch.foldl_attempt_chunks (Patch.shows_ofText text)]

end TemplateMigration
