import Mathlib.Data.Set.Card
import TemplateMigration.Proofs.Patch.Chunks

/-!
# TemplateMigration.Proofs.Patch.Cover

What holds of the chunks of a text after any calls.

The chunks cover the text without gaps, each between two boundaries, and the outer ends of the
first and the last are never touched.  Where two chunks meet, an edge of the chain stands
(`Chain.exists_edge?`), and it is dead exactly if a successful removal holds its offset strictly
inside.  The offsets where chunks meet are those that successful calls have named, so these tell
the number of chunks.
-/

namespace TemplateMigration

/-! ## Covers -/

/-- A list of chunks covers a text: it starts where the text starts, every chunk ends where the
next one starts, and the last ends where the text ends. -/
structure Chunk.Covers (chunks : List Chunk) (text : List Char) : Prop where
  first : chunks.head?.map Chunk.start = some 0
  next : chunks.IsChain fun a b => a.stop = b.start
  last : chunks.getLast?.map Chunk.stop = some (byteCount text)
  between : ∀ c ∈ chunks, c.start ≤ c.stop ∧ IsBoundary text c.start ∧ IsBoundary text c.stop

namespace Chain

variable {c : Chain} {s n : Nat} {l : Option (List Char)} {a b : Chunk}

theorem head?_chunksFrom (c : Chain) (s : Nat) (l : Option (List Char)) :
    ∃ ch, (c.chunksFrom s l).head? = some ch ∧
      ch.start = s ∧ ch.removed = c.head.removed ∧ ch.left = l := by
  cases c with
  | single p => exact ⟨_, rfl, rfl, rfl, rfl⟩
  | join p e rest => exact ⟨_, rfl, rfl, rfl, rfl⟩

theorem getLast?_chunksFrom (c : Chain) (s : Nat) (l : Option (List Char)) :
    ∃ ch, (c.chunksFrom s l).getLast? = some ch ∧
      ch.stop = s + byteCount c.source ∧ ch.removed = c.last.removed ∧ ch.right = some [] := by
  induction c generalizing s l with
  | single p => exact ⟨_, rfl, rfl, rfl, rfl⟩
  | join p e rest ih =>
      obtain ⟨ch, hlast, hstop, hremoved, hright⟩ := ih (s + p.size) e.right?
      refine ⟨ch, ?_, ?_, hremoved, hright⟩
      · rw [chunksFrom, List.getLast?_cons, hlast]
        rfl
      · rw [hstop, source, byteCount_append, ← Nat.add_assoc]
        rfl

theorem isChain_chunksFrom (c : Chain) (s : Nat) (l : Option (List Char)) :
    (c.chunksFrom s l).IsChain fun a b => a.stop = b.start := by
  induction c generalizing s l with
  | single p => exact .singleton _
  | join p e rest ih =>
      obtain ⟨ch, cs, hrest⟩ := exists_chunksFrom rest (s + p.size)
      have hchain := ih (s + p.size) e.right?
      obtain ⟨first, hfirst, hstart, -, -⟩ := head?_chunksFrom rest (s + p.size) e.right?
      rw [chunksFrom]
      rw [hrest] at hchain hfirst ⊢
      cases hfirst
      exact .cons_cons hstart.symm hchain

/-- The ends of the chunks are boundaries of the text that the chain covers, moved by its start. -/
theorem between_chunksFrom (c : Chain) (s : Nat) (l : Option (List Char)) :
    ∀ ch ∈ c.chunksFrom s l, ∃ start stop, ch.start = s + start ∧ ch.stop = s + stop ∧
      start ≤ stop ∧ IsBoundary c.source start ∧ IsBoundary c.source stop := by
  induction c generalizing s l with
  | single p =>
      intro ch hch
      obtain rfl := List.mem_singleton.mp hch
      exact ⟨0, p.size, rfl, rfl, Nat.zero_le _, ⟨[], p.content, rfl, rfl⟩, isBoundary_byteCount _⟩
  | join p e rest ih =>
      intro ch hch
      obtain rfl | hmem := List.mem_cons.mp hch
      · exact ⟨0, p.size, rfl, rfl, Nat.zero_le _, ⟨[], p.content ++ rest.source, rfl, rfl⟩,
          ⟨p.content, rest.source, rfl, rfl⟩⟩
      · obtain ⟨start, stop, hstart, hstop, hle, hb, hb'⟩ := ih _ _ ch hmem
        have hmove : ∀ n, IsBoundary rest.source n →
            IsBoundary (join p e rest).source (p.size + n) := by
          rintro n ⟨before, after, hsource, rfl⟩
          exact ⟨p.content ++ before, after, by rw [source, hsource, List.append_assoc],
            byteCount_append _ _⟩
        exact ⟨p.size + start, p.size + stop, by omega, by omega, by omega, hmove _ hb, hmove _ hb'⟩

/-! ## Edges between chunks -/

theorem pos_of_isSome_edge? (hc : c.Filled) (hn : (c.edge? n).isSome) : 0 < n := by
  cases c with
  | single p => simp [edge?] at hn
  | join p e rest => exact Nat.lt_of_lt_of_le hc.1 (size_le_of_isSome_edge? hn)

/-- Where two chunks meet, an edge stands, and they hold its two texts.  The rest of a chain has no
edge at its own start, so its edges are found behind the first piece. -/
theorem exists_edge? (hc : c.InnerFilled) (i : Nat) (ha : (c.chunksFrom s l)[i]? = some a)
    (hb : (c.chunksFrom s l)[i + 1]? = some b) :
    ∃ n e, a.stop = s + n ∧ c.edge? n = some e ∧ a.right = e.left? ∧ b.left = e.right? := by
  induction c generalizing i s l with
  | single p => simp [chunksFrom] at hb
  | join p e rest ih =>
      cases i with
      | zero =>
          obtain ⟨ch, cs, hrest⟩ := exists_chunksFrom rest (s + p.size)
          rw [chunksFrom, List.getElem?_cons_zero] at ha
          rw [chunksFrom, List.getElem?_cons_succ, hrest, List.getElem?_cons_zero] at hb
          cases ha
          cases hb
          exact ⟨p.size, e, rfl, edge?_join_of_eq rfl, rfl, rfl⟩
      | succ i =>
          rw [chunksFrom, List.getElem?_cons_succ] at ha hb
          obtain ⟨n, e', hstop, hedge, hright, hleft⟩ := ih (innerFilled_of_filled hc) i ha hb
          have hpos : 0 < n := pos_of_isSome_edge? hc (by rw [hedge]; rfl)
          refine ⟨p.size + n, e', by omega, ?_, hright, hleft⟩
          rw [edge?_join_of_gt (by omega), Nat.add_sub_cancel_left, hedge]

end Chain

/-! ## Calls that succeed -/

namespace PatchCall

variable {text : String} {calls : List PatchCall} {call : PatchCall} {x : Nat}

/-- A call is among some calls and succeeds when it is made there. -/
def Succeeds (text : String) (calls : List PatchCall) (call : PatchCall) : Prop :=
  ∃ before after, calls = before ++ call :: after ∧ ∃ q, call.apply (Patch.run text before) = .ok q

/-- What a text admits succeeds whenever it is made. -/
theorem succeeds_iff : Succeeds text calls call ↔ call ∈ calls ∧ call.Admissible text.toList := by
  have hok : ∀ before, (∃ q, call.apply (Patch.run text before) = .ok q) ↔
      call.Admissible text.toList := fun before =>
    Patch.exists_apply_iff (Patch.shows_run text before) call
  constructor
  · rintro ⟨before, after, rfl, hq⟩
    exact ⟨by simp, (hok before).mp hq⟩
  · rintro ⟨hmem, ha⟩
    obtain ⟨before, after, rfl⟩ := List.append_of_mem hmem
    exact ⟨before, after, rfl, (hok before).mpr ha⟩

/-- An offset strictly inside the range of a removal that succeeds. -/
def InsideRemoval (text : String) (calls : List PatchCall) (x : Nat) : Prop :=
  ∃ offset length, Succeeds text calls (.remove offset length) ∧ offset < x ∧ x < offset + length

theorem killedAt_iff :
    killedAt (calls.filter (·.Admissible text.toList)) x = true ↔ InsideRemoval text calls x := by
  simp only [killedAt, List.any_eq_true, List.mem_filter, decide_eq_true_eq, InsideRemoval,
    succeeds_iff]
  constructor
  · rintro ⟨call, hcall, hkills⟩
    cases call with
    | remove offset length => exact ⟨offset, length, hcall, of_decide_eq_true hkills⟩
    | insertLeft offset new => contradiction
    | insertRight offset new => contradiction
  · rintro ⟨offset, length, hcall, hinside⟩
    exact ⟨.remove offset length, hcall, decide_eq_true hinside⟩

/-- The offsets that successful calls name: those of insertions, and both ends of removals of
something. -/
def namedOffsets (text : String) (calls : List PatchCall) : Set Nat :=
  {x | ∃ call, Succeeds text calls call ∧ x ∈ call.cuts}

theorem ncard_namedOffsets :
    (namedOffsets text calls).ncard =
      ((calls.filter (·.Admissible text.toList)).flatMap cuts).toFinset.card := by
  rw [← Set.ncard_coe_finset]
  congr 1
  ext x
  simp [namedOffsets, succeeds_iff, and_assoc]

end PatchCall

/-! ## Runs -/

namespace Patch

variable {p : Patch} {text : List Char} {s : Sheet}

theorem covers_chunks (hp : p.Shows text s) : Chunk.Covers p.chunks text where
  first := by
    obtain ⟨ch, hfirst, hstart, -, -⟩ := Chain.head?_chunksFrom p.chain 0 (some [])
    rw [chunks, hfirst, Option.map_some, hstart]
  next := Chain.isChain_chunksFrom _ _ _
  last := by
    obtain ⟨ch, hlast, hstop, -, -⟩ := Chain.getLast?_chunksFrom p.chain 0 (some [])
    rw [chunks, hlast, Option.map_some, hstop, hp.source, Nat.zero_add]
  between := by
    intro ch hch
    obtain ⟨start, stop, hstart, hstop, hle, hb, hb'⟩ := Chain.between_chunksFrom _ _ _ ch hch
    rw [hp.source] at hb hb'
    rw [hstart, hstop, Nat.zero_add, Nat.zero_add]
    exact ⟨hle, hb, hb'⟩

/-- Two chunks that meet have lost their texts there exactly if the offset is dead. -/
theorem isChain_chunks (hp : p.Shows text s) :
    p.chunks.IsChain fun a b =>
      (a.right = none ↔ s.dead a.stop = true) ∧ (b.left = none ↔ s.dead b.start = true) := by
  have hmeet := List.isChain_iff_getElem.mp (covers_chunks hp).next
  rw [List.isChain_iff_getElem]
  intro i hi
  have hstop := hmeet i hi
  obtain ⟨n, e, hn, hedge, hright, hleft⟩ := Chain.exists_edge? hp.proper.filled i
    (List.getElem?_eq_getElem (Nat.lt_of_succ_lt hi)) (List.getElem?_eq_getElem hi)
  rw [Nat.zero_add] at hn
  have hdead : s.dead n = e.isDead := by
    rw [← hp.sheet, ← Chain.edgeAt_of_edge? hedge]
    rfl
  rw [← hstop]
  change p.chunks[i].stop = n at hn
  change p.chunks[i].right = e.left? at hright
  change p.chunks[i + 1].left = e.right? at hleft
  rw [hn, hright, hleft, hdead]
  cases e <;> simp [Edge.left?, Edge.right?, Edge.isDead]

end Patch

open PatchCall in
/-- **The chunks of a text cover it.**  After any calls on a text, made in place and refused ones
included, the chunks cover the text between boundaries.  The first and the last are kept, and
nothing is inserted before the first or after the last.  Any other end has lost its text exactly if
its offset lies strictly inside a removal that succeeded.  There is one chunk more than there are
offsets that successful calls have named. -/
theorem Chunk.run_covers (text : String) (calls : List PatchCall) :
    (Patch.run text calls).chunks = run text calls ∧
      Covers (run text calls) text.toList ∧
      (∃ first, (run text calls).head? = some first ∧
        first.removed = false ∧ first.left = some []) ∧
      (∃ last, (run text calls).getLast? = some last ∧
        last.removed = false ∧ last.right = some []) ∧
      ((run text calls).IsChain fun a b =>
        (a.right = none ↔ InsideRemoval text calls a.stop) ∧
          (b.left = none ↔ InsideRemoval text calls b.start)) ∧
      (run text calls).length = (Patch.run text calls).pieceCount ∧
      (Patch.run text calls).pieceCount = 1 + (namedOffsets text calls).ncard := by
  have hp := Patch.shows_run text calls
  rw [run_eq]
  refine ⟨rfl, Patch.covers_chunks hp, ?_, ?_, ?_, Patch.length_chunks _, ?_⟩
  · obtain ⟨first, hfirst, -, hremoved, hleft⟩ :=
      Chain.head?_chunksFrom (Patch.run text calls).chain 0 (some [])
    exact ⟨first, hfirst, hremoved.trans hp.proper.head_kept, hleft⟩
  · obtain ⟨last, hlast, -, hremoved, hright⟩ :=
      Chain.getLast?_chunksFrom (Patch.run text calls).chain 0 (some [])
    exact ⟨last, hlast, hremoved.trans hp.proper.last_kept, hright⟩
  · have hdead : ∀ x, (Sheet.run text calls).dead x = true ↔ InsideRemoval text calls x := by
      intro x
      rw [Sheet.run_eq_ofCalls]
      exact killedAt_iff
    simpa only [hdead] using Patch.isChain_chunks hp
  · rw [Patch.pieceCount_run, ncard_namedOffsets, Nat.add_comm]

end TemplateMigration
