import Mathlib.Algebra.Group.Nat.Defs
import TemplateMigration.Proofs.Patch.Chunks

/-!
# TemplateMigration.Proofs.Patch.Refusal

Which calls on a patch are refused, and what a refused call leaves.

Every offset is past the end of a text, inside one of its characters, or one of its boundaries
(`isBoundary_iff`).  A call looks at its offsets in this way before it does anything, so it is
refused exactly for a bad offset, and then every chunk is as it was, in place and all.
-/

namespace TemplateMigration

/-! ## Offsets -/

/-- What is wrong with an offset of a text. -/
inductive OffsetFault (text : List Char) (offset : Nat) : Failure → Prop where
  | pastEnd : byteCount text < offset →
      OffsetFault text offset (.offsetOutOfBounds offset (byteCount text))
  | inside : InsideCharacter text offset → OffsetFault text offset (.offsetInsideCharacter offset)

namespace OffsetFault

variable {text : List Char} {offset length n : Nat} {failure : Failure}

theorem outOfBounds_iff :
    OffsetFault text offset (.offsetOutOfBounds offset (byteCount text)) ↔
      byteCount text < offset := by
  constructor
  · rintro ⟨hlt⟩
    assumption
  · exact pastEnd

theorem insideCharacter_iff :
    OffsetFault text offset (.offsetInsideCharacter offset) ↔ InsideCharacter text offset := by
  constructor
  · rintro ⟨hlt⟩
    assumption
  · exact inside

theorem not_isBoundary (h : OffsetFault text offset failure) : ¬ IsBoundary text offset := by
  cases h with
  | pastEnd hlt => exact not_isBoundary_iff.mpr (.inl hlt)
  | inside hinside => exact not_isBoundary_iff.mpr (.inr hinside)

theorem exists_of_not_isBoundary (h : ¬ IsBoundary text offset) :
    ∃ failure, OffsetFault text offset failure := by
  obtain hlt | hinside := not_isBoundary_iff.mp h
  · exact ⟨_, pastEnd hlt⟩
  · exact ⟨_, inside hinside⟩

end OffsetFault

/-! ## Calls -/

namespace Patch

variable {p q : Patch} {text : List Char} {s : Sheet} {offset length : Nat} {failure : Failure}

/-- Checking an offset finds what is wrong with it. -/
theorem check_eq_error_iff :
    p.check offset = .error failure ↔ OffsetFault p.chain.source offset failure := by
  constructor
  · intro h
    rw [check] at h
    split at h
    · next hlt =>
        cases h
        exact .pastEnd hlt
    · next hlt =>
        split at h
        · next hcut =>
            cases h
            have hnot : ¬ IsBoundary p.chain.source offset := by
              rw [← isSome_cut?_iff, Option.isNone_iff_eq_none.mp hcut]
              simp
            exact .inside ((not_isBoundary_iff.mp hnot).resolve_left hlt)
        · contradiction
  · intro h
    obtain ⟨fault, hfault⟩ := exists_check_eq_error h.not_isBoundary
    rw [check] at hfault ⊢
    cases h with
    | pastEnd hlt => rw [size, if_pos hlt]
    | inside hinside =>
        have hle : ¬ p.size < offset := Nat.not_lt_of_lt hinside.lt
        rw [if_neg hle] at hfault ⊢
        split at hfault
        · next hcut => rw [if_pos hcut]
        · contradiction

theorem insertLeft_eq_error_iff (hp : p.Shows text s) (new : String) :
    p.insertLeft offset new = .error failure ↔ OffsetFault text offset failure := by
  rw [insertLeft, edit_eq_error_iff, check_eq_error_iff, hp.source]

theorem insertRight_eq_error_iff (hp : p.Shows text s) (new : String) :
    p.insertRight offset new = .error failure ↔ OffsetFault text offset failure := by
  rw [insertRight, edit_eq_error_iff, check_eq_error_iff, hp.source]

/-- A removal looks for an overflow, then at its start, then at its end. -/
theorem remove_eq_error_iff (hp : p.Shows text s) :
    p.remove offset length = .error failure ↔
      maxOffset < offset + length ∧ failure = .offsetOutOfBounds maxOffset (byteCount text) ∨
        offset + length ≤ maxOffset ∧ (OffsetFault text offset failure ∨
          IsBoundary text offset ∧ OffsetFault text (offset + length) failure) := by
  obtain rfl := hp.source
  rw [remove]
  by_cases hmax : maxOffset < offset + length
  · simp [hmax, Nat.not_le_of_lt hmax, size, eq_comm]
  · rw [if_neg hmax, ← check_eq_error_iff, ← check_eq_error_iff, ← check_eq_ok_iff]
    cases hstart : p.check offset with
    | error fault => simp [hmax, Nat.le_of_not_lt hmax, bind, Except.bind]
    | ok _ =>
        cases hstop : p.check (offset + length) with
        | error fault => simp [hmax, Nat.le_of_not_lt hmax, bind, Except.bind]
        | ok _ =>
            simp only [hmax, bind, Except.bind]
            split <;> simp

/-- A removal of nothing succeeds at the boundaries that are numbers an offset can have, and
changes nothing. -/
theorem remove_zero_eq_ok_iff (hp : p.Shows text s) :
    p.remove offset 0 = .ok q ↔ q = p ∧ offset ≤ maxOffset ∧ IsBoundary text offset := by
  obtain rfl := hp.source
  constructor
  · intro h
    obtain ⟨hmax, hstart, hstop⟩ := (exists_apply_iff hp (.remove offset 0)).mp ⟨q, h⟩
    rw [remove_eq_ok hmax hstart hstop, if_pos rfl] at h
    cases h
    exact ⟨rfl, hmax, hstart⟩
  · rintro ⟨rfl, hmax, hstart⟩
    rw [@remove_eq_ok q offset 0 hmax hstart hstart, if_pos rfl]

theorem exists_remove_eq_error_iff (hp : p.Shows text s) :
    (∃ failure, p.remove offset length = .error failure) ↔
      maxOffset < offset + length ∨
        (byteCount text < offset ∨ InsideCharacter text offset) ∨
        (byteCount text < offset + length ∨ InsideCharacter text (offset + length)) := by
  have hfault : ∀ n, (∃ failure, OffsetFault text n failure) ↔ ¬ IsBoundary text n := fun n =>
    ⟨fun ⟨_, h⟩ => h.not_isBoundary, OffsetFault.exists_of_not_isBoundary⟩
  simp only [remove_eq_error_iff hp, exists_or, exists_and_left, exists_eq, hfault, and_true,
    ← Nat.not_lt, ← not_isBoundary_iff]
  tauto

/-- What a call in place leaves when the patch answers it: new chunks, or the old ones. -/
def answer (p : Patch) : Except Failure Patch → EStateM.Result Failure (List Chunk) Unit
  | .ok q => .ok () q.chunks
  | .error failure => .error failure p.chunks

theorem perform_eq_answer (hp : p.Shows text s) (call : PatchCall) :
    call.perform text p.chunks = p.answer (call.apply p) := by
  cases h : call.apply p with
  | ok q => exact perform_of_ok hp h
  | error failure => exact perform_of_error hp.source h

/-- **Calls are made whole or not at all.**  After any calls on a text, an insertion is refused
exactly past the end of the text and inside a character.  A removal is refused exactly if its end
is no number that an offset can have, or one of its two offsets is past the end or inside a
character.  A call in place is answered as the patch answers it; when it is refused all chunks are
as they were, and so they are when nothing is removed. -/
theorem calls_all_or_nothing (text : String) (calls : List PatchCall) :
    (∀ (offset : Nat) (new : String) (call : PatchCall),
      call = .insertLeft offset new ∨ call = .insertRight offset new →
        (call.apply (run text calls) = .error (.offsetOutOfBounds offset (byteLength text)) ↔
          byteLength text < offset) ∧
        (call.apply (run text calls) = .error (.offsetInsideCharacter offset) ↔
          InsideCharacter text.toList offset) ∧
        ((∃ q, call.apply (run text calls) = .ok q) ↔
          offset ≤ byteLength text ∧ ¬ InsideCharacter text.toList offset)) ∧
      (∀ offset length : Nat,
        (∃ failure, (run text calls).remove offset length = .error failure) ↔
          2 ^ 64 ≤ offset + length ∨
            (byteLength text < offset ∨ InsideCharacter text.toList offset) ∨
            (byteLength text < offset + length ∨
              InsideCharacter text.toList (offset + length))) ∧
      (∀ call : PatchCall, call.perform text.toList (Chunk.run text calls) =
        (run text calls).answer (call.apply (run text calls))) ∧
      (∀ (call : PatchCall) (failure : Failure), call.apply (run text calls) = .error failure →
        call.perform text.toList (Chunk.run text calls) = .error failure (Chunk.run text calls)) ∧
      ∀ offset : Nat, offset < 2 ^ 64 → IsBoundary text.toList offset →
        (PatchCall.remove offset 0).perform text.toList (Chunk.run text calls) =
          .ok () (Chunk.run text calls) := by
  have hp := shows_run text calls
  have hmax : ∀ n, maxOffset < n ↔ 2 ^ 64 ≤ n := by
    intro n
    have hvalue : maxOffset = 2 ^ 64 - 1 := rfl
    omega
  refine ⟨?_, ?_, ?_, ?_, ?_⟩
  · intro offset new call hcall
    have herror : ∀ failure, call.apply (run text calls) = .error failure ↔
        OffsetFault text.toList offset failure := by
      intro failure
      obtain rfl | rfl := hcall
      · exact insertLeft_eq_error_iff hp new
      · exact insertRight_eq_error_iff hp new
    have hok : (∃ q, call.apply (run text calls) = .ok q) ↔ IsBoundary text.toList offset := by
      rw [exists_apply_iff hp call]
      obtain rfl | rfl := hcall
      · rfl
      · rfl
    rw [herror, herror, hok]
    exact ⟨OffsetFault.outOfBounds_iff, OffsetFault.insideCharacter_iff, isBoundary_iff⟩
  · intro offset length
    rw [exists_remove_eq_error_iff hp, hmax]
    rfl
  · intro call
    rw [Chunk.run_eq, perform_eq_answer hp]
  · intro call failure hfailure
    rw [Chunk.run_eq, perform_eq_answer hp, hfailure]
    rfl
  · intro offset hlt hb
    have hok := (remove_zero_eq_ok_iff hp).mpr
      ⟨rfl, Nat.le_of_not_lt (fun h => absurd ((hmax _).mp h) (Nat.not_le_of_lt hlt)), hb⟩
    have hanswer := perform_eq_answer hp (.remove offset 0)
    rw [Chunk.run_eq, hanswer, PatchCall.apply, hok]
    rfl

/-- A removal that starts between two characters and ends inside one, in a text that is cut
already, and a removal of nothing at its end. -/
theorem calls_all_or_nothing_cut :
    (PatchCall.remove 2 2).perform "é€".toList (Chunk.run "é€" [.insertLeft 2 "x", .remove 0 9]) =
        .error (.offsetInsideCharacter 4) (Chunk.run "é€" [.insertLeft 2 "x", .remove 0 9]) ∧
      (PatchCall.remove 5 0).perform "é€".toList (Chunk.run "é€" [.insertLeft 2 "x", .remove 0 9]) =
        .ok () (Chunk.run "é€" [.insertLeft 2 "x", .remove 0 9]) := by
  have hall := calls_all_or_nothing "é€" [.insertLeft 2 "x", .remove 0 9]
  have herror : (PatchCall.remove 2 2).apply (run "é€" [.insertLeft 2 "x", .remove 0 9]) =
      .error (.offsetInsideCharacter 4) := by
    rfl
  exact ⟨hall.2.2.2.1 _ _ herror, hall.2.2.2.2 5 (by decide) (by decide)⟩

end Patch

end TemplateMigration
