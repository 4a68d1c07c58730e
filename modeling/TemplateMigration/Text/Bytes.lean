/-!
# TemplateMigration.Text.Bytes

Offsets into a text are counted in bytes of its UTF-8 form, while the text itself is
handled as a list of characters.  This module holds the measure (`byteCount`) and the
cut at a byte offset (`cut?`), which exists exactly at character boundaries.
-/

namespace TemplateMigration

/-- The number of bytes a text takes in UTF-8. -/
def byteCount : List Char → Nat
  | [] => 0
  | c :: cs => c.utf8Size + byteCount cs

@[simp] theorem byteCount_nil : byteCount [] = 0 := rfl

@[simp] theorem byteCount_cons (c : Char) (cs : List Char) :
    byteCount (c :: cs) = c.utf8Size + byteCount cs := rfl

@[simp] theorem byteCount_append (xs ys : List Char) :
    byteCount (xs ++ ys) = byteCount xs + byteCount ys := by
  induction xs with
  | nil => simp
  | cons c cs ih => simp [ih, Nat.add_assoc]

/-- The number of bytes a string takes in UTF-8. -/
def byteLength (s : String) : Nat := byteCount s.toList

@[simp] theorem byteLength_ofList (cs : List Char) :
    byteLength (String.ofList cs) = byteCount cs := by
  simp [byteLength]

/-- Cut a text at a byte offset.  There is no cut past the end or inside a character. -/
def cut? : Nat → List Char → Option (List Char × List Char)
  | 0, cs => some ([], cs)
  | _ + 1, [] => none
  | n + 1, c :: cs =>
      if c.utf8Size ≤ n + 1 then
        (cut? (n + 1 - c.utf8Size) cs).map fun (before, after) => (c :: before, after)
      else none

/-- The part of a text from one byte offset up to another; empty unless both are character
boundaries in order. -/
def slice (start stop : Nat) (cs : List Char) : List Char :=
  match cut? start cs with
  | none => []
  | some (_, rest) =>
      match cut? (stop - start) rest with
      | none => []
      | some (middle, _) => middle

/-- A cut divides the text and its first part takes exactly the offset's bytes. -/
theorem eq_append_of_cut? {n : Nat} {cs before after : List Char}
    (h : cut? n cs = some (before, after)) : cs = before ++ after ∧ byteCount before = n := by
  induction cs generalizing n before after with
  | nil =>
      cases n with
      | zero => simp only [cut?, Option.some.injEq, Prod.mk.injEq] at h; simp [← h.1, ← h.2]
      | succ n => simp [cut?] at h
  | cons c cs ih =>
      cases n with
      | zero => simp only [cut?, Option.some.injEq, Prod.mk.injEq] at h; simp [← h.1, ← h.2]
      | succ n =>
          simp only [cut?] at h
          split at h
          · rename_i hle
            rw [Option.map_eq_some_iff] at h
            obtain ⟨⟨l, r⟩, hcut, heq⟩ := h
            simp only [Prod.mk.injEq] at heq
            obtain ⟨h1, h2⟩ := ih hcut
            obtain ⟨rfl, rfl⟩ := heq
            exact ⟨by simp [h1], by simp [h2]; omega⟩
          · simp at h

end TemplateMigration
