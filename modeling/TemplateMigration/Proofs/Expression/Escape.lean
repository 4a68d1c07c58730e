import TemplateMigration.Expression.Literal
import TemplateMigration.Proofs.Expression.Pattern

/-!
# TemplateMigration.Proofs.Expression.Escape

The items of a string body as they are written.

`StringItem.Spelled` relates a body to its items.  Reading a body gives the items that it spells
(`read_of_spelled`); the first escape that is not followed by four hexadecimal digits stops it
(`read_of_malformed`); and a body without a lone backslash at its end is one or the other
(`spelled_or_malformed`).
-/

namespace TemplateMigration

namespace StringItem

/-- A body and the items it spells: a character other than the backslash for itself, a backslash
with a character other than `u` for the character escaped, a backslash and `u` with four
hexadecimal digits for a unit. -/
inductive Spelled : List Char → List StringItem → Prop
  | nil : Spelled [] []
  | plain {c : Char} {body : List Char} {items : List StringItem} (hescape : c ≠ '\\')
      (hbody : Spelled body items) : Spelled (c :: body) (character c :: items)
  | escape {c : Char} {body : List Char} {items : List StringItem} (hunit : c ≠ 'u')
      (hbody : Spelled body items) :
      Spelled ('\\' :: c :: body) (character (escaped c) :: items)
  | unit {a b c d : Char} {n : Nat} {body : List Char} {items : List StringItem}
      (hunit : unit? a b c d = some n) (hbody : Spelled body items) :
      Spelled ('\\' :: 'u' :: a :: b :: c :: d :: body) (unit n :: items)

/-- A text starts with four hexadecimal digits. -/
def StartsWithUnit (text : List Char) : Prop :=
  ∃ digits rest, text = digits ++ rest ∧ digits.length = 4 ∧ ∀ c ∈ digits, (hexDigit? c).isSome

/-- The first escape of a unit in a body that is not followed by four hexadecimal digits: what
stands before its backslash, and what follows its `u`. -/
def Malformed (body before after : List Char) : Prop :=
  body = before ++ '\\' :: 'u' :: after ∧ (∃ items, Spelled before items) ∧ ¬ StartsWithUnit after

theorem isSome_hexDigit?_of_unit? {a b c d : Char} {n : Nat} (h : unit? a b c d = some n) :
    ∀ x ∈ [a, b, c, d], (hexDigit? x).isSome := by
  unfold unit? at h
  split at h
  · next ha hb hc hd => simp [ha, hb, hc, hd]
  · contradiction

theorem startsWithUnit_iff {text : List Char} :
    StartsWithUnit text ↔
      ∃ a b c d rest n, text = a :: b :: c :: d :: rest ∧ unit? a b c d = some n := by
  constructor
  · rintro ⟨digits, rest, rfl, hlength, hdigits⟩
    match digits, hlength with
    | [a, b, c, d], _ =>
        simp only [List.mem_cons, List.not_mem_nil, or_false, forall_eq_or_imp, forall_eq,
          Option.isSome_iff_exists] at hdigits
        obtain ⟨⟨w, hw⟩, ⟨x, hx⟩, ⟨y, hy⟩, ⟨z, hz⟩⟩ := hdigits
        exact ⟨a, b, c, d, rest, _, rfl, by rw [unit?, hw, hx, hy, hz]⟩
  · rintro ⟨a, b, c, d, rest, n, rfl, hunit⟩
    exact ⟨[a, b, c, d], rest, rfl, rfl, isSome_hexDigit?_of_unit? hunit⟩

theorem utf8Size_of_isSome_hexDigit? {c : Char} (h : (hexDigit? c).isSome) : c.utf8Size = 1 := by
  have hle : c ≤ 'f' := by
    unfold hexDigit? at h
    split at h
    · next hdigit =>
        rw [Char.isDigit, Bool.and_eq_true, decide_eq_true_eq, decide_eq_true_eq] at hdigit
        exact Nat.le_trans hdigit.2 (by decide)
    · split at h
      · next hlower => exact hlower.2
      · split at h
        · next hupper => exact Nat.le_trans hupper.2 (by decide)
        · contradiction
  exact if_pos (Nat.le_trans hle (by decide))

theorem ne_backslash_of_isSome_hexDigit? {c : Char} (h : (hexDigit? c).isSome) : c ≠ '\\' := by
  rintro rfl
  contradiction

theorem ne_backslash_of_unit? {a b c d : Char} {n : Nat} (h : unit? a b c d = some n) :
    ∀ x ∈ [a, b, c, d], x ≠ '\\' :=
  fun x hx => ne_backslash_of_isSome_hexDigit? (isSome_hexDigit?_of_unit? h x hx)

/-- Two bodies in a row spell their items in a row. -/
theorem Spelled.append {xs ys : List Char} {is js : List StringItem} (hx : Spelled xs is)
    (hy : Spelled ys js) : Spelled (xs ++ ys) (is ++ js) := by
  induction hx with
  | nil => exact hy
  | plain hescape _ ih => exact .plain hescape ih
  | escape hunit _ ih => exact .escape hunit ih
  | unit hunit _ ih => exact .unit hunit ih

/-! ## Reading -/

/-- A plain character is read as it is. -/
theorem read_plain {c : Char} (h : c ≠ '\\') (offset : Nat) (body : List Char) :
    read offset (c :: body) = (read (offset + c.utf8Size) body).map (character c :: ·) := by
  rw [read.eq_def]
  simp [h]

/-- An escaped letter is read as what it stands for. -/
theorem read_escape {c : Char} (h : c ≠ 'u') (offset : Nat) (body : List Char) :
    read offset ('\\' :: c :: body) =
      (read (offset + 1 + c.utf8Size) body).map (character (escaped c) :: ·) := by
  rw [read.eq_def]
  simp

/-- A `\u` escape is read as its code unit. -/
theorem read_unit {a b c d : Char} {n : Nat} (h : unit? a b c d = some n) (offset : Nat)
    (body : List Char) :
    read offset ('\\' :: 'u' :: a :: b :: c :: d :: body) =
      (read (offset + 6) body).map (unit n :: ·) := by
  rw [read.eq_def]
  simp [h]

/-- A `\u` without four hexadecimal digits is refused. -/
theorem read_malformed {after : List Char} (h : ¬ StartsWithUnit after) (offset : Nat) :
    read offset ('\\' :: 'u' :: after) =
      .error (.invalidUnicodeEscape offset (String.ofList (after.take 4))) := by
  rw [read.eq_def]
  simp only [↓reduceIte]
  split
  · next a b c d rest =>
      cases hunit : unit? a b c d with
      | none => rfl
      | some n => exact absurd (startsWithUnit_iff.mpr ⟨a, b, c, d, rest, n, rfl, hunit⟩) h
  · rfl

/-- The items that a body spells are read, and reading goes on after them. -/
theorem read_append {before : List Char} {items : List StringItem} (h : Spelled before items)
    (offset : Nat) (after : List Char) :
    read offset (before ++ after) =
      (read (offset + byteCount before) after).map (items ++ ·) := by
  induction h generalizing offset with
  | nil =>
      rw [List.nil_append, byteCount_nil, Nat.add_zero]
      cases read offset after <;> rfl
  | @plain c body items hescape _ ih =>
      rw [List.cons_append, read_plain hescape, ih, byteCount_cons, Nat.add_assoc]
      cases read (offset + (c.utf8Size + byteCount body)) after <;> rfl
  | @escape c body items hunit _ ih =>
      have hsize : offset + 1 + c.utf8Size + byteCount body =
          offset + byteCount ('\\' :: c :: body) := by
        have : '\\'.utf8Size = 1 := rfl
        simp only [byteCount_cons]
        omega
      rw [List.cons_append, List.cons_append, read_escape hunit, ih, hsize]
      cases read (offset + byteCount ('\\' :: c :: body)) after <;> rfl
  | @unit a b c d n body items hunit _ ih =>
      have hsize : offset + 6 + byteCount body =
          offset + byteCount ('\\' :: 'u' :: a :: b :: c :: d :: body) := by
        have hdigits := isSome_hexDigit?_of_unit? hunit
        simp only [List.mem_cons, List.not_mem_nil, or_false, forall_eq_or_imp, forall_eq]
          at hdigits
        have : '\\'.utf8Size = 1 ∧ 'u'.utf8Size = 1 := ⟨rfl, rfl⟩
        simp only [byteCount_cons, utf8Size_of_isSome_hexDigit?, hdigits]
        omega
      simp only [List.cons_append]
      rw [read_unit hunit, ih, hsize]
      cases read (offset + byteCount ('\\' :: 'u' :: a :: b :: c :: d :: body)) after <;> rfl

/-- A body is read as the items it spells. -/
theorem read_of_spelled {body : List Char} {items : List StringItem} (h : Spelled body items)
    (offset : Nat) : read offset body = .ok items := by
  have hread := read_append h offset []
  rw [List.append_nil] at hread
  simpa [read, Except.map] using hread

/-- A malformed escape stops the reading at its backslash. -/
theorem read_of_malformed {body before after : List Char} (h : Malformed body before after)
    (offset : Nat) :
    read offset body = .error
      (.invalidUnicodeEscape (offset + byteCount before) (String.ofList (after.take 4))) := by
  obtain ⟨rfl, ⟨items, hitems⟩, hafter⟩ := h
  rw [read_append hitems, read_malformed hafter]
  rfl

/-! ## Every body is spelled or malformed -/

open Computability Lexeme

theorem cons_mem_bodyItem_kstar {quote c : Char} {body : List Char} :
    c :: body ∈ (bodyItem quote)∗ ↔
      ((c ≠ quote ∧ c ≠ '\\') ∧ body ∈ (bodyItem quote)∗) ∨
        (c = '\\' ∧ ∃ d rest, body = d :: rest ∧ rest ∈ (bodyItem quote)∗) := by
  have h := @cons_mem_bodyItem_kstar_mul quote c body 1
  rw [mul_one] at h
  rw [h]
  exact or_iff_right (by simp)

/-- Characters that do not escape stand for themselves, so none of them is the quote. -/
theorem append_mem_bodyItem_kstar {quote : Char} {xs body : List Char} (hxs : ∀ x ∈ xs, x ≠ '\\') :
    xs ++ body ∈ (bodyItem quote)∗ ↔
      (∀ x ∈ xs, x ≠ quote) ∧ body ∈ (bodyItem quote)∗ := by
  induction xs with
  | nil => simp
  | cons x xs ih =>
      have hx := hxs x (by simp)
      rw [List.cons_append, cons_mem_bodyItem_kstar, ih fun y hy => hxs y (by simp [hy])]
      simp [hx, and_assoc]

/-- What is spelled or malformed stays so after an item. -/
theorem spelled_or_malformed_append {front body : List Char} {items : List StringItem}
    (hfront : Spelled front items)
    (h : (∃ items, Spelled body items) ∨ ∃ before after, Malformed body before after) :
    (∃ items, Spelled (front ++ body) items) ∨
      ∃ before after, Malformed (front ++ body) before after := by
  obtain ⟨rest, hrest⟩ | ⟨before, after, rfl, ⟨rest, hrest⟩, hafter⟩ := h
  · exact .inl ⟨_, hfront.append hrest⟩
  · exact .inr ⟨front ++ before, after, by simp, ⟨_, hfront.append hrest⟩, hafter⟩

/-- The body of a string spells its items or has a malformed escape.  An escape of a unit takes
four more characters than the item that `bodyItem` sees, so the induction is on the length. -/
theorem spelled_or_malformed {quote : Char} (body : List Char) (h : body ∈ (bodyItem quote)∗) :
    (∃ items, Spelled body items) ∨ ∃ before after, Malformed body before after := by
  induction hn : body.length using Nat.strong_induction_on generalizing body with
  | _ n ih =>
      subst hn
      cases body with
      | nil => exact .inl ⟨[], .nil⟩
      | cons c cs =>
          obtain ⟨⟨-, hescape⟩, hcs⟩ | ⟨rfl, d, rest, rfl, hrest⟩ := cons_mem_bodyItem_kstar.mp h
          · exact spelled_or_malformed_append (.plain hescape .nil) (ih _ (by simp) cs hcs rfl)
          · by_cases hunit : d = 'u'
            · subst hunit
              by_cases hstart : StartsWithUnit rest
              · obtain ⟨a, b, c, d, rest, n, rfl, hunit⟩ := startsWithUnit_iff.mp hstart
                have hbody := (append_mem_bodyItem_kstar (ne_backslash_of_unit? hunit)).mp hrest
                exact spelled_or_malformed_append (.unit hunit .nil)
                  (ih _ (by simp only [List.length_cons]; omega) rest hbody.2 rfl)
              · exact .inr ⟨[], rest, rfl, ⟨[], .nil⟩, hstart⟩
            · exact spelled_or_malformed_append (.escape hunit .nil)
                (ih _ (by simp only [List.length_cons]; omega) rest hrest rfl)

end StringItem

end TemplateMigration
