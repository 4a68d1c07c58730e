/-!
# TemplateMigration.Expression.Lexeme

The patterns that the text of a token follows.  Each pattern has one function that gives the
length of its longest match at the start of a text; `Lexeme.longest?` takes the longest of all.
Two patterns stand for faults: a string that is never closed, and a number whose signed exponent
has no digits.
-/

namespace TemplateMigration

/-- The patterns of lexemes. -/
inductive Lexeme where
  | quoted
  | unterminated
  | number
  | danglingExponent
  | identifier
  | punctuation
  | operator
  deriving DecidableEq, Repr

namespace Lexeme

/-! ## Strings -/

/-- Whether a character opens and closes a string. -/
def isQuote (c : Char) : Bool := c == '"' || c == '\''

/-- The length of a string's body with its closing quote; a backslash takes the next character
with it. -/
def closedBody? (quote : Char) : List Char → Option Nat
  | [] => none
  | c :: cs =>
      if c = quote then some 1
      else if c = '\\' then
        match cs with
        | [] => none
        | _ :: rest => (closedBody? quote rest).map (· + 2)
      else (closedBody? quote cs).map (· + 1)

/-- The length of a string's body up to its closing quote or the end of the text. -/
def openBody (quote : Char) : List Char → Nat
  | [] => 0
  | c :: cs =>
      if c = quote then 0
      else if c = '\\' then
        match cs with
        | [] => 1
        | _ :: rest => openBody quote rest + 2
      else openBody quote cs + 1

/-- The length of a closed string. -/
def quoted? : List Char → Option Nat
  | [] => none
  | c :: cs => if isQuote c then (closedBody? c cs).map (· + 1) else none

/-- The length of a string without its closing quote. -/
def unterminated? : List Char → Option Nat
  | [] => none
  | c :: cs => if isQuote c then some (openBody c cs + 1) else none

/-! ## Numbers -/

/-- The number of decimal digits at the start of a text. -/
def digits (cs : List Char) : Nat := (cs.takeWhile Char.isDigit).length

/-- The length of the digits of a number with their point: digits with an optional point and
digits, or a point with digits. -/
def mantissa? (cs : List Char) : Option Nat :=
  let whole := digits cs
  match cs.drop whole with
  | '.' :: rest => if whole = 0 ∧ digits rest = 0 then none else some (whole + 1 + digits rest)
  | _ => if whole = 0 then none else some whole

/-- Whether a character introduces an exponent. -/
def isExponentMark (c : Char) : Bool := c == 'e' || c == 'E'

/-- Whether a character is a sign. -/
def isSign (c : Char) : Bool := c == '+' || c == '-'

/-- The length of the exponent at the start of a text; zero when there is none with digits. -/
def exponent : List Char → Nat
  | [] => 0
  | e :: cs =>
      if isExponentMark e then
        match cs with
        | [] => 0
        | s :: rest =>
            if isSign s then (if digits rest = 0 then 0 else digits rest + 2)
            else (if digits cs = 0 then 0 else digits cs + 1)
      else 0

/-- The length of a number. -/
def number? (cs : List Char) : Option Nat :=
  (mantissa? cs).map fun n => n + exponent (cs.drop n)

/-- The length of a number up to the sign of its exponent. -/
def danglingExponent? (cs : List Char) : Option Nat :=
  (mantissa? cs).bind fun n =>
    match cs.drop n with
    | e :: s :: _ => if isExponentMark e && isSign s then some (n + 2) else none
    | _ => none

/-! ## Names and marks -/

/-- Whether a character starts an identifier. -/
def isIdentifierStart (c : Char) : Bool := c.isAlpha || c == '_' || c == '$'

/-- Whether a character continues an identifier. -/
def isIdentifierPart (c : Char) : Bool := isIdentifierStart c || c.isDigit

/-- The length of an identifier. -/
def identifier? : List Char → Option Nat
  | [] => none
  | c :: cs =>
      if isIdentifierStart c then some ((cs.takeWhile isIdentifierPart).length + 1) else none

/-- The punctuation marks, each one character. -/
def punctuationMarks : List Char := ['(', ')', '\x7b', '\x7d', '[', ']', '.', ',', ';', ':', '?']

/-- The length of a punctuation mark. -/
def punctuation? : List Char → Option Nat
  | [] => none
  | c :: _ => if punctuationMarks.contains c then some 1 else none

/-- The operators, longer ones before their own beginnings. -/
def operators : List (List Char) :=
  [['=', '=', '='], ['!', '=', '='], ['=', '='], ['!', '='], ['<', '='], ['>', '='], ['&', '&'],
   ['|', '|'], ['!'], ['='], ['|'], ['+'], ['-'], ['*'], ['/'], ['%'], ['<'], ['>']]

/-- The length of an operator. -/
def operator? (cs : List Char) : Option Nat :=
  (operators.find? (·.isPrefixOf cs)).map List.length

/-! ## Longest match -/

/-- The length of the longest match of one pattern at the start of a text. -/
def matchLength? : Lexeme → List Char → Option Nat
  | quoted => quoted?
  | unterminated => unterminated?
  | number => number?
  | danglingExponent => danglingExponent?
  | identifier => identifier?
  | punctuation => punctuation?
  | operator => operator?

/-- All patterns. -/
def all : List Lexeme :=
  [quoted, unterminated, number, danglingExponent, identifier, punctuation, operator]

/-- The longer of two matches, the first when they are equally long. -/
def longer : Option (Lexeme × Nat) → Option (Lexeme × Nat) → Option (Lexeme × Nat)
  | none, m => m
  | m, none => m
  | some (p, n), some (q, k) => if n < k then some (q, k) else some (p, n)

/-- The pattern with the longest match at the start of a text, and that match's length. -/
def longest? (cs : List Char) : Option (Lexeme × Nat) :=
  all.foldl (fun best p => longer best ((matchLength? p cs).map fun n => (p, n))) none

/-! ## A lexeme is never empty -/

theorem pos_of_mantissa? {cs : List Char} {n : Nat} (h : mantissa? cs = some n) : 0 < n := by
  simp only [mantissa?] at h
  split at h <;> split at h <;> simp_all <;> omega

theorem pos_of_matchLength? {p : Lexeme} {cs : List Char} {n : Nat}
    (h : matchLength? p cs = some n) : 0 < n := by
  cases p with
  | quoted =>
      cases cs <;> simp only [matchLength?, quoted?] at h
      · simp at h
      · split at h
        · rw [Option.map_eq_some_iff] at h; obtain ⟨k, _, rfl⟩ := h; omega
        · simp at h
  | unterminated =>
      cases cs <;> simp only [matchLength?, unterminated?] at h
      · simp at h
      · split at h <;> simp at h; omega
  | number =>
      simp only [matchLength?, number?, Option.map_eq_some_iff] at h
      obtain ⟨k, hk, rfl⟩ := h
      have := pos_of_mantissa? hk
      omega
  | danglingExponent =>
      simp only [matchLength?, danglingExponent?, Option.bind_eq_some_iff] at h
      obtain ⟨k, _, h⟩ := h
      split at h
      · split at h <;> simp at h; omega
      · simp at h
  | identifier =>
      cases cs <;> simp only [matchLength?, identifier?] at h
      · simp at h
      · split at h <;> simp at h; omega
  | punctuation =>
      cases cs <;> simp only [matchLength?, punctuation?] at h
      · simp at h
      · split at h <;> simp at h; omega
  | operator =>
      simp only [matchLength?, operator?, Option.map_eq_some_iff] at h
      obtain ⟨op, hop, rfl⟩ := h
      have hmem := List.mem_of_find?_eq_some hop
      have : ∀ op ∈ operators, 0 < op.length := by decide
      exact this op hmem

theorem eq_or_eq_of_longer {a b : Option (Lexeme × Nat)} {m : Lexeme × Nat}
    (h : longer a b = some m) : a = some m ∨ b = some m := by
  unfold longer at h
  split at h
  · exact .inr h
  · exact .inl h
  · split at h
    · exact .inr h
    · exact .inl h

/-- The longest match is a match of its pattern. -/
theorem matchLength?_of_longest? {cs : List Char} {p : Lexeme} {n : Nat}
    (h : longest? cs = some (p, n)) : matchLength? p cs = some n := by
  have aux : ∀ (ps : List Lexeme) (best : Option (Lexeme × Nat)),
      (∀ q k, best = some (q, k) → matchLength? q cs = some k) →
      ps.foldl (fun best p => longer best ((matchLength? p cs).map fun n => (p, n))) best
        = some (p, n) →
      matchLength? p cs = some n := by
    intro ps
    induction ps with
    | nil => intro best hb h; exact hb p n h
    | cons q qs ih =>
        intro best hb h
        refine ih _ ?_ h
        intro r k hr
        rcases eq_or_eq_of_longer hr with hr | hr
        · exact hb r k hr
        · rw [Option.map_eq_some_iff] at hr
          obtain ⟨j, hj, heq⟩ := hr
          simp only [Prod.mk.injEq] at heq
          obtain ⟨rfl, rfl⟩ := heq
          exact hj
  exact aux all none (by simp) h

/-- The longest match takes at least one character. -/
theorem pos_of_longest? {cs : List Char} {p : Lexeme} {n : Nat}
    (h : longest? cs = some (p, n)) : 0 < n :=
  pos_of_matchLength? (matchLength?_of_longest? h)

end Lexeme

end TemplateMigration
