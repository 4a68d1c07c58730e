import TemplateMigration.Expression.Tokens

/-!
# TemplateMigration.Expression.Filter

Filters in an expression: `value | name : argument : argument`.  The search looks at the token
stream only.  A bar starts a filter when an operand or a closing bracket stands before it; a
filter with a missing argument is dropped, and the search goes on after what it took.
-/

namespace TemplateMigration

/-- A filter with its arguments, each one token. -/
structure Filter where
  name : Token
  args : List Token
  deriving DecidableEq, Repr

namespace Filter

/-- All tokens of a filter, the name first. -/
def tokens (f : Filter) : List Token := f.name :: f.args

/-- The byte offset of the filter's name. -/
def start (f : Filter) : Nat := f.name.offset

/-- The byte offset after the filter's last token. -/
def stop (f : Filter) : Nat := ((f.args.getLast?).getD f.name).stop

/-- The filter as written, without blanks: `name:argument:argument`. -/
def chain (f : Filter) : String := ":".intercalate (f.tokens.map Token.text)

/-- Whether a bar after this token can start a filter. -/
def allowsBar (t : Token) : Bool :=
  t.isOperand || ["]", ")", "\"", "'"].contains t.text

/-- Read `: argument` pairs; `none` when a colon has no argument after it.  The rest starts after
the tokens that were taken. -/
def readArgs : List Token → Option (List Token) × List Token
  | [] => (some [], [])
  | [t] => if t.isMark ":" then (none, []) else (some [], [t])
  | t :: arg :: rest =>
      if t.isMark ":" then
        if arg.isOperand then
          let (args, rest) := readArgs rest
          (args.map (arg :: ·), rest)
        else (none, arg :: rest)
      else (some [], t :: arg :: rest)

/-- Read what follows a bar: a name and its arguments. -/
def read : List Token → Option Filter × List Token
  | [] => (none, [])
  | name :: rest =>
      if name.isOperand then
        let (args, rest) := readArgs rest
        (args.map (Filter.mk name), rest)
      else (none, name :: rest)

theorem length_readArgs_le (ts : List Token) : (readArgs ts).2.length ≤ ts.length := by
  fun_induction readArgs ts <;> simp_all
  omega

theorem length_read_le (ts : List Token) : (read ts).2.length ≤ ts.length := by
  cases ts with
  | nil => simp [read]
  | cons t ts =>
      simp only [read]
      split
      · have := length_readArgs_le ts
        simp only [List.length_cons]
        omega
      · simp

/-- Find the filters of a token stream.  `before` is the last token that stands outside every
filter. -/
def findAfter (before : Option Token) (tokens : List Token) : List Filter :=
  match tokens with
  | [] => []
  | t :: rest =>
      if t.isMark "|" then
        if before.any allowsBar then
          let found := read rest
          found.1.toList ++ findAfter before found.2
        else findAfter before rest
      else findAfter (some t) rest
termination_by tokens.length
decreasing_by
  · have := length_read_le rest
    simp only [List.length_cons]
    omega
  · simp
  · simp

/-- The filters of a token stream, in order. -/
def findAll (tokens : List Token) : List Filter := findAfter none tokens

end Filter

end TemplateMigration
