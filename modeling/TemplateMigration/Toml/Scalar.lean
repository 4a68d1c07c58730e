import TemplateMigration.Expression.Literal
import TemplateMigration.Toml.Value

/-!
# TemplateMigration.Toml.Scalar

The parts of a TOML document that hold no other values: comments, strings in their four forms,
numbers, truth values and dates.  A reader gives what it read and the rest of the text, or nothing
when the text is not well formed.
-/

namespace TemplateMigration.Toml

/-! ## Blanks and comments -/

/-- Space and tab. -/
def isBlank (c : Char) : Bool := c == ' ' || c == '\t'

/-- Control characters, which stand nowhere as themselves; the tab is not counted. -/
def isControl (c : Char) : Bool := (c.toNat < 0x20 && c != '\t') || c.toNat == 0x7f

/-- A text without the blanks at its start. -/
def skipBlanks (cs : List Char) : List Char := cs.dropWhile isBlank

/-- What follows the line end at the start of a text. -/
def afterNewline? : List Char → Option (List Char)
  | '\n' :: rest => some rest
  | '\r' :: '\n' :: rest => some rest
  | _ => none

/-- Skip blanks, line ends and comments; the flag tells whether the text starts in a comment. -/
def skipTrivia : Bool → List Char → Option (List Char)
  | _, [] => some []
  | inComment, c :: cs =>
      if c = '\n' then skipTrivia false cs
      else if c = '\r' then
        match cs with
        | '\n' :: rest => skipTrivia false rest
        | _ => none
      else if inComment then if isControl c then none else skipTrivia true cs
      else if isBlank c then skipTrivia false cs
      else if c = '#' then skipTrivia true cs
      else some (c :: cs)

/-- What follows the end of a statement's line: blanks, perhaps a comment, and a line end or the
end of the text. -/
def afterLine? (cs : List Char) : Option (List Char) :=
  let cs := skipBlanks cs
  let cs := if cs.head? = some '#' then cs.dropWhile (!isControl ·) else cs
  if cs.isEmpty then some [] else afterNewline? cs

/-! ## Strings -/

/-- The character of a code point that is a Unicode scalar value. -/
def charOfCode? (n : Nat) : Option Char :=
  if n < 0xd800 ∨ 0xdfff < n ∧ n ≤ 0x10ffff then some (Char.ofNat n) else none

/-- The number written by hexadecimal digits. -/
def hexNumber? (ds : List Char) : Option Nat :=
  ds.foldl (fun n d => n.bind fun n => (StringItem.hexDigit? d).map (n * 16 + ·)) (some 0)

/-- Read an escape after its backslash. -/
def readEscape? : List Char → Option (Char × List Char)
  | [] => none
  | c :: cs =>
      let simple (c : Char) := some (c, cs)
      let coded (digits : Nat) :=
        if (cs.take digits).length < digits then none
        else ((hexNumber? (cs.take digits)).bind charOfCode?).map fun c => (c, cs.drop digits)
      match c with
      | 'b' => simple '\x08'
      | 't' => simple '\t'
      | 'n' => simple '\n'
      | 'f' => simple '\x0c'
      | 'r' => simple '\r'
      | 'e' => simple '\x1b'
      | '"' => simple '"'
      | '\\' => simple '\\'
      | 'x' => coded 2
      | 'u' => coded 4
      | 'U' => coded 8
      | _ => none

/-- Read the body of a string in double quotes up to its closing quote. -/
def readBasic? (cs : List Char) : Option (List Char × List Char) :=
  match cs with
  | [] => none
  | c :: rest =>
      if c = '"' then some ([], rest)
      else if c = '\\' then
        match readEscape? rest with
        | none => none
        | some (e, after) =>
            if _h : after.length ≤ rest.length then
              (readBasic? after).map fun (body, tail) => (e :: body, tail)
            else none
      else if isControl c then none
      else (readBasic? rest).map fun (body, tail) => (c :: body, tail)
termination_by cs.length
decreasing_by
  · simp only [List.length_cons]; omega
  · simp

/-- Read the body of a string in single quotes up to its closing quote. -/
def readLiteral? : List Char → Option (List Char × List Char)
  | [] => none
  | c :: rest =>
      if c = '\'' then some ([], rest)
      else if isControl c then none
      else (readLiteral? rest).map fun (body, tail) => (c :: body, tail)

/-- A text without the blanks and line ends at its start. -/
def skipBlankLines : List Char → List Char
  | [] => []
  | '\r' :: '\n' :: rest => skipBlankLines rest
  | c :: rest => if isBlank c || c == '\n' then skipBlankLines rest else c :: rest

/-- Skip the blanks and line ends that a backslash at the end of a line takes with it; nothing
unless a line end is among them and comes first after blanks. -/
def afterLineContinuation? (cs : List Char) : Option (List Char) :=
  (afterNewline? (skipBlanks cs)).map skipBlankLines

/-- Read the body of a string over several lines up to its three closing quotes.  One or two more
quotes may stand before those, and line ends are kept as they are.  Escapes are read only between
double quotes. -/
def readLines? (quote : Char) (cs : List Char) : Option (List Char × List Char) :=
  match cs with
  | [] => none
  | c :: rest =>
      let more (found after : List Char) :=
        if _h : after.length ≤ rest.length then
          (readLines? quote after).map fun (body, tail) => (found ++ body, tail)
        else none
      if c = quote then
        let n := (rest.takeWhile (· == quote)).length + 1
        if n < 3 then more [c] rest
        else if n ≤ 5 then some (List.replicate (n - 3) quote, rest.drop (n - 1))
        else none
      else if quote = '"' ∧ c = '\\' then
        match afterLineContinuation? rest with
        | some after => more [] after
        | none =>
            match readEscape? rest with
            | none => none
            | some (e, after) => more [e] after
      else
        match afterNewline? (c :: rest) with
        | some after => more ((c :: rest).take (rest.length + 1 - after.length)) after
        | none => if isControl c then none else more [c] rest
termination_by cs.length
decreasing_by simp only [List.length_cons]; omega

/-- Read a string on one line, or over several lines where that is allowed. -/
def readString? (severalLines : Bool) : List Char → Option (String × List Char)
  | [] => none
  | quote :: rest =>
      let finish := Option.map fun (body, tail) => (String.ofList body, tail)
      if quote = '"' ∨ quote = '\'' then
        if severalLines && [quote, quote].isPrefixOf rest then
          let body := rest.drop 2
          finish (readLines? quote ((afterNewline? body).getD body))
        else if quote = '"' then finish (readBasic? rest)
        else finish (readLiteral? rest)
      else none

/-! ## Numbers -/

/-- Read digits with single underscores between them, and give them without. -/
def digits? (isDigit : Char → Bool) : List Char → Option (List Char)
  | [] => none
  | [d] => if isDigit d then some [d] else none
  | d :: e :: rest =>
      if !isDigit d then none
      else if e = '_' then (digits? isDigit rest).map (d :: ·)
      else (digits? isDigit (e :: rest)).map (d :: ·)

/-- The digits of a decimal number; it has no superfluous zero at its start. -/
def decimal? (cs : List Char) : Option (List Char) :=
  (digits? Char.isDigit cs).filter fun ds => ds.length = 1 ∨ ds.head? ≠ some '0'

/-- A text without its sign, and whether it was a minus sign. -/
def splitSign : List Char → Bool × List Char
  | '-' :: rest => (true, rest)
  | '+' :: rest => (false, rest)
  | cs => (false, cs)

/-- The natural number that digits of a base denote. -/
def numberOf (base : Nat) (ds : List Char) : Nat :=
  ds.foldl (fun n d => n * base + (StringItem.hexDigit? d).getD 0) 0

/-- The integers that can be held: those of a signed or an unsigned word of 128 bits. -/
def isInRange (n : Int) : Bool := -(Nat.pow 2 127 : Nat) ≤ n && n < (Nat.pow 2 128 : Nat)

/-- The integer that a word denotes: decimal with a sign, or hexadecimal, octal or binary without
one. -/
def integer? (cs : List Char) : Option Int :=
  let value := match cs with
    | '0' :: 'x' :: rest =>
        (digits? (fun d => (StringItem.hexDigit? d).isSome) rest).map fun ds =>
          (numberOf 16 ds : Int)
    | '0' :: 'o' :: rest =>
        (digits? (fun d => '0' ≤ d && d ≤ '7') rest).map fun ds => (numberOf 8 ds : Int)
    | '0' :: 'b' :: rest =>
        (digits? (fun d => d == '0' || d == '1') rest).map fun ds => (numberOf 2 ds : Int)
    | _ =>
        let (negative, magnitude) := splitSign cs
        (decimal? magnitude).map fun ds =>
          if negative then -(numberOf 10 ds : Int) else numberOf 10 ds
  value.filter isInRange

/-- The power of ten written after the mark of an exponent. -/
def exponent? (cs : List Char) : Option Int :=
  let (negative, magnitude) := splitSign cs
  (digits? Char.isDigit magnitude).map fun ds =>
    if negative then -(natOfDigits ds : Int) else natOfDigits ds

/-- Whether a word is a float: a decimal number with places, an exponent or both, that is not too
large, or one of the words for infinity and for no number. -/
def isFloat (cs : List Char) : Bool :=
  let magnitude := (splitSign cs).2
  let mantissa := magnitude.takeWhile fun c => c != 'e' && c != 'E'
  let exponent := magnitude.drop mantissa.length
  let whole := mantissa.takeWhile (· != '.')
  let places := mantissa.drop whole.length
  let read : Option (Nat × Int) := do
    let whole ← decimal? whole
    let places ← if places.isEmpty then some [] else digits? Char.isDigit places.tail
    let exponent ← if exponent.isEmpty then some 0 else exponent? exponent.tail
    return (natOfDigits (whole ++ places), exponent - (places.length : Int))
  magnitude == ['i', 'n', 'f'] || magnitude == ['n', 'a', 'n'] ||
    (!(places.isEmpty && exponent.isEmpty) &&
      read.any fun (ds, e) => Binary64.ofDecimal ds e != .infinity)

/-! ## Dates -/

/-- Read a number of a given count of digits that lies between two bounds. -/
def readField? (count low high : Nat) (cs : List Char) : Option (Nat × List Char) :=
  let ds := cs.take count
  let n := natOfDigits ds
  if ds.length = count ∧ ds.all Char.isDigit ∧ low ≤ n ∧ n ≤ high then some (n, cs.drop count)
  else none

/-- What follows a given character at the start of a text. -/
def after? (c : Char) (cs : List Char) : Option (List Char) :=
  if cs.head? = some c then some cs.tail else none

/-- The number of days of a month. -/
def daysOfMonth (year month : Nat) : Nat :=
  if month = 2 then if year % 4 = 0 ∧ (year % 100 ≠ 0 ∨ year % 400 = 0) then 29 else 28
  else if month = 4 ∨ month = 6 ∨ month = 9 ∨ month = 11 then 30
  else 31

/-- What follows a calendar date. -/
def afterDate? (cs : List Char) : Option (List Char) := do
  let (year, cs) ← readField? 4 0 9999 cs
  let (month, cs) ← readField? 2 1 12 (← after? '-' cs)
  let (_, cs) ← readField? 2 1 (daysOfMonth year month) (← after? '-' cs)
  return cs

/-- What follows a time of day; its seconds, and their fraction, may be left out. -/
def afterTime? (cs : List Char) : Option (List Char) := do
  let (_, cs) ← readField? 2 0 23 cs
  let (_, cs) ← readField? 2 0 59 (← after? ':' cs)
  match after? ':' cs with
  | none => return cs
  | some cs =>
      let (_, cs) ← readField? 2 0 60 cs
      match after? '.' cs with
      | none => return cs
      | some cs => if cs.head?.any Char.isDigit then some (cs.dropWhile Char.isDigit) else none

/-- Whether a text is the offset of a time zone, or nothing. -/
def isZone (cs : List Char) : Bool :=
  cs.isEmpty || cs == ['Z'] || cs == ['z'] ||
    (((after? '+' cs <|> after? '-' cs).bind (readField? 2 0 23)).any fun (_, cs) =>
      ((after? ':' cs).bind (readField? 2 0 59)).any (·.2.isEmpty))

/-- Whether a word is a date, a time of day, or both with or without a time zone. -/
def isDate (cs : List Char) : Bool :=
  match afterDate? cs with
  | none => (afterTime? cs).any List.isEmpty
  | some [] => true
  | some (mark :: rest) =>
      (mark == 'T' || mark == 't' || mark == ' ') && (afterTime? rest).any isZone

/-! ## Words -/

/-- Whether a character belongs to a number, a truth value or a date. -/
def isWordPart (c : Char) : Bool :=
  c.isAlphanum || c == '+' || c == '-' || c == '_' || c == '.' || c == ':'

/-- The number, truth value or date at the start of a text.  A date goes on after one space when a
time of day follows. -/
def wordOf (cs : List Char) : List Char :=
  let word := cs.takeWhile isWordPart
  match cs.drop word.length with
  | ' ' :: rest =>
      if (afterDate? word).any List.isEmpty && rest.head?.any Char.isDigit then
        word ++ ' ' :: rest.takeWhile isWordPart
      else word
  | _ => word

/-- Read a number, a truth value or a date. -/
def readWord? (cs : List Char) : Option (Value × List Char) :=
  let word := wordOf cs
  let value : Option Value :=
    if word = ['t', 'r', 'u', 'e'] then some (.boolean true)
    else if word = ['f', 'a', 'l', 's', 'e'] then some (.boolean false)
    else
      match integer? word with
      | some n => some (.integer n)
      | none =>
          if isFloat word then some (.float (String.ofList word))
          else if isDate word then some (.date (String.ofList word))
          else none
  value.map fun value => (value, cs.drop word.length)

end TemplateMigration.Toml
