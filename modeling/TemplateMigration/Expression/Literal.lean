import TemplateMigration.Expression.Token

/-!
# TemplateMigration.Expression.Literal

The values of constants.  The body of a string literal is read as a sequence of characters and
UTF-16 units (`StringItem`), and the units are then joined: a high and a low surrogate in a row
make one character, and a surrogate on its own becomes U+FFFD.  A number is read as an exact
decimal.
-/

namespace TemplateMigration

/-! ## Strings -/

/-- One item of a string body: a character, or a UTF-16 unit given by its number. -/
inductive StringItem where
  | character (c : Char)
  | unit (n : Nat)
  deriving DecidableEq, Repr

namespace StringItem

/-- The value of a hexadecimal digit. -/
def hexDigit? (c : Char) : Option Nat :=
  if c.isDigit then some (c.toNat - 48)
  else if 'a' ≤ c ∧ c ≤ 'f' then some (c.toNat - 87)
  else if 'A' ≤ c ∧ c ≤ 'F' then some (c.toNat - 55)
  else none

/-- The unit written by four hexadecimal digits. -/
def unit? (a b c d : Char) : Option Nat :=
  match hexDigit? a, hexDigit? b, hexDigit? c, hexDigit? d with
  | some a, some b, some c, some d => some (((a * 16 + b) * 16 + c) * 16 + d)
  | _, _, _, _ => none

/-- The character that a one-character escape denotes. -/
def escaped (c : Char) : Char :=
  match c with
  | 'n' => '\n'
  | 'f' => '\x0c'
  | 'r' => '\r'
  | 't' => '\t'
  | 'v' => '\x0b'
  | c => c

/-- Read the body of a string literal that starts at a byte offset.  A backslash and `u` need
four hexadecimal digits after them; the fault is placed at the backslash and carries the
characters found, at most four. -/
def read (offset : Nat) : List Char → Except TokenError (List StringItem)
  | [] => .ok []
  | c :: cs =>
      if c = '\\' then
        match cs with
        | [] => .ok []
        | 'u' :: rest =>
            let fault := TokenError.invalidUnicodeEscape offset (String.ofList (rest.take 4))
            match rest with
            | a :: b :: c :: d :: rest =>
                match unit? a b c d with
                | none => .error fault
                | some n => (read (offset + 6) rest).map (unit n :: ·)
            | _ => .error fault
        | e :: rest => (read (offset + 1 + e.utf8Size) rest).map (character (escaped e) :: ·)
      else (read (offset + c.utf8Size) cs).map (character c :: ·)

/-- Whether a unit is the first half of a surrogate pair. -/
def isHighSurrogate (n : Nat) : Bool := 0xd800 ≤ n && n ≤ 0xdbff

/-- Whether a unit is the second half of a surrogate pair. -/
def isLowSurrogate (n : Nat) : Bool := 0xdc00 ≤ n && n ≤ 0xdfff

/-- What an unpaired surrogate becomes. -/
def replacement : Char := '\ufffd'

/-- The characters that a sequence of items denotes. -/
def decode : List StringItem → List Char
  | [] => []
  | character c :: items => c :: decode items
  | unit n :: items =>
      if isHighSurrogate n then
        match items with
        | unit m :: rest =>
            if isLowSurrogate m then
              Char.ofNat (0x10000 + (n - 0xd800) * 0x400 + (m - 0xdc00)) :: decode rest
            else replacement :: decode (unit m :: rest)
        | items => replacement :: decode items
      else if isLowSurrogate n then replacement :: decode items
      else Char.ofNat n :: decode items

end StringItem

/-- The string that the body of a literal denotes; `offset` is where the body starts. -/
def decodeString (offset : Nat) (body : List Char) : Except TokenError String :=
  (StringItem.read offset body).map fun items => String.ofList (StringItem.decode items)

/-! ## Numbers -/

/-- The natural number written by decimal digits. -/
def natOfDigits (ds : List Char) : Nat := ds.foldl (fun n c => n * 10 + (c.toNat - 48)) 0

/-- The power of ten written after the digits of a number. -/
def exponentOf : List Char → Int
  | _ :: '-' :: ds => -(natOfDigits ds : Int)
  | _ :: '+' :: ds => natOfDigits ds
  | _ :: ds => natOfDigits ds
  | [] => 0

/-- The number that a numeric literal denotes. -/
def decodeNumber (text : List Char) : Binary64 :=
  let whole := text.takeWhile Char.isDigit
  let (places, rest) :=
    match text.dropWhile Char.isDigit with
    | '.' :: rest => (rest.takeWhile Char.isDigit, rest.dropWhile Char.isDigit)
    | rest => ([], rest)
  Binary64.ofDecimal (natOfDigits (whole ++ places)) (exponentOf rest - (places.length : Int))

end TemplateMigration
