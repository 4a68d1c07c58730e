import TemplateMigration.Binary64
import TemplateMigration.Text.Bytes

/-!
# TemplateMigration.Expression.Token

Tokens of a template expression.  A token keeps its source text and its byte offset; a constant
also carries the value that its text denotes.
-/

namespace TemplateMigration

/-- The value of a constant. -/
inductive Literal where
  | number (value : Binary64)
  | string (value : String)
  deriving DecidableEq, Repr

namespace Literal

/-- Equality of values: numbers up to two units in the last place, strings exactly. -/
def sameValue : Literal → Literal → Bool
  | number x, number y => x.near y
  | string x, string y => x == y
  | _, _ => false

end Literal

/-- The class of a token. -/
inductive TokenKind where
  | identifier
  | constant (value : Literal)
  | operator
  | punctuation
  deriving DecidableEq, Repr

/-- A token: where it starts, its text as written, and its class. -/
structure Token where
  offset : Nat
  text : String
  kind : TokenKind
  deriving DecidableEq, Repr

namespace Token

/-- The byte offset after the token's last character. -/
def stop (t : Token) : Nat := t.offset + byteLength t.text

/-- The number that the token denotes, if it is a numeric constant. -/
def number? (t : Token) : Option Binary64 :=
  match t.kind with
  | .constant (.number x) => some x
  | _ => none

/-- The string that the token denotes, if it is a string constant. -/
def string? (t : Token) : Option String :=
  match t.kind with
  | .constant (.string s) => some s
  | _ => none

/-- Whether the token can name a filter or stand as one of its arguments. -/
def isOperand (t : Token) : Bool :=
  match t.kind with
  | .identifier | .constant _ => true
  | .operator | .punctuation => false

/-- Whether the token is the given operator or punctuation mark. -/
def isMark (t : Token) (mark : String) : Bool := !t.isOperand && t.text == mark

end Token

/-- Why a text has no further token. -/
inductive TokenError where
  | unterminatedQuote (offset : Nat)
  | invalidUnicodeEscape (offset : Nat) (escape : String)
  | invalidExponent (offset : Nat)
  | unexpectedCharacter (offset : Nat) (character : Char)
  deriving DecidableEq, Repr

namespace TokenError

/-- The byte offset at which reading stopped. -/
def offset : TokenError → Nat
  | unterminatedQuote o | invalidUnicodeEscape o _ | invalidExponent o
  | unexpectedCharacter o _ => o

/-- The fault in words. -/
def message : TokenError → String
  | unterminatedQuote o => "unterminated quote at column " ++ toString o
  | invalidUnicodeEscape o escape =>
      "invalid unicode escape [\\u" ++ escape ++ "] at column " ++ toString o
  | invalidExponent o => "invalid exponent at column " ++ toString o
  | unexpectedCharacter o c =>
      "unexpected next character `" ++ c.toString ++ "` at column " ++ toString o

end TokenError

end TemplateMigration
