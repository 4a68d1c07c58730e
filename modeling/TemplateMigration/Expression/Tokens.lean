import TemplateMigration.Expression.Lexeme
import TemplateMigration.Expression.Literal
import TemplateMigration.Text.Blank

/-!
# TemplateMigration.Expression.Tokens

From the text of an expression to its tokens.  Blanks are skipped, each token takes the longest
lexeme, and reading stops at the first fault; the tokens before it are kept.
-/

namespace TemplateMigration

/-- The tokens of a text up to the first fault, and the fault if there is one. -/
structure Tokens where
  list : List Token
  fault : Option TokenError
  deriving DecidableEq, Repr

/-- The token made of a lexeme found at a byte offset. -/
def Token.ofLexeme (lexeme : Lexeme) (offset : Nat) (text : List Char) :
    Except TokenError Token :=
  let token kind := Token.mk offset (String.ofList text) kind
  match lexeme with
  | .quoted =>
      (decodeString (offset + 1) (text.drop 1).dropLast).map fun s => token (.constant (.string s))
  | .unterminated => .error (.unterminatedQuote offset)
  | .number => .ok (token (.constant (.number (decodeNumber text))))
  | .danglingExponent => .error (.invalidExponent offset)
  | .identifier => .ok (token .identifier)
  | .punctuation => .ok (token .punctuation)
  | .operator => .ok (token .operator)

namespace Tokens

/-- Read the tokens of a text that starts at a byte offset. -/
def readFrom (offset : Nat) (text : List Char) : Tokens :=
  match text with
  | [] => ⟨[], none⟩
  | c :: cs =>
      if isExpressionBlank c then readFrom (offset + c.utf8Size) cs
      else
        match _h : Lexeme.longest? (c :: cs) with
        | none => ⟨[], some (.unexpectedCharacter offset c)⟩
        | some (lexeme, n) =>
            let found := (c :: cs).take n
            match Token.ofLexeme lexeme offset found with
            | .error e => ⟨[], some e⟩
            | .ok token =>
                let rest := readFrom (offset + byteCount found) ((c :: cs).drop n)
                ⟨token :: rest.list, rest.fault⟩
termination_by text.length
decreasing_by
  · simp
  · have := Lexeme.pos_of_longest? _h
    simp only [List.length_drop, List.length_cons]
    omega

/-- Read the tokens of an expression. -/
def read (expression : String) : Tokens := readFrom 0 expression.toList

end Tokens

end TemplateMigration
