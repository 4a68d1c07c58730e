/-!
# TemplateMigration.Command.JsonText

JSON as it is written: on one line and without blanks.  Quotation marks, backslashes and control
characters below U+0020 are escaped, nothing else is.
-/

namespace TemplateMigration

/-- A JSON value. -/
inductive JsonText where
  | boolean (value : Bool)
  | number (value : Nat)
  | string (value : String)
  | array (items : List JsonText)
  | object (fields : List (String × JsonText))

namespace JsonText

/-- A digit of base sixteen. -/
def hexDigit (n : Nat) : Char := (Nat.toDigits 16 (n % 16)).headD '0'

/-- A character inside of a string. -/
def escape (c : Char) : List Char :=
  match c with
  | '"' => ['\\', '"']
  | '\\' => ['\\', '\\']
  | '\n' => ['\\', 'n']
  | '\r' => ['\\', 'r']
  | '\t' => ['\\', 't']
  | '\x08' => ['\\', 'b']
  | '\x0c' => ['\\', 'f']
  | c =>
      if c.toNat < 32 then ['\\', 'u', '0', '0', hexDigit (c.toNat / 16), hexDigit c.toNat] else [c]

/-- A string in quotation marks. -/
def quote (s : String) : String := String.ofList ('"' :: s.toList.flatMap escape ++ ['"'])

mutual
/-- A value as text. -/
def render : JsonText → String
  | .boolean value => if value then "true" else "false"
  | .number value => toString value
  | .string value => quote value
  | .array items => "[" ++ ",".intercalate (renderItems items) ++ "]"
  | .object fields => "\x7b" ++ ",".intercalate (renderFields fields) ++ "\x7d"

/-- The items of an array as texts. -/
def renderItems : List JsonText → List String
  | [] => []
  | item :: more => render item :: renderItems more

/-- The fields of an object as texts. -/
def renderFields : List (String × JsonText) → List String
  | [] => []
  | (name, value) :: more => (quote name ++ ":" ++ render value) :: renderFields more
end

end JsonText

end TemplateMigration
