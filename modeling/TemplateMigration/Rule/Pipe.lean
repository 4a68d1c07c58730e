import TemplateMigration.Expression.Filter
import TemplateMigration.Rule.Currency
import TemplateMigration.Rule.Transform

/-!
# TemplateMigration.Rule.Pipe

From filters to pipes: what each pipe transform makes of a filter with its arguments.
-/

namespace TemplateMigration

/-- The text of a pipe and the address of its documentation. -/
structure PipeText where
  value : String
  url : String
  deriving DecidableEq, Repr

namespace PipeTransform

/-- The largest number of fraction digits: counts are 32-bit words. -/
def maxFractionDigits : Nat := Nat.pow 2 32 - 1

/-- A count written in decimal digits, with an optional plus sign and white space around. -/
def countOfText? (text : String) : Option Nat :=
  let trimmed := trim text.toList
  let digits := if trimmed.head? = some '+' then trimmed.tail else trimmed
  if !digits.isEmpty && digits.all Char.isDigit then some (natOfDigits digits) else none

/-- The number of fraction digits that a token gives, as a number or as text. -/
def fractionDigits? (t : Token) : Option Nat :=
  let count :=
    match t.kind with
    | .constant (.number x) => x.toNat?
    | .constant (.string s) => countOfText? s
    | _ => none
  count.filter (· ≤ maxFractionDigits)

/-- The pipe for `limitTo`: its two arguments change places; without a begin everything is
kept. -/
def slice (f : Filter) : String :=
  match f.args with
  | limit :: start :: _ => "slice:" ++ start.text ++ ":" ++ limit.text
  | _ => "slice:0"

/-- The pipe for `currency`: a symbol that is no currency code needs a code before it, and a
number of digits needs both. -/
def currencyPipe (f : Filter) : String :=
  match f.args with
  | [symbol] =>
      if isCurrencyCode (symbol.string?.getD symbol.text) then f.chain
      else "currency:'USD':" ++ symbol.text
  | [_, digits] =>
      match fractionDigits? digits with
      | some n => "currency:'USD':'symbol':" ++ toString n
      | none => f.chain
  | _ => f.chain

/-- What a transform makes of a filter. -/
def apply (t : PipeTransform) (f : Filter) : PipeText :=
  match t with
  | limitToSlice => ⟨slice f, "https://angular.io/api/common/SlicePipe"⟩
  | currency => ⟨currencyPipe f, "https://angular.io/api/common/CurrencyPipe"⟩

end PipeTransform

end TemplateMigration
