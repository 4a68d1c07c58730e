import TemplateMigration.Failure

/-!
# TemplateMigration.Rule.Transform

The transforms that rules can name: of attribute values, of filters, and of expressions.
-/

namespace TemplateMigration

/-- Transforms of a whole attribute value. -/
inductive ValueTransform where
  /-- `expression` becomes `!(expression)`. -/
  | hiddenNegation
  /-- `item in items` becomes `let item of items`. -/
  | repeatToFor
  deriving DecidableEq, Repr

namespace ValueTransform

/-- The name used in settings. -/
def name : ValueTransform → String
  | hiddenNegation => "hidden-negation"
  | repeatToFor => "repeat-to-for"

/-- The transform of a name. -/
def ofName (name : String) : Except Failure ValueTransform :=
  if name = hiddenNegation.name then .ok hiddenNegation
  else if name = repeatToFor.name then .ok repeatToFor
  else .error (.unknownValueTransform name)

end ValueTransform

/-- Transforms of a filter into a pipe. -/
inductive PipeTransform where
  /-- `limitTo:limit:begin` becomes `slice:begin:limit`. -/
  | limitToSlice
  /-- `currency:symbol:digits` becomes `currency:'USD':symbol` or
  `currency:'USD':'symbol':digits`. -/
  | currency
  deriving DecidableEq, Repr

namespace PipeTransform

/-- The name used in settings. -/
def name : PipeTransform → String
  | limitToSlice => "limit-to-slice"
  | currency => "currency"

/-- The transform of a name. -/
def ofName (name : String) : Except Failure PipeTransform :=
  if name = limitToSlice.name then .ok limitToSlice
  else if name = currency.name then .ok currency
  else .error (.unknownPipeTransform name)

end PipeTransform

/-- Transforms inside any expression. -/
inductive ExpressionTransform where
  /-- Drop the controller alias `vm.`. -/
  | stripAlias
  deriving DecidableEq, Repr

namespace ExpressionTransform

/-- The name used in settings. -/
def name : ExpressionTransform → String
  | stripAlias => "strip-vm-alias"

/-- The transform of a name. -/
def ofName (name : String) : Except Failure ExpressionTransform :=
  if name = stripAlias.name then .ok stripAlias else .error (.unknownExpressionTransform name)

end ExpressionTransform

end TemplateMigration
