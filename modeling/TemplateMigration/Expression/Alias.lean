import TemplateMigration.Expression.Edit
import TemplateMigration.Message

/-!
# TemplateMigration.Expression.Alias

The controller alias `vm.` in expressions.  An occurrence counts unless it continues a name or a
member access, or follows the two slashes of an address.
-/

namespace TemplateMigration.Alias

/-- The alias with its point. -/
def word : List Char := ['v', 'm', '.']

/-- Whether a character before the alias makes it part of a name or of a member access. -/
def continuesName (c : Char) : Bool := c.isAlphanum || c == '_' || c == '$' || c == '.'

/-- Whether the alias can stand after a text, given with its last character first. -/
def standsAfter (before : List Char) : Bool :=
  !before.head?.any continuesName && !List.isPrefixOf ['/', '/'] before

/-- The byte offsets of the alias in a text that starts at an offset; `before` is what precedes
the text, last character first. -/
def offsetsFrom (offset : Nat) (before : List Char) : List Char → List Nat
  | [] => []
  | c :: cs =>
      let rest := offsetsFrom (offset + c.utf8Size) (c :: before) cs
      if word.isPrefixOf (c :: cs) && standsAfter before then offset :: rest else rest

/-- The byte offsets of the alias in an expression. -/
def offsets (expression : String) : List Nat := offsetsFrom 0 [] expression.toList

/-- The edit that drops the alias at an offset. -/
def edit (offset : Nat) : Edit := ⟨offset, word.length, ""⟩

/-- What is said about a dropped alias. -/
def message (position : Nat) : Message :=
  .info position word.length
    "No longer needed to use the `vm` alias to access controller in Angular"
    (some "https://angular.io/guide/ajs-quick-reference")

end TemplateMigration.Alias
