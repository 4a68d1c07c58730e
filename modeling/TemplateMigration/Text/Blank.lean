/-!
# TemplateMigration.Text.Blank

The three notions of white space in templates: the characters that separate the tokens of an
expression, the ones that separate the parts of a tag, and the Unicode property `White_Space`
used wherever text is trimmed.
-/

namespace TemplateMigration

/-- Characters that separate the tokens of an expression: space, tab, line feed, vertical tab,
carriage return and the no-break space. -/
def isExpressionBlank (c : Char) : Bool :=
  c == ' ' || c == '\t' || c == '\n' || c == '\x0b' || c == '\r' || c == '\u00a0'

/-- Characters that separate the parts of a tag: space, tab, line feed, form feed and carriage
return. -/
def isTagBlank (c : Char) : Bool :=
  c == ' ' || c == '\t' || c == '\n' || c == '\x0c' || c == '\r'

/-- The Unicode property `White_Space`. -/
def isWhiteSpace (c : Char) : Bool :=
  let n := c.toNat
  (9 ≤ n && n ≤ 13) || n == 0x20 || n == 0x85 || n == 0xa0 || n == 0x1680 ||
    (0x2000 ≤ n && n ≤ 0x200a) || n == 0x2028 || n == 0x2029 || n == 0x202f || n == 0x205f ||
    n == 0x3000

/-- A text without the white space at its start. -/
def trimStart (cs : List Char) : List Char := cs.dropWhile isWhiteSpace

/-- A text without the white space at its end. -/
def trimEnd (cs : List Char) : List Char := (cs.reverse.dropWhile isWhiteSpace).reverse

/-- A text without the white space at its two ends. -/
def trim (cs : List Char) : List Char := trimEnd (trimStart cs)

end TemplateMigration
