/-!
# TemplateMigration.Command.Style

Colours of a terminal.  Text is painted by an escape sequence before it and another one after it.
-/

namespace TemplateMigration

/-- How text is shown. -/
inductive Style where
  | red
  | green
  | yellow
  | bold
  /-- The heading of a report on a failure. -/
  | alarm
  deriving DecidableEq, Repr

namespace Style

/-- The number that turns a style on. -/
def on : Style → String
  | red | alarm => "31"
  | green => "32"
  | yellow => "33"
  | bold => "1"

/-- The number that turns a style off: that of the default colour, or that of no style at all. -/
def off : Style → String
  | red | green | yellow => "39"
  | bold | alarm => "0"

/-- Paint a text, if colours are wanted. -/
def paint (style : Style) (color : Bool) (text : String) : String :=
  if color then "\x1b[" ++ style.on ++ "m" ++ text ++ "\x1b[" ++ style.off ++ "m" else text

end Style

end TemplateMigration
