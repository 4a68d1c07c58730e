import TemplateMigration.Text.Line

/-!
# TemplateMigration.Message

Messages about a template.  A `Message` is anchored at a byte range of the source; a
`Diagnostic` is the same message placed by line and character.
-/

namespace TemplateMigration

/-- How serious a message is: an error blocks the change it is about, an info explains one. -/
inductive Level where
  | error
  | info
  deriving DecidableEq, Repr

namespace Level

/-- The level in lower case. -/
def render : Level → String
  | error => "error"
  | info => "info"

/-- The level as a proper name. -/
def title : Level → String
  | error => "Error"
  | info => "Info"

end Level

/-- A message about a byte range of a source text. -/
structure Message where
  position : Nat
  length : Nat
  level : Level
  text : String
  url : Option String
  deriving DecidableEq, Repr

namespace Message

/-- A message that blocks a change. -/
def error (position length : Nat) (text : String) : Message :=
  ⟨position, length, .error, text, none⟩

/-- A message that explains a change. -/
def info (position length : Nat) (text : String) (url : Option String) : Message :=
  ⟨position, length, .info, text, url⟩

/-- Whether a message blocks a change. -/
def isError (m : Message) : Bool := m.level == .error

/-- Whether one of the messages blocks a change. -/
def anyError (ms : List Message) : Bool := ms.any isError

/-- Errors first, then the rest, each group in its given order. -/
def errorsFirst (ms : List Message) : List Message :=
  ms.filter isError ++ ms.filter (!isError ·)

end Message

/-- A message placed by line and character. -/
structure Diagnostic where
  message : String
  position : LinePosition
  length : Nat
  level : Level
  url : Option String
  deriving DecidableEq, Repr

/-- Place a message in its source text. -/
def Message.place (source : String) (m : Message) : Diagnostic :=
  ⟨m.text, .ofOffset source m.position, m.length, m.level, m.url⟩

end TemplateMigration
