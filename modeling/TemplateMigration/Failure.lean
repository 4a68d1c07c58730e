/-!
# TemplateMigration.Failure

Everything that can go wrong, as causes.  `Failure.code` is the stable identifier that is shown
to users, `Failure.help` the advice that goes with it, and `Failure.message` the wording.
-/

namespace TemplateMigration

/-- Why a file or directory could not be read. -/
inductive FileFault where
  | notFound
  | notADirectory
  | isADirectory
  | tooManyLinks
  | notUtf8
  deriving DecidableEq, Repr

namespace FileFault

/-- The wording of the operating system. -/
def message : FileFault → String
  | notFound => "No such file or directory (os error 2)"
  | notADirectory => "Not a directory (os error 20)"
  | isADirectory => "Is a directory (os error 21)"
  | tooManyLinks => "Too many levels of symbolic links (os error 40)"
  | notUtf8 => "stream did not contain valid UTF-8"

end FileFault

/-- A cause of failure. -/
inductive Failure where
  | file (fault : FileFault)
  | settings
  | offsetOutOfBounds (offset length : Nat)
  | offsetInsideCharacter (offset : Nat)
  | unknownValueTransform (name : String)
  | unknownPipeTransform (name : String)
  | unknownExpressionTransform (name : String)
  | invalidPattern (pattern : String)
  deriving DecidableEq, Repr

namespace Failure

/-- The identifier of a cause. -/
def code : Failure → String
  | file _ => "ngup::io_error"
  | settings => "ngup::config_parse"
  | offsetOutOfBounds _ _ => "ngup::offset_out_of_bounds"
  | offsetInsideCharacter _ => "ngup::offset_not_char_boundary"
  | unknownValueTransform _ => "ngup::unknown_value_transform"
  | unknownPipeTransform _ => "ngup::unknown_pipe_transform"
  | unknownExpressionTransform _ => "ngup::unknown_expression_transform"
  | invalidPattern _ => "ngup::invalid_pattern"

/-- Advice on a cause, where there is some. -/
def help : Failure → Option String
  | settings =>
      some "check that ngup.toml is valid TOML with [rules], [include] and/or [exclude] sections"
  | unknownValueTransform _ => some "available value transforms: hidden-negation, repeat-to-for"
  | unknownPipeTransform _ => some "available pipe transforms: limit-to-slice, currency"
  | unknownExpressionTransform _ => some "available expression transforms: strip-vm-alias"
  | _ => none

/-- A cause in words. -/
def message : Failure → String
  | file fault => fault.message
  | settings => "failed to parse config file"
  | offsetOutOfBounds offset length =>
      "offset " ++ toString offset ++ " outside of range [0, " ++ toString length ++ "]"
  | offsetInsideCharacter offset =>
      "offset " ++ toString offset ++ " falls inside a multi-byte character"
  | unknownValueTransform name => "unknown value transform: `" ++ name ++ "`"
  | unknownPipeTransform name => "unknown pipe transform: `" ++ name ++ "`"
  | unknownExpressionTransform name => "unknown expression transform: `" ++ name ++ "`"
  | invalidPattern pattern => "invalid file pattern `" ++ pattern ++ "`"

end Failure

end TemplateMigration
