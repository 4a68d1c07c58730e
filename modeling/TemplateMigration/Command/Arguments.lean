/-!
# TemplateMigration.Command.Arguments

The command line.  `Request.ofArgs` reads arguments from left to right: options of the program, a
subcommand, options of the subcommand.  Options of the program may also follow the subcommand.
A value may be attached to its option (`--path=x`, `-px`) or be the next argument; in the latter
case it is looked at when the option after it, or the end, has been reached.
-/

namespace TemplateMigration

/-! ## requests -/

/-- How a check is reported. -/
inductive Format where
  | text
  | json
  deriving DecidableEq, Repr

/-- What to do with a project. -/
inductive Command where
  /-- Report what would change. -/
  | check (diff : Bool) (format : Format)
  /-- Change templates in place. -/
  | update (dryRun : Bool)
  deriving DecidableEq, Repr

/-- A command with the options that every command has. -/
structure Invocation where
  command : Option Command
  /-- The root of the project; the working directory if it is not given. -/
  path : Option String
  verbose : Bool
  noColor : Bool
  deriving DecidableEq, Repr

/-! ## options -/

/-- An option. -/
inductive OptionName where
  | path
  | verbose
  | noColor
  | diff
  | format
  | dryRun
  | help
  | version
  deriving DecidableEq, Repr

namespace OptionName

/-- The name after two dashes. -/
def long : OptionName → String
  | path => "path"
  | verbose => "verbose"
  | noColor => "no-color"
  | diff => "diff"
  | format => "format"
  | dryRun => "dry-run"
  | help => "help"
  | version => "version"

/-- The name after one dash, where there is one. -/
def short? : OptionName → Option Char
  | path => some 'p'
  | verbose => some 'v'
  | help => some 'h'
  | version => some 'V'
  | _ => none

/-- Whether an option has a value. -/
def takesValue : OptionName → Bool
  | path | format => true
  | _ => false

/-- An option as messages show it. -/
def render (o : OptionName) : String :=
  "--" ++ o.long ++ match o with
    | path => " <PATH>"
    | format => " <FORMAT>"
    | _ => ""

end OptionName

/-- Whose options are read. -/
inductive Scope where
  | program
  | check
  | update
  deriving DecidableEq, Repr

namespace Scope

/-- The options of a scope. -/
def options : Scope → List OptionName
  | program => [.path, .verbose, .noColor, .help, .version]
  | check => [.path, .verbose, .noColor, .help, .diff, .format]
  | update => [.path, .verbose, .noColor, .help, .dryRun]

/-- The scope of a subcommand. -/
def ofName? : String → Option Scope
  | "check" => some check
  | "update" => some update
  | _ => none

end Scope

/-! ## faults -/

/-- Why a command line is refused. -/
inductive UsageError where
  | unrecognizedSubcommand (name : String)
  | unexpectedArgument (text : String)
  | unexpectedValue (value : String) (option : OptionName)
  | missingValue (option : OptionName)
  | invalidValue (value : String) (option : OptionName)
  | repeated (option : OptionName)
  deriving DecidableEq, Repr

namespace UsageError

/-- A fault in words. -/
def message : UsageError → String
  | unrecognizedSubcommand name => "unrecognized subcommand '" ++ name ++ "'"
  | unexpectedArgument text => "unexpected argument '" ++ text ++ "' found"
  | unexpectedValue value option =>
      "unexpected value '" ++ value ++ "' for '" ++ option.render
        ++ "' found; no more were expected"
  | missingValue option => "a value is required for '" ++ option.render ++ "' but none was supplied"
  | invalidValue value option => "invalid value '" ++ value ++ "' for '" ++ option.render ++ "'"
  | repeated option => "the argument '" ++ option.render ++ "' cannot be used multiple times"

end UsageError

/-- What a command line asks for. -/
inductive Request where
  | run (invocation : Invocation)
  | showHelp
  | showVersion
  | refuse (fault : UsageError)
  deriving DecidableEq, Repr

/-! ## reading options -/

/-- A reading that goes on, or the request that ends it early. -/
abbrev Reads := Except Request

/-- End a reading with a fault. -/
def Reads.fail {α : Type} (fault : UsageError) : Reads α := .error (.refuse fault)

/-- The options of one scope. -/
structure Given where
  names : List OptionName
  path : Option String
  format : Option Format
  deriving DecidableEq, Repr

namespace Given

/-- No options. -/
def empty : Given := ⟨[], none, none⟩

/-- The path that a value names. -/
def readPath (value : String) : Reads String :=
  if value.isEmpty then .fail (.missingValue .path) else .ok value

/-- The format that a value names. -/
def readFormat : String → Reads Format
  | "text" => .ok .text
  | "json" => .ok .json
  | "" => .fail (.missingValue .format)
  | value => .fail (.invalidValue value .format)

/-- Add an option with its value.  Help and version end the reading at once. -/
def add (g : Given) (option : OptionName) (value : Option String) : Reads Given := do
  if option = .help then throw .showHelp
  if option = .version then throw .showVersion
  if option.takesValue && value.isNone then Reads.fail (.missingValue option)
  if option ∈ g.names then Reads.fail (.repeated option)
  let g := { g with names := option :: g.names }
  match option, value with
  | .path, some value => return { g with path := some (← readPath value) }
  | .format, some value => return { g with format := some (← readFormat value) }
  | _, _ => return g

end Given

/-- An option whose value is its own argument. -/
structure PendingOption where
  option : OptionName
  /-- The value, once it has come. -/
  value : Option String
  deriving DecidableEq, Repr

/-- A scope that is read in part. -/
structure ScopeReading where
  scope : Scope
  given : Given
  pending : Option PendingOption
  /-- Whether `--` has been read: no options follow it. -/
  afterDashes : Bool
  deriving DecidableEq, Repr

namespace ScopeReading

/-- Nothing has been read. -/
def start (scope : Scope) : ScopeReading := ⟨scope, .empty, none, false⟩

/-- Whether the next argument is the value of an option. -/
def isWaiting (r : ScopeReading) : Bool := r.pending.any (·.value.isNone)

/-- Add the option that is pending. -/
def settle (r : ScopeReading) : Reads ScopeReading :=
  match r.pending with
  | none => .ok r
  | some p => (r.given.add p.option p.value).map ({ r with given := ·, pending := none })

/-- Read an option, with a value that is attached to it. -/
def meet (r : ScopeReading) (option : OptionName) (attached : Option String) :
    Reads ScopeReading := do
  let r ← r.settle
  if option.takesValue && attached.isNone then return { r with pending := some ⟨option, none⟩ }
  else return { r with given := ← r.given.add option attached }

/-- Read what follows two dashes. -/
def readLong (r : ScopeReading) (text : List Char) : Reads ScopeReading :=
  let name := String.ofList (text.takeWhile (· != '='))
  let value := match text.dropWhile (· != '=') with
    | [] => none
    | _ :: value => some (String.ofList value)
  match r.scope.options.find? (·.long == name), value with
  | none, _ => .fail (.unexpectedArgument ("--" ++ name))
  | some option, some value =>
      if option.takesValue then r.meet option (some value)
      else .fail (.unexpectedValue value option)
  | some option, none => r.meet option none

/-- Read what follows one dash: options without values, and a last one with or without. -/
def readShort (r : ScopeReading) : List Char → Reads ScopeReading
  | [] => .ok r
  | c :: rest =>
      match r.scope.options.find? (·.short? == some c) with
      | none => .fail (.unexpectedArgument (String.ofList ['-', c]))
      | some option =>
          if option.takesValue then
            r.meet option (match rest with
              | [] => none
              | '=' :: value => some (String.ofList value)
              | value => some (String.ofList value))
          else
            match r.meet option none with
            | .ok r => readShort r rest
            | .error e => .error e

/-- The fault of an argument that is neither an option nor a value. -/
def stray (r : ScopeReading) (text : String) : UsageError :=
  let isSubcommand := (Scope.ofName? text).isSome || text == "help"
  match r.scope with
  | .program =>
      if r.afterDashes && isSubcommand then .unexpectedArgument text
      else .unrecognizedSubcommand text
  | _ => .unexpectedArgument text

/-- Read an argument that is no subcommand. -/
def step (r : ScopeReading) (text : String) : Reads ScopeReading :=
  if r.afterDashes then .fail (r.stray text)
  else
    match text.toList with
    | ['-', '-'] => .ok { r with afterDashes := true }
    | '-' :: '-' :: rest => r.readLong rest
    | '-' :: c :: rest => r.readShort (c :: rest)
    | _ =>
        match r.pending with
        | some ⟨option, none⟩ => .ok { r with pending := some ⟨option, some text⟩ }
        | _ => .fail (r.stray text)

/-- Read the options of a subcommand. -/
def readAll (r : ScopeReading) : List String → Reads Given
  | [] => r.settle.map (·.given)
  | text :: more =>
      match r.step text with
      | .ok r => readAll r more
      | .error e => .error e

end ScopeReading

/-! ## reading command lines -/

namespace Request

/-- The command of a subcommand with its options. -/
def commandOf (scope : Scope) (given : Given) : Option Command :=
  match scope with
  | .program => none
  | .check => some (.check (given.names.contains .diff) (given.format.getD .text))
  | .update => some (.update (given.names.contains .dryRun))

/-- Join the options of the program and of a subcommand; the later path counts. -/
def invocation (program : Given) (scope : Scope) (given : Given) : Invocation :=
  let names := program.names ++ given.names
  ⟨commandOf scope given, given.path.or program.path, names.contains .verbose,
    names.contains .noColor⟩

/-- The request of a subcommand `help` with the topics after it. -/
def helpOn : List String → Request
  | [] => showHelp
  | "help" :: more => helpOn more
  | name :: more =>
      match Scope.ofName? name, more with
      | none, _ => refuse (.unrecognizedSubcommand name)
      | some _, [] => showHelp
      | some _, topic :: _ => refuse (.unrecognizedSubcommand topic)

/-- Read the options of the program up to a subcommand, and the rest with it. -/
def readProgram (r : ScopeReading) : List String → Reads Invocation
  | [] => r.settle.map fun r => invocation r.given .program .empty
  | text :: more =>
      let subcommand := if r.afterDashes || r.isWaiting then none else Scope.ofName? text
      match subcommand with
      | some scope => do
          let given ← (ScopeReading.start scope).readAll more
          return invocation (← r.settle).given scope given
      | none =>
          if text == "help" && !r.afterDashes && !r.isWaiting then .error (helpOn more)
          else
            match r.step text with
            | .ok r => readProgram r more
            | .error e => .error e

/-- Read a command line. -/
def ofArgs (args : List String) : Request :=
  match readProgram (.start .program) args with
  | .ok invocation => run invocation
  | .error request => request

end Request

end TemplateMigration
