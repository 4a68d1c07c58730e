/-!
# TemplateMigration.Toml.Value

The values of a TOML document, and how statements put them together.

A table remembers how it came to be, because that decides what may still be added to it: a table
that only stands above another one can be opened by a header once, one that grew from dotted keys
can only grow by dotted keys, and an inline table is complete.
-/

namespace TemplateMigration.Toml

/-- How a table came to be. -/
inductive TableForm where
  /-- Named above another table in a header. -/
  | implied
  /-- Named in front of the last part of a dotted key. -/
  | dotted
  /-- Opened by a header of its own. -/
  | opened
  /-- Written between braces. -/
  | inline
  deriving DecidableEq, Repr

/-- A TOML value.  Floats and dates are kept as written. -/
inductive Value where
  | string (s : String)
  | boolean (b : Bool)
  | integer (n : Int)
  | float (text : String)
  | date (text : String)
  | array (items : List Value)
  | table (form : TableForm) (entries : List (String × Value))
  /-- The tables opened by headers in double brackets, in order. -/
  | tables (elements : List (List (String × Value)))
  deriving Repr

/-- The entries of a table, in the order in which they were added. -/
abbrev Entries := List (String × Value)

/-- A key with the names of the tables above it. -/
structure KeyPath where
  parents : List String
  key : String
  deriving DecidableEq, Repr

namespace Entries

/-- Set the value of a key that is present, or add it at the end. -/
def set (key : String) (value : Value) : Entries → Entries
  | [] => [(key, value)]
  | (k, v) :: rest => if k = key then (key, value) :: rest else (k, v) :: set key value rest

/-- Change the table at the end of a path, making the tables on the way.  Dotted keys go through
tables that no header has opened; nothing goes through an inline table or any other value.  Of
tables in double brackets the last is meant. -/
def modify (dotted : Bool) (change : TableForm → Entries → Option Entries) (form : TableForm) :
    List String → Entries → Option Entries
  | [], entries => change form entries
  | key :: path, entries =>
      match entries.lookup key with
      | none =>
          let fresh := if dotted then TableForm.dotted else .implied
          (modify dotted change fresh path []).map fun inner => entries.set key (.table fresh inner)
      | some (.table inner es) =>
          if inner = .inline ∨ dotted ∧ inner = .opened then none
          else (modify dotted change inner path es).map fun es => entries.set key (.table inner es)
      | some (.tables elements) =>
          match elements.getLast? with
          | none => none
          | some last =>
              (modify dotted change .opened path last).map fun last =>
                entries.set key (.tables (elements.dropLast ++ [last]))
      | some _ => none

/-- Add a key with its value.  A key is added once, and a dotted key only to a table made by
dotted keys. -/
def assign (path : KeyPath) (value : Value) (form : TableForm) : Entries → Option Entries :=
  modify true (fun inner entries =>
    if (inner == .dotted) == path.parents.isEmpty || (entries.lookup path.key).isSome then none
    else some (entries ++ [(path.key, value)])) form path.parents

/-- Open a table by its header.  A table is opened once, and never if dotted keys made it. -/
def openTable (path : KeyPath) : Entries → Option Entries :=
  modify false (fun _ entries =>
    match entries.lookup path.key with
    | none => some (entries.set path.key (.table .opened []))
    | some (.table .implied inner) => some (entries.set path.key (.table .opened inner))
    | some _ => none) .opened path.parents

/-- Open one more table of an array by its header. -/
def openElement (path : KeyPath) : Entries → Option Entries :=
  modify false (fun _ entries =>
    match entries.lookup path.key with
    | none => some (entries.set path.key (.tables [[]]))
    | some (.tables elements) => some (entries.set path.key (.tables (elements ++ [[]])))
    | some _ => none) .opened path.parents

end Entries

end TemplateMigration.Toml
