import TemplateMigration.Text.Bytes

/-!
# TemplateMigration.Expression.Edit

Replacements inside one text, addressed by byte offsets.  They can be made in one pass from the
front (`applyAll?`) or one by one from the last to the first (`applyBackward?`); either way there
is no result when an offset is not where an edit can be made.
-/

namespace TemplateMigration

/-- Replace a byte range of a text. -/
structure Edit where
  offset : Nat
  length : Nat
  replacement : String
  deriving DecidableEq, Repr

namespace Edit

/-- Make edits in ascending order in the rest of a text that starts at an offset. -/
def applyFrom? (offset : Nat) (rest : List Char) : List Edit → Option (List Char)
  | [] => some rest
  | e :: es =>
      if e.offset < offset then none
      else
        (cut? (e.offset - offset) rest).bind fun (before, here) =>
          (cut? e.length here).bind fun (_, after) =>
            (applyFrom? (e.offset + e.length) after es).map fun tail =>
              before ++ e.replacement.toList ++ tail

/-- Make edits that are given in ascending order and do not overlap. -/
def applyAll? (edits : List Edit) (text : String) : Option String :=
  (applyFrom? 0 text.toList edits).map String.ofList

/-- Make one edit. -/
def replaceIn? (e : Edit) (text : List Char) : Option (List Char) :=
  (cut? e.offset text).bind fun (before, here) =>
    (cut? e.length here).map fun (_, after) => before ++ e.replacement.toList ++ after

/-- Make edits one by one, the last of the list first. -/
def applyBackward? (edits : List Edit) (text : String) : Option String :=
  (edits.foldr (fun e done => done.bind e.replaceIn?) (some text.toList)).map String.ofList

/-- Make edits, or leave the text alone when they cannot be made. -/
def applyAll (edits : List Edit) (text : String) : String := (applyAll? edits text).getD text

/-- Whether edits make another text of a text. -/
def change (edits : List Edit) (text : String) : Bool :=
  !edits.isEmpty && applyAll edits text != text

end Edit

end TemplateMigration
