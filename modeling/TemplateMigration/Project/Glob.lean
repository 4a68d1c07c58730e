import TemplateMigration.Project.FileName

/-!
# TemplateMigration.Project.Glob

Glob patterns for paths.  A path is matched as a whole, byte by byte, with `/` between its
components.

- `?` is one byte and `*` any run of bytes; a dialect says whether they may match a `/`;
- `**` as a whole component is any number of components, elsewhere it is two `*`;
- `[ab]`, `[a-z]`, `[!a]` and `[^a]` are sets of bytes;
- `{a,b}` are alternatives, which nest; empty alternatives are dropped;
- a backslash makes the next character literal.

`Glob.parse?` reads a pattern and refuses malformed ones, `Glob.isMatch` is its meaning.
-/

namespace TemplateMigration

/-! ## sets of bytes -/

/-- A set of bytes, or the bytes outside of a set, by inclusive ranges. -/
structure ByteSet where
  negated : Bool
  ranges : List (UInt8 × UInt8)
  deriving DecidableEq, Repr

namespace ByteSet

/-- Membership. -/
def contains (s : ByteSet) (b : UInt8) : Bool :=
  s.negated != s.ranges.any fun (low, high) => low ≤ b && b ≤ high

/-- The bytes written by a range of characters.  A set has no notion of a character of several
bytes: each byte counts, and the range joins the last byte of its start to the first of its end. -/
def rangesOfChars (start stop : Char) : List (UInt8 × UInt8) :=
  let single (b : UInt8) := (b, b)
  let low := String.utf8EncodeChar start
  let high := String.utf8EncodeChar stop
  if start = stop then low.map single
  else low.dropLast.map single ++ (low.getLast?.bind fun l => high.head?.map fun h => (l, h)).toList
    ++ high.tail.map single

end ByteSet

/-! ## patterns -/

/-- A part of a glob. -/
inductive GlobPart where
  /-- The character itself. -/
  | literal (c : Char)
  /-- One byte. -/
  | one
  /-- Any run of bytes. -/
  | run
  /-- A leading `**/`: any directories, or none. -/
  | anyDirectories
  /-- A trailing `/**`: anything below. -/
  | descendants
  /-- An inner `/**/`: any directories between, or none. -/
  | between
  /-- One byte of a set. -/
  | oneOf (set : ByteSet)
  /-- One of several patterns. -/
  | either (branches : List (List GlobPart))

/-- How globs are read and matched. -/
structure GlobDialect where
  /-- Whether `?` and `*` stop at a `/`. -/
  withinComponent : Bool
  /-- Whether a `[` that is never closed is an ordinary character. -/
  allowsUnclosedSet : Bool
  deriving DecidableEq, Repr

/-- A glob with its dialect. -/
structure Glob where
  dialect : GlobDialect
  parts : List GlobPart

/-! ## meaning -/

namespace GlobPart

open FileName (separator)

/-- Match any run of admissible bytes, then the rest. -/
def matchRun (admits : UInt8 → Bool) (k : List UInt8 → Bool) : List UInt8 → Bool
  | [] => k []
  | b :: bs => k (b :: bs) || (admits b && matchRun admits k bs)

/-- Match one admissible byte, then the rest. -/
def matchOne (admits : UInt8 → Bool) (k : List UInt8 → Bool) : List UInt8 → Bool
  | [] => false
  | b :: bs => admits b && k bs

/-- Match the given bytes, then the rest. -/
def matchBytes : List UInt8 → (List UInt8 → Bool) → List UInt8 → Bool
  | [], k, bs => k bs
  | x :: xs, k, bs => matchOne (· == x) (matchBytes xs k) bs

mutual
/-- Whether a part stands for nothing at all. -/
def isVoid : GlobPart → Bool
  | .either branches => branchesVoid branches
  | _ => false

/-- Whether all parts stand for nothing. -/
def partsVoid : List GlobPart → Bool
  | [] => true
  | p :: ps => isVoid p && partsVoid ps

/-- Whether all branches stand for nothing. -/
def branchesVoid : List (List GlobPart) → Bool
  | [] => true
  | b :: bs => partsVoid b && branchesVoid bs
end

mutual
/-- Match a part, then the rest. -/
def matchPart (stops : Bool) : GlobPart → (List UInt8 → Bool) → List UInt8 → Bool
  | .literal c, k, bs => matchBytes (String.utf8EncodeChar c) k bs
  | .one, k, bs => matchOne (fun b => !(stops && b == separator)) k bs
  | .run, k, bs => matchRun (fun b => !(stops && b == separator)) k bs
  | .anyDirectories, k, bs =>
      k bs || matchBytes [separator] k bs || matchRun (fun _ => true) (matchBytes [separator] k) bs
  | .descendants, k, bs => matchBytes [separator] (matchRun (fun _ => true) k) bs
  | .between, k, bs =>
      matchBytes [separator] k bs ||
        matchBytes [separator] (matchRun (fun _ => true) (matchBytes [separator] k)) bs
  | .oneOf set, k, bs => matchOne set.contains k bs
  | .either branches, k, bs =>
      (branchesVoid branches && k bs) || matchBranches stops branches k bs

/-- Match several parts in order, then the rest. -/
def matchParts (stops : Bool) : List GlobPart → (List UInt8 → Bool) → List UInt8 → Bool
  | [], k, bs => k bs
  | p :: ps, k, bs => matchPart stops p (matchParts stops ps k) bs

/-- Match one of several branches that stand for something, then the rest. -/
def matchBranches (stops : Bool) : List (List GlobPart) → (List UInt8 → Bool) → List UInt8 → Bool
  | [], _, _ => false
  | b :: more, k, bs =>
      (!partsVoid b && matchParts stops b k bs) || matchBranches stops more k bs
end

end GlobPart

namespace Glob

/-- Whether a path matches.  A glob that is only `**` matches every path. -/
def isMatch (g : Glob) (path : List UInt8) : Bool :=
  match g.parts with
  | [.anyDirectories] => true
  | parts => GlobPart.matchParts g.dialect.withinComponent parts List.isEmpty path

end Glob

/-! ## reading sets -/

/-- What became of reading a set. -/
inductive SetScan where
  /-- The ranges up to the closing bracket, and what follows it. -/
  | closed (ranges : List (Char × Char)) (rest : List Char)
  | unclosed
  /-- A range whose end comes before its start. -/
  | reversed

namespace SetScan

/-- Whether the text after an opening bracket excludes what it lists. -/
def isNegated : List Char → Bool
  | '!' :: _ | '^' :: _ => true
  | _ => false

/-- The list of a set, after the mark that negates it. -/
def body (cs : List Char) : List Char := if isNegated cs then cs.tail else cs

theorem length_body_le (cs : List Char) : (body cs).length ≤ cs.length := by
  unfold body
  split <;> simp

/-- Read the inside of a set.  A first `]` and a first or last `-` are literal, and a range right
after a range moves the end of that one.  The ranges so far come latest first. -/
def read (first inRange : Bool) (ranges : List (Char × Char)) : List Char → SetScan
  | [] => unclosed
  | c :: rest =>
      if c == ']' && !first then
        closed (if inRange then ('-', '-') :: ranges else ranges).reverse rest
      else if c == '-' && !first && !inRange then read false true ranges rest
      else
        match inRange, ranges with
        | true, (start, _) :: more =>
            if c < start then reversed else read false false ((start, c) :: more) rest
        | _, _ => read false false ((c, c) :: ranges) rest

theorem length_lt_of_read {first inRange : Bool} {ranges found : List (Char × Char)}
    {cs rest : List Char} (h : read first inRange ranges cs = closed found rest) :
    rest.length < cs.length := by
  fun_induction read first inRange ranges cs <;> grind

end SetScan

/-! ## reading globs -/

/-- A group of alternatives that is still open. -/
structure GlobGroup where
  /-- The parts before the group, latest first. -/
  before : List GlobPart
  /-- The branches that are complete, latest first. -/
  branches : List (List GlobPart)

/-- A glob that is read in part. -/
structure GlobReading where
  /-- The parts of the open branch, latest first. -/
  parts : List GlobPart
  /-- The open groups, innermost first. -/
  groups : List GlobGroup
  /-- Whether a `[` is an ordinary character from here on. -/
  plainBrackets : Bool

namespace GlobReading

/-- Nothing has been read. -/
def start : GlobReading := ⟨[], [], false⟩

/-- Add a part. -/
def push (r : GlobReading) (p : GlobPart) : GlobReading := { r with parts := p :: r.parts }

/-- Open a group. -/
def openGroup (r : GlobReading) : GlobReading :=
  { r with parts := [], groups := ⟨r.parts, []⟩ :: r.groups }

/-- Start the next branch; outside of groups a comma is literal. -/
def comma (r : GlobReading) : GlobReading :=
  match r.groups with
  | [] => r.push (.literal ',')
  | g :: more =>
      { r with parts := [], groups := { g with branches := r.parts.reverse :: g.branches } :: more }

/-- Close the innermost group. -/
def closeGroup? (r : GlobReading) : Option GlobReading :=
  match r.groups with
  | [] => none
  | g :: more =>
      some { r with
        parts := .either (r.parts.reverse :: g.branches).reverse :: g.before
        groups := more }

/-- The parts of a glob that is complete. -/
def finish? (r : GlobReading) : Option (List GlobPart) :=
  if r.groups.isEmpty then some r.parts.reverse else none

/-- Let a part take the place of the separator before it.  Adjacent `**` components are one. -/
def absorb (r : GlobReading) (p : GlobPart) : GlobReading :=
  match r.parts with
  | .anyDirectories :: _ | .descendants :: _ => r
  | parts => { r with parts := p :: parts.tail }

/-- Add a `**` that stands between `before` and `rest`; also says whether the separator that
starts `rest` belongs to it. -/
def doubleStar (r : GlobReading) (before : Option Char) (rest : List Char) : GlobReading × Bool :=
  let twoRuns := ((r.push .run).push .run, false)
  let inGroup := !r.groups.isEmpty
  let opens := before == some '/' || (inGroup && (before == some ',' || before == some '\x7b'))
  if r.parts.isEmpty then
    match rest with
    | [] => (r.push .anyDirectories, false)
    | '/' :: _ => (r.push .anyDirectories, true)
    | _ => twoRuns
  else if !opens then twoRuns
  else
    match rest with
    | [] => (r.absorb .descendants, false)
    | c :: _ =>
        if c == '/' then (r.absorb .between, true)
        else if inGroup && (c == ',' || c == '\x7d') then (r.absorb .descendants, false)
        else twoRuns

/-- Read a glob to its end; `before` is the character before the rest. -/
def readAll (d : GlobDialect) (r : GlobReading) (before : Option Char) :
    List Char → Option (List GlobPart)
  | [] => r.finish?
  | '\\' :: [] => none
  | '\\' :: c :: rest => readAll d (r.push (.literal c)) (some c) rest
  | '*' :: '*' :: rest =>
      let (r, takesSeparator) := r.doubleStar before rest
      if takesSeparator then readAll d r (some '/') (rest.drop 1) else readAll d r (some '*') rest
  | c :: rest =>
      match c with
      | '*' => readAll d (r.push .run) (some c) rest
      | '?' => readAll d (r.push .one) (some c) rest
      | '\x7b' => readAll d r.openGroup (some c) rest
      | '\x7d' => r.closeGroup?.bind fun r => readAll d r (some c) rest
      | ',' => readAll d r.comma (some c) rest
      | '[' =>
          if r.plainBrackets then readAll d (r.push (.literal c)) (some c) rest
          else
            match _h : SetScan.read true false [] (SetScan.body rest) with
            | .closed ranges rest' =>
                let set := ⟨SetScan.isNegated rest,
                  ranges.flatMap fun (a, b) => ByteSet.rangesOfChars a b⟩
                readAll d (r.push (.oneOf set)) (some ']') rest'
            | .unclosed =>
                if d.allowsUnclosedSet then
                  readAll d { r.push (.literal c) with plainBrackets := true } (some c) rest
                else none
            | .reversed => none
      | c => readAll d (r.push (.literal c)) (some c) rest
termination_by cs => cs.length
decreasing_by
  all_goals simp
  all_goals try omega
  have := SetScan.length_lt_of_read _h
  have := SetScan.length_body_le rest
  omega

end GlobReading

namespace Glob

/-- Read a glob. -/
def parse? (d : GlobDialect) (pattern : String) : Option Glob :=
  (GlobReading.readAll d .start none pattern.toList).map (⟨d, ·⟩)

end Glob

end TemplateMigration
