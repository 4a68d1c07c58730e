/-!
# TemplateMigration.Rule.Table

Finite maps and sets of names, kept in ascending order of the names, so that equal tables are
equal lists.
-/

namespace TemplateMigration

/-- A finite map from names, in ascending order of the names. -/
structure Table (α : Type) where
  entries : List (String × α)
  ordered : entries.Pairwise (·.1 < ·.1)
  deriving DecidableEq, Repr

namespace Table

variable {α : Type}

/-- No entries. -/
def empty : Table α := ⟨[], .nil⟩

/-- Put an entry in its place among ordered entries; an entry of the same name is replaced. -/
def insertInto (name : String) (value : α) : List (String × α) → List (String × α)
  | [] => [(name, value)]
  | (other, old) :: rest =>
      if name < other then (name, value) :: (other, old) :: rest
      else if name = other then (name, value) :: rest
      else (other, old) :: insertInto name value rest

theorem mem_insertInto {name : String} {value : α} {entries : List (String × α)}
    {entry : String × α} (h : entry ∈ insertInto name value entries) :
    entry = (name, value) ∨ entry ∈ entries := by
  fun_induction insertInto name value entries <;> grind

theorem pairwise_insertInto (name : String) (value : α) {entries : List (String × α)}
    (h : entries.Pairwise (·.1 < ·.1)) : (insertInto name value entries).Pairwise (·.1 < ·.1) := by
  fun_induction insertInto name value entries with
  | case1 => simp
  | case2 other old rest hlt => grind [List.pairwise_cons, String.lt_trans]
  | case3 old rest hlt => grind [List.pairwise_cons]
  | case4 other old rest hlt hne ih =>
      rw [List.pairwise_cons] at h ⊢
      refine ⟨fun entry hentry => ?_, ih h.2⟩
      obtain rfl | hentry := mem_insertInto hentry
      · grind
      · exact h.1 entry hentry

/-- Set the value of a name. -/
def insert (t : Table α) (name : String) (value : α) : Table α :=
  ⟨insertInto name value t.entries, pairwise_insertInto name value t.ordered⟩

/-- The value of a name. -/
def find? (t : Table α) (name : String) : Option α := t.entries.lookup name

theorem lookup_insertInto (name key : String) (value : α) (entries : List (String × α)) :
    (insertInto name value entries).lookup key =
      if key = name then some value else entries.lookup key := by
  fun_induction insertInto name value entries <;> grind

@[simp] theorem find?_insert (t : Table α) (name key : String) (value : α) :
    (t.insert name value).find? key = if key = name then some value else t.find? key :=
  lookup_insertInto name key value t.entries

/-- The table of a list of entries, later ones winning. -/
def ofList (entries : List (String × α)) : Table α :=
  entries.foldl (fun t (name, value) => t.insert name value) empty

end Table

/-- A finite set of names, in ascending order. -/
structure NameSet where
  names : List String
  deriving DecidableEq, Repr

namespace NameSet

/-- No names. -/
def empty : NameSet := ⟨[]⟩

/-- Put a name in its place among ordered names. -/
def insertInto (name : String) : List String → List String
  | [] => [name]
  | other :: rest =>
      if name < other then name :: other :: rest
      else if name = other then other :: rest
      else other :: insertInto name rest

/-- Add a name. -/
def insert (s : NameSet) (name : String) : NameSet := ⟨insertInto name s.names⟩

/-- Add several names. -/
def insertAll (s : NameSet) (names : List String) : NameSet := names.foldl insert s

/-- Whether a name is in the set. -/
def contains (s : NameSet) (name : String) : Bool := s.names.contains name

theorem mem_insertInto {name key : String} {names : List String} :
    key ∈ insertInto name names ↔ key = name ∨ key ∈ names := by
  fun_induction insertInto name names <;> grind

@[simp] theorem contains_insert {s : NameSet} {name key : String} :
    (s.insert name).contains key = true ↔ key = name ∨ s.contains key = true := by
  simp [insert, contains, mem_insertInto]

@[simp] theorem contains_insertAll {s : NameSet} {names : List String} {key : String} :
    (s.insertAll names).contains key = true ↔ key ∈ names ∨ s.contains key = true := by
  unfold insertAll
  induction names generalizing s with
  | nil => simp
  | cons name names ih => grind [contains_insert]

/-- The set of a list of names. -/
def ofList (names : List String) : NameSet := empty.insertAll names

end NameSet

end TemplateMigration
