import TemplateMigration.Project.FileTree

/-!
# TemplateMigration.Proofs.Project.Places

A file system, place by place.

What a place shows (`FileNode.sightAt`) is a file with its content, a link with its target, a
directory with its names, or something that cannot be opened.  Writing a file changes the sight of
one place (`sightAt_writeText`).  Where a path leads depends on the links and the directories, and
not on what the files hold (`SameShape.follow_eq`), so a sequence of writes goes to the places
that its paths meant before the first of them, and at each place the last one counts.
-/

namespace TemplateMigration

/-! ## Entries -/

namespace FileEntries

variable {entries : FileEntries} {name other : FileName} {node : FileNode}

theorem lookup_cons_of_ne (h : other ≠ name) (node : FileNode) (entries : FileEntries) :
    List.lookup other ((name, node) :: entries) = entries.lookup other := by
  simp [List.lookup_cons, beq_false_of_ne h]

/-- What is put under a name is found there. -/
theorem lookup_put_self (name : FileName) (node : FileNode) (entries : FileEntries) :
    (put name node entries).lookup name = some node := by
  induction entries with
  | nil => exact List.lookup_cons_self
  | cons entry more ih =>
      obtain ⟨key, value⟩ := entry
      by_cases hkey : key = name
      · simp [put, hkey]
      · simp only [put, if_neg hkey, lookup_cons_of_ne (Ne.symm hkey), ih]

/-- Under other names there is what was there. -/
theorem lookup_put_of_ne (h : other ≠ name) (node : FileNode) (entries : FileEntries) :
    (put name node entries).lookup other = entries.lookup other := by
  induction entries with
  | nil => exact lookup_cons_of_ne h node []
  | cons entry more ih =>
      obtain ⟨key, value⟩ := entry
      by_cases hkey : key = name
      · subst hkey
        simp only [put, if_true, lookup_cons_of_ne h]
      · by_cases hother : other = key
        · simp [put, hkey, hother]
        · simp only [put, if_neg hkey, lookup_cons_of_ne hother, ih]

/-- Putting an entry in the place of another keeps the names. -/
theorem names_put {child : FileNode} (h : entries.lookup name = some child) (node : FileNode) :
    (put name node entries).map Prod.fst = entries.map Prod.fst := by
  induction entries with
  | nil => simp at h
  | cons entry more ih =>
      obtain ⟨key, value⟩ := entry
      by_cases hkey : key = name
      · simp [put, hkey]
      · rw [lookup_cons_of_ne (Ne.symm hkey)] at h
        simp [put, hkey, ih h]

end FileEntries

/-! ## Sights -/

/-- What a place shows, without what is below it. -/
inductive Sight where
  | file (content : ByteArray)
  | symlink (target : FileName)
  | directory (names : List FileName)
  | locked (isDirectory : Bool) (fault : FileFault)

namespace Sight

/-- A sight without the content of a file. -/
def shape : Sight → Sight
  | file _ => file .empty
  | sight => sight

variable {s s' : Sight}

/-- A shape tells everything but the content of a file. -/
theorem eq_of_shape_eq (h : s.shape = s'.shape) (hfile : ∀ content, s ≠ .file content) :
    s' = s := by
  cases s <;> cases s' <;> simp_all [shape]

theorem ne_link_of_shape_eq (h : s.shape = s'.shape) (hlink : ∀ target, s ≠ .symlink target)
    (target : FileName) : s' ≠ .symlink target := by
  cases s <;> cases s' <;> simp_all [shape]

end Sight

namespace FileNode

/-- What a node shows. -/
def sight : FileNode → Sight
  | .file content => .file content
  | .symlink target => .symlink target
  | .directory entries => .directory (entries.map Prod.fst)
  | .locked isDirectory fault => .locked isDirectory fault

theorem sight_ne_link {node : FileNode} (h : ∀ target, node ≠ .symlink target) (target : FileName) :
    node.sight ≠ .symlink target := by
  cases node <;> simp_all [sight]

theorem sight_ne_directory {node : FileNode} (h : ∀ entries, node ≠ .directory entries)
    (names : List FileName) : node.sight ≠ .directory names := by
  cases node <;> simp_all [sight]

/-- What a place shows, no link being followed. -/
def sightAt (tree : FileNode) (place : Path) : Option Sight := (tree.get? place).map sight

variable {tree : FileNode} {place other : Path} {old new : ByteArray}

@[simp] theorem get?_nil (node : FileNode) : node.get? [] = some node := by
  cases node <;> rfl

/-- A path can be followed in two parts. -/
theorem get?_append (tree : FileNode) (place more : Path) :
    tree.get? (place ++ more) = (tree.get? place).bind (get? · more) := by
  induction place generalizing tree with
  | nil => simp
  | cons name place ih =>
      cases tree with
      | directory entries => cases h : entries.lookup name <;> simp [get?, h, ih]
      | file content => rfl
      | symlink target => rfl
      | locked isDirectory fault => rfl

theorem get?_of_sightAt_file (h : tree.sightAt place = some (.file old)) :
    tree.get? place = some (.file old) := by
  obtain ⟨node, hnode, hsight⟩ := Option.map_eq_some_iff.mp h
  cases node <;> simp_all [sight]

/-! ## Writing -/

/-- A file put in the place of a file changes the sight of this place only. -/
theorem sightAt_insert (h : tree.get? place = some (.file old)) (other : Path) :
    (insert (.file new) place tree).sightAt other =
      if other = place then some (.file new) else tree.sightAt other := by
  induction place generalizing tree other with
  | nil =>
      obtain rfl : tree = .file old := by simpa using h
      cases other with
      | nil => simp [insert, sightAt, sight]
      | cons name more => simp [insert, sightAt, get?]
  | cons name place ih =>
      cases tree with
      | directory entries =>
          cases hchild : entries.lookup name with
          | none => simp [get?, hchild] at h
          | some child =>
              have hfile : child.get? place = some (.file old) := by simpa [get?, hchild] using h
              cases other with
              | nil =>
                  have hnames := FileEntries.names_put hchild (insert (.file new) place child)
                  simp [insert, sightAt, sight, hchild, hnames]
              | cons name' more =>
                  by_cases hname : name' = name
                  · subst hname
                    simpa [insert, sightAt, get?, FileEntries.lookup_put_self, hchild] using
                      ih hfile more
                  · simp [insert, sightAt, get?, FileEntries.lookup_put_of_ne hname, hname]
      | file content => simp [get?] at h
      | symlink target => simp [get?] at h
      | locked isDirectory fault => simp [get?] at h

/-! ## Following paths -/

/-- Whether a text can be the name of an entry. -/
def IsName (name : FileName) : Prop := name ≠ "" ∧ name ≠ "." ∧ name ≠ ".."

instance (name : FileName) : Decidable (IsName name) := inferInstanceAs (Decidable (_ ∧ _ ∧ _))

section Steps

variable {entries : FileEntries} {name : FileName} {more : Path} {links : Nat}

/-- A directory is seen with its names. -/
theorem sightAt_directory (h : tree.get? place = some (.directory entries)) :
    tree.sightAt place = some (.directory (entries.map Prod.fst)) := by
  simp [sightAt, h, sight]

/-- What is seen at an entry of a directory. -/
theorem sightAt_entry (h : tree.get? place = some (.directory entries)) (name : FileName) :
    tree.sightAt (place ++ [name]) = (entries.lookup name).map sight := by
  cases hentry : entries.lookup name <;> simp [sightAt, get?_append, h, get?, hentry]

/-- Where a directory is seen there is one. -/
theorem exists_of_sightAt_directory {names : List FileName}
    (h : tree.sightAt place = some (.directory names)) :
    ∃ entries, tree.get? place = some (.directory entries) := by
  obtain ⟨node, hnode, hsight⟩ := Option.map_eq_some_iff.mp h
  cases node <;> simp_all [sight]

variable {names : List FileName} (h : tree.sightAt place = some (.directory names))
include h

/-- An empty name and a `.` lead nowhere else. -/
theorem follow_stay (hname : name = "" ∨ name = ".") :
    tree.follow links place (name :: more) = tree.follow links place more := by
  obtain ⟨entries, hentries⟩ := exists_of_sightAt_directory h
  rw [follow, hentries]
  simp [hname]

/-- A `..` leads to the directory above. -/
theorem follow_up :
    tree.follow links place (".." :: more) = tree.follow links place.dropLast more := by
  obtain ⟨entries, hentries⟩ := exists_of_sightAt_directory h
  rw [follow, hentries]
  simp

/-- A name that no entry has leads to an error. -/
theorem follow_missing (hname : IsName name) (hentry : tree.sightAt (place ++ [name]) = none) :
    tree.follow links place (name :: more) = .error .notFound := by
  obtain ⟨entries, hentries⟩ := exists_of_sightAt_directory h
  rw [sightAt_entry hentries, Option.map_eq_none_iff] at hentry
  rw [follow, hentries]
  simp only [hname.1, hname.2.1, hname.2.2, hentry, or_self, if_false]

/-- When the links are used up there is an error. -/
theorem follow_link_zero {target : FileName} (hname : IsName name)
    (hentry : tree.sightAt (place ++ [name]) = some (.symlink target)) :
    tree.follow 0 place (name :: more) = .error .tooManyLinks := by
  obtain ⟨entries, hentries⟩ := exists_of_sightAt_directory h
  rw [sightAt_entry hentries, Option.map_eq_some_iff] at hentry
  obtain ⟨node, hnode, hsight⟩ := hentry
  cases node <;> simp [sight] at hsight
  rw [follow, hentries]
  simp only [hname.1, hname.2.1, hname.2.2, hnode, or_self, if_false]

/-- A link is replaced by its target, which is read from the root or from where the link stands. -/
theorem follow_link_succ {target : FileName} (hname : IsName name)
    (hentry : tree.sightAt (place ++ [name]) = some (.symlink target)) :
    tree.follow (links + 1) place (name :: more) =
      tree.follow links (if (steps target).1 then [] else place) ((steps target).2 ++ more) := by
  obtain ⟨entries, hentries⟩ := exists_of_sightAt_directory h
  rw [sightAt_entry hentries, Option.map_eq_some_iff] at hentry
  obtain ⟨node, hnode, hsight⟩ := hentry
  cases node <;> simp [sight] at hsight
  subst hsight
  rw [follow, hentries]
  simp only [hname.1, hname.2.1, hname.2.2, hnode, or_self, if_false]

/-- A name of an entry that is no link leads to the entry. -/
theorem follow_entry {sight : Sight} (hname : IsName name)
    (hentry : tree.sightAt (place ++ [name]) = some sight)
    (hsight : ∀ target, sight ≠ .symlink target) :
    tree.follow links place (name :: more) = tree.follow links (place ++ [name]) more := by
  obtain ⟨entries, hentries⟩ := exists_of_sightAt_directory h
  rw [sightAt_entry hentries, Option.map_eq_some_iff] at hentry
  obtain ⟨node, hnode, rfl⟩ := hentry
  rw [follow, hentries]
  simp only [hname.1, hname.2.1, hname.2.2, hnode, or_self, if_false]
  cases node with
  | symlink target => exact absurd rfl (hsight target)
  | file content => rfl
  | directory entries => rfl
  | locked isDirectory fault => rfl

end Steps

/-- Why no path goes on from a place that is no directory. -/
def wayFault : Option Sight → FileFault
  | some (.locked true fault) => fault
  | some _ => .notADirectory
  | none => .notFound

/-- Only a directory can be gone through. -/
theorem follow_blocked {name : FileName} {more : Path} {links : Nat}
    (h : ∀ names, tree.sightAt place ≠ some (.directory names)) :
    tree.follow links place (name :: more) = .error (wayFault (tree.sightAt place)) := by
  cases hnode : tree.get? place with
  | none => simp [follow, sightAt, hnode, wayFault]
  | some node =>
      cases node with
      | directory entries => exact absurd (sightAt_directory hnode) (h _)
      | file content => simp [follow, sightAt, hnode, sight, wayFault]
      | symlink target => simp [follow, sightAt, hnode, sight, wayFault]
      | locked isDirectory fault =>
          cases isDirectory <;> simp [follow, sightAt, hnode, sight, wayFault]

/-- Induction along a path, by what the places on the way show. -/
theorem follow_induction (tree : FileNode) {motive : Nat → Path → Path → Prop}
    (nil : ∀ links place, motive links place [])
    (stay : ∀ links place (name : FileName) more names,
      tree.sightAt place = some (.directory names) → (name = "" ∨ name = ".") →
        motive links place more → motive links place (name :: more))
    (up : ∀ links place more names, tree.sightAt place = some (.directory names) →
      motive links place.dropLast more → motive links place (".." :: more))
    (missing : ∀ links place name more names, tree.sightAt place = some (.directory names) →
      IsName name → tree.sightAt (place ++ [name]) = none → motive links place (name :: more))
    (linkZero : ∀ place name more names target, tree.sightAt place = some (.directory names) →
      IsName name → tree.sightAt (place ++ [name]) = some (.symlink target) →
        motive 0 place (name :: more))
    (linkSucc : ∀ links place name more names target,
      tree.sightAt place = some (.directory names) → IsName name →
        tree.sightAt (place ++ [name]) = some (.symlink target) →
          motive links (if (steps target).1 then [] else place) ((steps target).2 ++ more) →
            motive (links + 1) place (name :: more))
    (entry : ∀ links place name more names sight, tree.sightAt place = some (.directory names) →
      IsName name → tree.sightAt (place ++ [name]) = some sight →
        (∀ target, sight ≠ .symlink target) → motive links (place ++ [name]) more →
          motive links place (name :: more))
    (blocked : ∀ links place name more, (∀ names, tree.sightAt place ≠ some (.directory names)) →
      motive links place (name :: more))
    (links : Nat) (place : Path) (names : List FileName) : motive links place names := by
  have hname : ∀ {name : FileName}, ¬ (name = "" ∨ name = ".") → ¬ name = ".." → IsName name := by
    simp +contextual [IsName]
  induction links, place, names using follow.induct tree with
  | case1 links place => exact nil links place
  | case2 links place name more entries hplace hstay ih =>
      exact stay _ _ _ _ _ (sightAt_directory hplace) hstay ih
  | case3 links place more entries hplace hstay ih =>
      exact up _ _ _ _ (sightAt_directory hplace) ih
  | case4 links place name more entries hplace hstay hup hnone =>
      refine missing _ _ _ _ _ (sightAt_directory hplace) (hname hstay hup) ?_
      rw [sightAt_entry hplace, hnone, Option.map_none]
  | case5 place name more entries hplace hstay hup target hlink =>
      refine linkZero _ _ _ _ target (sightAt_directory hplace) (hname hstay hup) ?_
      rw [sightAt_entry hplace, hlink, Option.map_some, sight]
  | case6 place name more entries hplace hstay hup target hlink links fromRoot names hsteps ih =>
      refine linkSucc _ _ _ _ _ target (sightAt_directory hplace) (hname hstay hup) ?_ ?_
      · rw [sightAt_entry hplace, hlink, Option.map_some, sight]
      · rw [hsteps]
        exact ih
  | case7 links place name more entries hplace hstay hup child hnolink hchild ih =>
      refine entry _ _ _ _ _ child.sight (sightAt_directory hplace) (hname hstay hup) ?_
        (sight_ne_link hnolink) ih
      rw [sightAt_entry hplace, hchild, Option.map_some]
  | case8 links place name more fault hplace =>
      exact blocked _ _ _ _ (by simp [sightAt, hplace, sight])
  | case9 links place name more node hdirectory hlocked hplace =>
      refine blocked _ _ _ _ fun names => ?_
      simpa [sightAt, hplace] using sight_ne_directory hdirectory names
  | case10 links place name more hplace =>
      exact blocked _ _ _ _ (by simp [sightAt, hplace])

/-! ## Shapes -/

/-- Two file systems with the same directories, links and files, whatever the files hold. -/
def SameShape (tree tree' : FileNode) : Prop :=
  ∀ place, (tree.sightAt place).map Sight.shape = (tree'.sightAt place).map Sight.shape

namespace SameShape

variable {tree' tree'' : FileNode}

theorem symm (h : SameShape tree tree') : SameShape tree' tree := fun place => (h place).symm

theorem trans (h : SameShape tree tree') (h' : SameShape tree' tree'') : SameShape tree tree'' :=
  fun place => (h place).trans (h' place)

/-- Where there is nothing there is nothing in a tree of the same shape. -/
theorem sightAt_eq_none (h : SameShape tree tree') (hnone : tree.sightAt place = none) :
    tree'.sightAt place = none := by
  have hshape := h place
  rw [hnone] at hshape
  exact Option.map_eq_none_iff.mp hshape.symm

/-- Only files can show something else. -/
theorem sightAt_eq_some (h : SameShape tree tree') {sight : Sight}
    (hsight : tree.sightAt place = some sight) (hfile : ∀ content, sight ≠ .file content) :
    tree'.sightAt place = some sight := by
  have hshape := h place
  rw [hsight, Option.map_some] at hshape
  obtain ⟨sight', hsight', heq⟩ := Option.map_eq_some_iff.mp hshape.symm
  rw [hsight', Sight.eq_of_shape_eq heq.symm hfile]

/-- An entry that is no link is none in both. -/
theorem exists_entry (h : SameShape tree tree') {sight : Sight}
    (hsight : tree.sightAt place = some sight) (hlink : ∀ target, sight ≠ .symlink target) :
    ∃ sight', tree'.sightAt place = some sight' ∧ ∀ target, sight' ≠ .symlink target := by
  have hshape := h place
  rw [hsight, Option.map_some] at hshape
  obtain ⟨sight', hsight', heq⟩ := Option.map_eq_some_iff.mp hshape.symm
  exact ⟨sight', hsight', Sight.ne_link_of_shape_eq heq.symm hlink⟩

/-- A place is a directory in both. -/
theorem directory_iff (h : SameShape tree tree') {names : List FileName} :
    tree.sightAt place = some (.directory names) ↔ tree'.sightAt place = some (.directory names) :=
  ⟨fun hdir => h.sightAt_eq_some hdir (by simp), fun hdir => h.symm.sightAt_eq_some hdir (by simp)⟩

/-- What is in the way is the same in a tree of the same shape. -/
theorem wayFault_eq (h : SameShape tree tree') :
    wayFault (tree.sightAt place) = wayFault (tree'.sightAt place) := by
  have hshape := h place
  have hfault : ∀ sight : Option Sight, wayFault (sight.map Sight.shape) = wayFault sight := by
    intro sight
    rcases sight with _ | _ | _ | _ | ⟨_ | _, _⟩ <;> rfl
  rw [← hfault, hshape, hfault]

/-- Where a path leads does not depend on what files hold. -/
theorem follow_eq (h : SameShape tree tree') (links : Nat) (place : Path) (names : List FileName) :
    tree'.follow links place names = tree.follow links place names := by
  induction links, place, names using follow_induction tree with
  | nil links place => simp [follow]
  | stay links place name more names hdir hstay ih =>
      rw [follow_stay hdir hstay, follow_stay (h.directory_iff.mp hdir) hstay, ih]
  | up links place more names hdir ih =>
      rw [follow_up hdir, follow_up (h.directory_iff.mp hdir), ih]
  | missing links place name more names hdir hname hentry =>
      rw [follow_missing hdir hname hentry, follow_missing (h.directory_iff.mp hdir) hname
        (h.sightAt_eq_none hentry)]
  | linkZero place name more names target hdir hname hentry =>
      rw [follow_link_zero hdir hname hentry, follow_link_zero (h.directory_iff.mp hdir) hname
        (h.sightAt_eq_some hentry (by simp))]
  | linkSucc links place name more names target hdir hname hentry ih =>
      rw [follow_link_succ hdir hname hentry, follow_link_succ (h.directory_iff.mp hdir) hname
        (h.sightAt_eq_some hentry (by simp)), ih]
  | entry links place name more names sight hdir hname hentry hsight ih =>
      obtain ⟨sight', hentry', hsight'⟩ := h.exists_entry hentry hsight
      rw [follow_entry hdir hname hentry hsight, follow_entry (h.directory_iff.mp hdir) hname
        hentry' hsight', ih]
  | blocked links place name more hblocked =>
      have hblocked' : ∀ names, tree'.sightAt place ≠ some (.directory names) := by
        intro names hdir
        exact hblocked names (h.directory_iff.mpr hdir)
      rw [follow_blocked hblocked, follow_blocked hblocked', h.wayFault_eq]

end SameShape

/-! ## Reading and writing -/

/-- Paths lead to the same places in trees of the same shape. -/
theorem resolve_eq_of_sameShape {tree' : FileNode} (h : SameShape tree tree') (path : Path) :
    tree'.resolve path = tree.resolve path :=
  h.follow_eq linkLimit [] path

/-- The bytes of a file are read at the place where its path leads. -/
theorem readBytes_eq_ok_iff {path : Path} {content : ByteArray} :
    tree.readBytes path = .ok content ↔
      ∃ place, tree.resolve path = .ok place ∧ tree.sightAt place = some (.file content) := by
  cases hplace : tree.resolve path with
  | error fault => simp [readBytes, find, hplace, bind, Except.bind]
  | ok place =>
      cases hnode : tree.get? place with
      | none => simp [readBytes, find, hplace, hnode, sightAt, bind, Except.bind]
      | some node =>
          rcases node with _ | _ | _ | ⟨_ | _, _⟩ <;>
            simp [readBytes, find, hplace, hnode, sightAt, sight, bind, Except.bind]

/-- A text is read where its bytes are. -/
theorem readText_eq_ok_iff {path : Path} {text : String} :
    tree.readText path = .ok text ↔
      ∃ place, tree.resolve path = .ok place ∧ tree.sightAt place = some (.file text.toUTF8) := by
  rw [← readBytes_eq_ok_iff]
  cases hbytes : tree.readBytes path with
  | error fault => simp [readText, hbytes, bind, Except.bind]
  | ok content =>
      by_cases hvalid : content.IsValidUTF8
      · simp [readText, hbytes, bind, Except.bind, String.fromUTF8?, hvalid, String.toUTF8,
          ← String.toByteArray_inj, String.fromUTF8]
      · have hne : content ≠ text.toByteArray := fun heq => hvalid (heq ▸ text.isValidUTF8)
        simp [readText, hbytes, bind, Except.bind, String.fromUTF8?, hvalid, hne]

/-- Writing a file changes the sight of the place that its path means. -/
theorem sightAt_writeText {path : Path} (hplace : tree.resolve path = .ok place)
    (hfile : tree.sightAt place = some (.file old)) (text : String) (other : Path) :
    (tree.writeText path text).sightAt other =
      if other = place then some (.file text.toUTF8) else tree.sightAt other := by
  rw [writeText, hplace]
  exact sightAt_insert (get?_of_sightAt_file hfile) other

/-- Writing to a file keeps the shape of the tree. -/
theorem sameShape_writeText {path : Path} (h : tree.readBytes path = .ok old) (text : String) :
    SameShape tree (tree.writeText path text) := by
  obtain ⟨place, hplace, hfile⟩ := readBytes_eq_ok_iff.mp h
  intro other
  rw [sightAt_writeText hplace hfile]
  by_cases hother : other = place
  · simp [hother, hfile, Sight.shape]
  · simp [hother]

/-- Write texts one after the other. -/
def writeAll (tree : FileNode) (writes : List (Path × String)) : FileNode :=
  writes.foldl (fun tree write => tree.writeText write.1 write.2) tree

/-- The text of the last write at a place. -/
def lastWritten (tree : FileNode) (place : Path) : List (Path × String) → Option String
  | [] => none
  | (path, text) :: more =>
      (lastWritten tree place more).or
        (if (tree.resolve path).toOption = some place then some text else none)

/-- A text that is written last at a place is one that is written there. -/
theorem exists_of_lastWritten {writes : List (Path × String)} {text : String}
    (h : tree.lastWritten place writes = some text) :
    ∃ path, (path, text) ∈ writes ∧ tree.resolve path = .ok place := by
  induction writes with
  | nil => simp [lastWritten] at h
  | cons write more ih =>
      obtain ⟨path, new⟩ := write
      cases hmore : tree.lastWritten place more with
      | some later =>
          obtain ⟨path', hmem, hresolve⟩ := ih (by simpa [lastWritten, hmore] using h)
          exact ⟨path', List.mem_cons_of_mem _ hmem, hresolve⟩
      | none =>
          cases hresolve : tree.resolve path <;> simp_all [lastWritten, Except.toOption]

/-- What is written to a path is written to its place. -/
theorem isSome_lastWritten {writes : List (Path × String)} {path : Path} {text : String}
    (hmem : (path, text) ∈ writes) (hplace : tree.resolve path = .ok place) :
    (tree.lastWritten place writes).isSome := by
  induction writes with
  | nil => contradiction
  | cons write more ih =>
      obtain heq | hmem := List.mem_cons.mp hmem
      · simp [lastWritten, ← heq, hplace, Except.toOption]
      · simp [lastWritten, ih hmem]

/-- Which text is written last is the same in a tree of the same shape. -/
theorem lastWritten_eq_of_sameShape {tree' : FileNode} (h : SameShape tree tree') (place : Path)
    (writes : List (Path × String)) :
    tree'.lastWritten place writes = tree.lastWritten place writes := by
  induction writes with
  | nil => rfl
  | cons write more ih => simp only [lastWritten, ih, resolve_eq_of_sameShape h]

/-- Writes over files keep the shape of a file system, and at each place the last one counts. -/
theorem sightAt_writeAll {writes : List (Path × String)}
    (h : ∀ write ∈ writes, ∃ content, tree.readBytes write.1 = .ok content) :
    SameShape tree (tree.writeAll writes) ∧
      ∀ place, (tree.writeAll writes).sightAt place =
        ((tree.lastWritten place writes).map fun text => Sight.file text.toUTF8).or
          (tree.sightAt place) := by
  induction writes generalizing tree with
  | nil => exact ⟨fun _ => rfl, fun _ => rfl⟩
  | cons write more ih =>
      obtain ⟨path, text⟩ := write
      obtain ⟨old, hold⟩ := h (path, text) (List.mem_cons_self ..)
      obtain ⟨target, htarget, hfile⟩ := readBytes_eq_ok_iff.mp hold
      have hshape := sameShape_writeText hold text
      have hread : ∀ write ∈ more,
          ∃ content, (tree.writeText path text).readBytes write.1 = .ok content := by
        intro write hwrite
        obtain ⟨content, hcontent⟩ := h write (List.mem_cons_of_mem _ hwrite)
        obtain ⟨place, hplace, hfile'⟩ := readBytes_eq_ok_iff.mp hcontent
        have hsight := sightAt_writeText htarget hfile text place
        rw [← resolve_eq_of_sameShape hshape] at hplace
        by_cases heq : place = target
        · exact ⟨_, readBytes_eq_ok_iff.mpr ⟨place, hplace, by rw [hsight, if_pos heq]⟩⟩
        · exact ⟨_, readBytes_eq_ok_iff.mpr ⟨place, hplace, by rw [hsight, if_neg heq, hfile']⟩⟩
      -- The first write keeps the shape, so the paths of the others mean what they did before it.
      obtain ⟨hshape', hsight⟩ := ih hread
      refine ⟨hshape.trans hshape', fun place => ?_⟩
      rw [writeAll, List.foldl_cons, ← writeAll, hsight, lastWritten_eq_of_sameShape hshape,
        sightAt_writeText htarget hfile, lastWritten, htarget]
      cases tree.lastWritten place more with
      | some later => simp
      | none =>
          by_cases heq : place = target
          · simp [heq, Except.toOption]
          · simp [heq, Ne.symm heq, Except.toOption]

end FileNode

end TemplateMigration
