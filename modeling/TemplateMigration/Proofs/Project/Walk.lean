import TemplateMigration.Project.Discovery
import TemplateMigration.Proofs.Project.Places

/-!
# TemplateMigration.Proofs.Project.Walk

What a walk over a directory finds.

A walk goes from a directory to its entries, unless the directory is skipped or ignored
(`Selection.Reaches`).  It fails exactly when it is about to enter a directory that cannot be
opened, and otherwise it gives the files and links that it reaches and that are selected
(`fails_templates_iff`, `mem_templates_iff`).  Where there are no links, a path that is found leads
to the place that its names say (`follow_eq_append`).
-/

namespace TemplateMigration

/-! ## Attempts in a row -/

section Attempts

variable {α β ε ε' : Type} {x : Except ε α} {k : α → Except ε β} {f : α → Except ε β} {xs : List α}

/-- Whether an attempt fails. -/
def Fails (x : Except ε α) : Prop := ∃ e, x = .error e

@[simp] theorem fails_error (e : ε) : Fails (.error e : Except ε α) := ⟨e, rfl⟩

@[simp] theorem not_fails_ok (a : α) : ¬ Fails (.ok a : Except ε α) := by simp [Fails]

/-- A computation fails or has a value. -/
theorem fails_or_exists (x : Except ε α) : Fails x ∨ ∃ a, x = .ok a := by
  cases x <;> simp

theorem toOption_eq_some_iff {a : α} : x.toOption = some a ↔ x = .ok a := by
  cases x <;> simp [Except.toOption]

/-- Two computations have a value if the first has one and the second has one for it. -/
theorem bind_eq_ok_iff {b : β} : x >>= k = .ok b ↔ ∃ a, x = .ok a ∧ k a = .ok b := by
  cases x <;> simp [bind, Except.bind]

/-- Two computations fail if the first does, or the second for the value of the first. -/
theorem fails_bind_iff : Fails (x >>= k) ↔ Fails x ∨ ∃ a, x = .ok a ∧ Fails (k a) := by
  cases x <;> simp [bind, Except.bind]

@[simp] theorem mapError_error (g : ε → ε') (e : ε) :
    (.error e : Except ε α).mapError g = .error (g e) := rfl

@[simp] theorem mapError_ok (g : ε → ε') (a : α) : (.ok a : Except ε α).mapError g = .ok a := rfl

theorem mapError_eq_ok_iff {g : ε → ε'} {a : α} : x.mapError g = .ok a ↔ x = .ok a := by
  cases x <;> simp

theorem fails_mapError_iff {g : ε → ε'} : Fails (x.mapError g) ↔ Fails x := by
  cases x <;> simp

theorem map_eq_ok_iff {g : α → β} {b : β} : x.map g = .ok b ↔ ∃ a, x = .ok a ∧ g a = b := by
  cases x <;> simp [Except.map]

theorem fails_map_iff {g : α → β} : Fails (x.map g) ↔ Fails x := by
  cases x <;> simp [Except.map]

/-- A row of attempts fails when one of them does. -/
theorem fails_mapM_iff : Fails (xs.mapM f) ↔ ∃ x ∈ xs, Fails (f x) := by
  induction xs with
  | nil => simp [pure, Except.pure]
  | cons x xs ih =>
      rw [List.mapM_cons, fails_bind_iff]
      cases hx : f x with
      | error e => simp [hx]
      | ok y => simp [hx, fails_bind_iff, ih, pure, Except.pure]

/-- A successful row of attempts: each has its result, and each result its attempt. -/
theorem mem_of_mapM_eq_ok {ys : List β} (h : xs.mapM f = .ok ys) :
    (∀ x ∈ xs, ∃ y ∈ ys, f x = .ok y) ∧ ∀ y ∈ ys, ∃ x ∈ xs, f x = .ok y := by
  induction xs generalizing ys with
  | nil =>
      cases h
      simp
  | cons x xs ih =>
      rw [List.mapM_cons, bind_eq_ok_iff] at h
      obtain ⟨y, hx, h⟩ := h
      obtain ⟨ys', hxs, h⟩ := bind_eq_ok_iff.mp h
      cases h
      obtain ⟨hleft, hright⟩ := ih hxs
      constructor
      · intro x' hx'
        obtain rfl | hmem := List.mem_cons.mp hx'
        · exact ⟨y, List.mem_cons_self .., hx⟩
        · obtain ⟨y', hy', heq⟩ := hleft x' hmem
          exact ⟨y', List.mem_cons_of_mem _ hy', heq⟩
      · intro y' hy'
        obtain rfl | hmem := List.mem_cons.mp hy'
        · exact ⟨x, List.mem_cons_self .., hx⟩
        · obtain ⟨x', hx', heq⟩ := hright y' hmem
          exact ⟨x', List.mem_cons_of_mem _ hx', heq⟩

/-- A computation that has a value everywhere has them all. -/
theorem mapM_eq_ok_map {g : α → β} (h : ∀ x ∈ xs, f x = .ok (g x)) :
    xs.mapM f = .ok (xs.map g) := by
  induction xs with
  | nil => rfl
  | cons x xs ih =>
      rw [List.forall_mem_cons] at h
      rw [List.mapM_cons, h.1, ih h.2]
      rfl

end Attempts

/-! ## Spots -/

/-- An entry of a directory, with the path of the directory. -/
structure Spot where
  parent : Path
  name : FileName
  node : FileNode

namespace Spot

/-- The path of an entry. -/
def path (spot : Spot) : Path := spot.parent ++ [spot.name]

/-- The entries of a directory. -/
def ofEntries (parent : Path) (entries : FileEntries) : List Spot :=
  entries.map fun entry => ⟨parent, entry.1, entry.2⟩

theorem ofEntries_cons (parent : Path) (entry : FileName × FileNode) (entries : FileEntries) :
    ofEntries parent (entry :: entries) = ⟨parent, entry.1, entry.2⟩ :: ofEntries parent entries :=
  rfl

/-- Whether an entry is a directory, which need not be one that can be opened. -/
def isDirectory (spot : Spot) : Bool :=
  match spot.node with
  | .directory _ | .locked true _ => true
  | _ => false

end Spot

/-- Induction over a file tree, with a hypothesis for every entry of a directory. -/
theorem FileNode.induction {motive : FileNode → Prop} (file : ∀ content, motive (.file content))
    (symlink : ∀ target, motive (.symlink target))
    (directory : ∀ entries : FileEntries, (∀ entry ∈ entries, motive entry.2) →
      motive (.directory entries))
    (locked : ∀ isDirectory fault, motive (.locked isDirectory fault)) (node : FileNode) :
    motive node := by
  refine @FileNode.rec motive (fun entries => ∀ entry ∈ entries, motive entry.2)
    (fun entry => motive entry.2) file symlink directory locked ?_ ?_ ?_ node
  · simp
  · intro entry more hentry hmore
    exact List.forall_mem_cons.mpr ⟨hentry, hmore⟩
  · exact fun _ _ h => h

namespace Selection

variable {s : Selection} {spot target : Spot} {fault : FileFault} {paths : List Path}

/-- Whether a walk enters a directory. -/
def enters (s : Selection) (spot : Spot) : Bool :=
  !(skipsDirectory spot.name || s.isIgnored spot.path true)

/-- Whether a walk gives what it finds at a path, if it is no directory. -/
def selects (s : Selection) (path : Path) : Bool := !s.isIgnored path false && s.isTemplate path

/-- Where a walk comes to from an entry. -/
inductive Reaches (s : Selection) : Spot → Spot → Prop
  | refl (spot : Spot) : Reaches s spot spot
  | enter {spot next target : Spot} {entries : FileEntries} (hnode : spot.node = .directory entries)
      (henters : s.enters spot) (hnext : next ∈ Spot.ofEntries spot.path entries)
      (h : Reaches s next target) : Reaches s spot target

/-- The entries that a walk over a directory comes to. -/
def Visits (s : Selection) (entries : FileEntries) (target : Spot) : Prop :=
  ∃ spot ∈ Spot.ofEntries [] entries, s.Reaches spot target

/-- The templates at or below an entry. -/
def collectAt (s : Selection) (spot : Spot) : Except FileFault (List Path) :=
  s.collect spot.path spot.name spot.node

/-- What is found in a directory is what is found at its entries. -/
theorem collectAll_eq (s : Selection) (parent : Path) (entries : FileEntries) :
    s.collectAll parent entries =
      ((Spot.ofEntries parent entries).mapM s.collectAt).map List.flatten := by
  induction entries with
  | nil => rfl
  | cons entry more ih =>
      obtain ⟨name, node⟩ := entry
      rw [collectAll, ih, Spot.ofEntries_cons, List.mapM_cons, collectAt, Spot.path]
      cases s.collect (parent ++ [name]) name node with
      | error fault => rfl
      | ok here => cases (Spot.ofEntries parent more).mapM s.collectAt <;> rfl

/-- A walk through a directory fails exactly if it fails at one of the entries. -/
theorem fails_collectAll_iff {parent : Path} {entries : FileEntries} :
    Fails (s.collectAll parent entries) ↔
      ∃ spot ∈ Spot.ofEntries parent entries, Fails (s.collectAt spot) := by
  rw [collectAll_eq, fails_map_iff, fails_mapM_iff]

/-- What is collected from a directory is what is collected from its entries. -/
theorem mem_of_collectAll_eq_ok {parent : Path} {entries : FileEntries}
    (h : s.collectAll parent entries = .ok paths) :
    (∀ spot ∈ Spot.ofEntries parent entries,
        ∃ found, s.collectAt spot = .ok found ∧ found ⊆ paths) ∧
      ∀ path ∈ paths, ∃ spot ∈ Spot.ofEntries parent entries,
        ∃ found, s.collectAt spot = .ok found ∧ path ∈ found := by
  rw [collectAll_eq, map_eq_ok_iff] at h
  obtain ⟨founds, hrow, rfl⟩ := h
  obtain ⟨hleft, hright⟩ := mem_of_mapM_eq_ok hrow
  constructor
  · intro spot hspot
    obtain ⟨found, hfound, heq⟩ := hleft spot hspot
    exact ⟨found, heq, fun path hpath => List.mem_flatten_of_mem hfound hpath⟩
  · intro path hpath
    obtain ⟨found, hfound, hpath⟩ := List.mem_flatten.mp hpath
    obtain ⟨spot, hspot, heq⟩ := hright found hfound
    exact ⟨spot, hspot, found, heq, hpath⟩

/-! ## Entries one by one -/

/-- What is found at a directory. -/
theorem collectAt_directory {entries : FileEntries} (h : spot.node = .directory entries) :
    s.collectAt spot = if s.enters spot then s.collectAll spot.path entries else .ok [] := by
  rw [collectAt, h, collect, enters]
  cases skipsDirectory spot.name || s.isIgnored spot.path true <;> rfl

/-- A directory that cannot be opened is an error if it is entered. -/
theorem collectAt_locked (h : spot.node = .locked true fault) :
    s.collectAt spot = if s.enters spot then .error fault else .ok [] := by
  rw [collectAt, h, collect, enters]
  cases skipsDirectory spot.name || s.isIgnored spot.path true <;> rfl

/-- What is found at anything else is it or nothing. -/
theorem collectAt_leaf (h : spot.isDirectory = false) :
    s.collectAt spot = .ok (if s.selects spot.path then [spot.path] else []) := by
  obtain ⟨parent, name, node⟩ := spot
  rcases node with _ | _ | _ | ⟨_ | _, _⟩ <;>
    simp_all [Spot.isDirectory, collectAt, collect, selects]

/-- A walk that fails has come to a directory that cannot be opened. -/
theorem exists_of_fails_collectAt (h : Fails (s.collectAt spot)) :
    ∃ target fault, s.Reaches spot target ∧ target.node = .locked true fault ∧ s.enters target := by
  obtain ⟨parent, name, node⟩ := spot
  induction node using FileNode.induction generalizing parent name with
  | file content => simp [collectAt, collect] at h
  | symlink target => simp [collectAt, collect] at h
  | locked isDirectory fault =>
      cases isDirectory with
      | false => simp [collectAt, collect] at h
      | true =>
          rw [collectAt_locked rfl] at h
          split at h
          · next henters => exact ⟨_, fault, .refl _, rfl, henters⟩
          · simp at h
  | directory entries ih =>
      rw [collectAt_directory rfl] at h
      split at h
      · next henters =>
          obtain ⟨spot, hspot, hfails⟩ := fails_collectAll_iff.mp h
          obtain ⟨entry, hentry, rfl⟩ := List.mem_map.mp hspot
          obtain ⟨target, fault, hreaches, hlocked⟩ := ih entry hentry _ _ hfails
          exact ⟨target, fault, .enter rfl henters hspot hreaches, hlocked⟩
      · simp at h

/-- A walk that comes to a directory that cannot be opened fails. -/
theorem fails_collectAt_of_reaches (h : s.Reaches spot target)
    (hlocked : target.node = .locked true fault) (henters : s.enters target) :
    Fails (s.collectAt spot) := by
  induction h with
  | refl spot => simp [collectAt_locked hlocked, henters]
  | enter hnode henters' hnext _ ih =>
      rw [collectAt_directory hnode, if_pos henters']
      exact fails_collectAll_iff.mpr ⟨_, hnext, ih hlocked henters⟩

/-- A walk that succeeds does so from every entry that it reaches, and gives what is found there. -/
theorem exists_collectAt_of_reaches (h : s.Reaches spot target)
    (hpaths : s.collectAt spot = .ok paths) :
    ∃ found, s.collectAt target = .ok found ∧ found ⊆ paths := by
  induction h generalizing paths with
  | refl spot => exact ⟨paths, hpaths, List.Subset.refl paths⟩
  | enter hnode henters hnext _ ih =>
      rw [collectAt_directory hnode, if_pos henters] at hpaths
      obtain ⟨inner, hinner, hsub⟩ := (mem_of_collectAll_eq_ok hpaths).1 _ hnext
      obtain ⟨found, hfound, hsub'⟩ := ih hinner
      exact ⟨found, hfound, List.Subset.trans hsub' hsub⟩

/-- What is found at a file is the file. -/
theorem path_of_mem_collectAt_leaf {path : Path} (h : spot.isDirectory = false)
    (hpaths : s.collectAt spot = .ok paths) (hpath : path ∈ paths) :
    s.selects path ∧ spot.path = path := by
  rw [collectAt_leaf h, Except.ok.injEq] at hpaths
  subst hpaths
  split at hpath
  · next hselects =>
      obtain rfl := List.mem_singleton.mp hpath
      exact ⟨hselects, rfl⟩
  · contradiction

/-- What a walk gives is reached and selected. -/
theorem exists_of_mem_collectAt {path : Path} (hpaths : s.collectAt spot = .ok paths)
    (hpath : path ∈ paths) :
    ∃ target, s.Reaches spot target ∧ target.isDirectory = false ∧ s.selects path ∧
      target.path = path := by
  obtain ⟨parent, name, node⟩ := spot
  induction node using FileNode.induction generalizing parent name paths with
  | file content => exact ⟨_, .refl _, rfl, path_of_mem_collectAt_leaf rfl hpaths hpath⟩
  | symlink target => exact ⟨_, .refl _, rfl, path_of_mem_collectAt_leaf rfl hpaths hpath⟩
  | locked isDirectory fault =>
      cases isDirectory with
      | false => exact ⟨_, .refl _, rfl, path_of_mem_collectAt_leaf rfl hpaths hpath⟩
      | true =>
          rw [collectAt_locked rfl] at hpaths
          split at hpaths
          · contradiction
          · cases hpaths
            contradiction
  | directory entries ih =>
      rw [collectAt_directory rfl] at hpaths
      split at hpaths
      · next henters =>
          obtain ⟨spot, hspot, found, hfound, hpath⟩ :=
            (mem_of_collectAll_eq_ok hpaths).2 path hpath
          obtain ⟨entry, hentry, rfl⟩ := List.mem_map.mp hspot
          obtain ⟨target, hreaches, htarget⟩ := ih entry hentry hpath _ _ hfound
          exact ⟨target, .enter rfl henters hspot hreaches, htarget⟩
      · cases hpaths
        contradiction

/-! ## Whole walks -/

variable {entries : FileEntries}

/-- **What a walk finds.**  The paths are those of the files and links that are reached and
selected. -/
theorem mem_templates_iff (h : s.templates entries = .ok paths) (path : Path) :
    path ∈ paths ↔ ∃ target, s.Visits entries target ∧ target.isDirectory = false ∧
      s.selects path ∧ target.path = path := by
  obtain ⟨found, hfound, rfl⟩ := map_eq_ok_iff.mp h
  obtain ⟨hentries, hpaths⟩ := mem_of_collectAll_eq_ok hfound
  rw [List.mem_mergeSort]
  constructor
  · intro hpath
    obtain ⟨spot, hspot, here, hhere, hpath⟩ := hpaths path hpath
    obtain ⟨target, hreaches, htarget⟩ := exists_of_mem_collectAt hhere hpath
    exact ⟨target, ⟨spot, hspot, hreaches⟩, htarget⟩
  · rintro ⟨target, ⟨spot, hspot, hreaches⟩, hleaf, hselects, rfl⟩
    obtain ⟨here, hhere, hsub⟩ := hentries spot hspot
    obtain ⟨there, hthere, hsub'⟩ := exists_collectAt_of_reaches hreaches hhere
    rw [collectAt_leaf hleaf, if_pos hselects] at hthere
    cases hthere
    exact hsub (hsub' (List.mem_singleton_self _))

/-- **When a walk fails.**  It comes to a directory that it would enter and that cannot be
opened. -/
theorem fails_templates_iff :
    Fails (s.templates entries) ↔
      ∃ target fault, s.Visits entries target ∧ target.node = .locked true fault ∧
        s.enters target := by
  rw [templates, fails_map_iff, fails_collectAll_iff]
  constructor
  · rintro ⟨spot, hspot, hfails⟩
    obtain ⟨target, fault, hreaches, hlocked⟩ := exists_of_fails_collectAt hfails
    exact ⟨target, fault, ⟨spot, hspot, hreaches⟩, hlocked⟩
  · rintro ⟨target, fault, ⟨spot, hspot, hreaches⟩, hlocked, henters⟩
    exact ⟨spot, hspot, fails_collectAt_of_reaches hreaches hlocked henters⟩

end Selection

/-! ## Trees without links -/

mutual

/-- Whether a node has no links below it, and only proper names. -/
def FileNode.isPlain : FileNode → Bool
  | .symlink _ => false
  | .directory entries => FileEntries.arePlain entries
  | .file _ | .locked _ _ => true

/-- Whether entries have no links among and below them, and only proper names. -/
def FileEntries.arePlain : List (FileName × FileNode) → Bool
  | [] => true
  | (name, node) :: more =>
      decide (FileNode.IsName name) && node.isPlain && FileEntries.arePlain more

end

namespace FileNode

variable {tree node : FileNode} {place : Path} {entries : FileEntries}

/-- The entries of a plain directory are plain and have names. -/
theorem isPlain_of_mem (h : FileEntries.arePlain entries) {name : FileName}
    (hmem : (name, node) ∈ entries) : IsName name ∧ node.isPlain := by
  induction entries with
  | nil => contradiction
  | cons entry more ih =>
      obtain ⟨key, value⟩ := entry
      simp only [FileEntries.arePlain, Bool.and_eq_true, decide_eq_true_eq] at h
      obtain heq | hmem := List.mem_cons.mp hmem
      · cases heq
        exact h.1
      · exact ih h.2 hmem

/-- Steps that lead somewhere leave the rest of a path to be followed from there. -/
theorem exists_follow_append {links : Nat} {names : List FileName} {target : Path}
    (h : tree.follow links place names = .ok target) (more : Path) :
    ∃ left, tree.follow links place (names ++ more) = tree.follow left target more := by
  induction links, place, names using follow_induction tree with
  | nil links place =>
      simp only [follow, Except.ok.injEq] at h
      exact ⟨links, by rw [h, List.nil_append]⟩
  | stay links place name names _ hdir hstay ih =>
      rw [follow_stay hdir hstay] at h
      rw [List.cons_append, follow_stay hdir hstay]
      exact ih h
  | up links place names _ hdir ih =>
      rw [follow_up hdir] at h
      rw [List.cons_append, follow_up hdir]
      exact ih h
  | missing links place name names _ hdir hname hentry =>
      rw [follow_missing hdir hname hentry] at h
      contradiction
  | linkZero place name names _ link hdir hname hentry =>
      rw [follow_link_zero hdir hname hentry] at h
      contradiction
  | linkSucc links place name names _ link hdir hname hentry ih =>
      rw [follow_link_succ hdir hname hentry] at h
      rw [List.cons_append, follow_link_succ hdir hname hentry, ← List.append_assoc]
      exact ih h
  | entry links place name names _ sight hdir hname hentry hsight ih =>
      rw [follow_entry hdir hname hentry hsight] at h
      rw [List.cons_append, follow_entry hdir hname hentry hsight]
      exact ih h
  | blocked links place name names hblocked =>
      rw [follow_blocked hblocked] at h
      contradiction

/-- Below a place without links a path leads to the place that its names say. -/
theorem follow_eq_append {links : Nat} {path target : Path} (hplace : tree.get? place = some node)
    (hplain : node.isPlain) (hnames : ∀ name ∈ path, IsName name)
    (h : tree.follow links place path = .ok target) : target = place ++ path := by
  -- A step that succeeds goes to an entry of a directory, and that is no link.
  induction path generalizing place node with
  | nil => simpa [follow, eq_comm] using h
  | cons name path ih =>
      obtain ⟨hname, hnames⟩ := List.forall_mem_cons.mp hnames
      cases node with
      | directory entries =>
          have hdir := sightAt_directory hplace
          cases hlookup : entries.lookup name with
          | none =>
              rw [follow_missing hdir hname (by simp [sightAt_entry hplace, hlookup])] at h
              contradiction
          | some child =>
              have hchild : child.isPlain := by
                obtain ⟨before, after, heq, -⟩ := List.lookup_eq_some_iff.mp hlookup
                have hmem : (name, child) ∈ entries := by simp [heq]
                exact (isPlain_of_mem hplain hmem).2
              have hnolink : ∀ link, child ≠ .symlink link := by
                rintro link rfl
                contradiction
              have hentry : tree.sightAt (place ++ [name]) = some child.sight := by
                rw [sightAt_entry hplace, hlookup, Option.map_some]
              rw [follow_entry hdir hname hentry (sight_ne_link hnolink)] at h
              have hget : tree.get? (place ++ [name]) = some child := by
                simp [get?_append, hplace, get?, hlookup]
              rw [ih hget hchild hnames h, List.append_assoc, List.singleton_append]
      | file content =>
          rw [follow_blocked (by simp [sightAt, hplace, sight])] at h
          contradiction
      | symlink link =>
          contradiction
      | locked isDirectory fault =>
          rw [follow_blocked (by simp [sightAt, hplace, sight])] at h
          contradiction

end FileNode

namespace Selection

variable {s : Selection} {spot target : Spot} {entries : FileEntries} {paths : List Path}

/-- A walk through a plain tree meets only names. -/
theorem isName_of_reaches (h : s.Reaches spot target) (hplain : spot.node.isPlain)
    (hnames : ∀ name ∈ spot.path, FileNode.IsName name) :
    ∀ name ∈ target.path, FileNode.IsName name := by
  induction h with
  | refl spot => exact hnames
  | enter hnode _ hnext _ ih =>
      obtain ⟨⟨name, node⟩, hentry, rfl⟩ := List.mem_map.mp hnext
      rw [hnode, FileNode.isPlain] at hplain
      obtain ⟨hname, hnode'⟩ := FileNode.isPlain_of_mem hplain hentry
      exact ih hnode' (List.forall_mem_append.mpr ⟨hnames, by simpa using hname⟩)

/-- The paths that a walk finds are made of the names of entries. -/
theorem isName_of_mem_templates (hplain : FileEntries.arePlain entries)
    (h : s.templates entries = .ok paths) {path : Path} (hpath : path ∈ paths) :
    ∀ name ∈ path, FileNode.IsName name := by
  obtain ⟨target, ⟨spot, hspot, hreaches⟩, -, -, rfl⟩ := (mem_templates_iff h path).mp hpath
  obtain ⟨⟨name, node⟩, hentry, rfl⟩ := List.mem_map.mp hspot
  obtain ⟨hname, hnode⟩ := FileNode.isPlain_of_mem hplain hentry
  exact isName_of_reaches hreaches hnode (by simpa [Spot.path] using hname)

end Selection

end TemplateMigration
