import TemplateMigration.Proofs.Project.Walk

/-!
# TemplateMigration.Proofs.Project.Discovered

Which files of a project are its templates, said without a walk.

A walk leaves out whole directories, level by level.  Since the names in a directory are distinct, a
path says which entry is meant, and the walk comes to it exactly if it enters every directory on the
way (`Selection.exists_visits_iff`).  So each template is found once.  What is found does not depend
on the order in which directories list their entries, except for its own order
(`Selection.exists_collectAll_of_reorders`), and that is lost when the paths are sorted.
-/

namespace TemplateMigration

/-! ## The order of paths -/

namespace FileName

variable {a b c : FileName}

theorem lt_irrefl (a : FileName) : ¬ a < a := List.lt_irrefl a.bytes

theorem lt_trans (hab : a < b) (hbc : b < c) : a < c := List.lt_trans hab hbc

theorem lt_or_lt_of_ne (h : a ≠ b) : a < b ∨ b < a := by
  by_cases hab : a < b
  · exact .inl hab
  · refine .inr (Decidable.byContradiction fun hba => h ?_)
    have heq : a.bytes = b.bytes := List.le_antisymm (List.not_lt.mp hba) (List.not_lt.mp hab)
    cases a
    cases b
    exact congrArg mk heq

end FileName

namespace Path

variable {p q r : Path}

/-- One path comes before another: at the first name where they differ, its own is smaller, or it
ends there. -/
def Before (p q : Path) : Prop := List.Lex (· < ·) p q

/-- The order of paths is that of the first names in which they differ. -/
theorem le_iff : le p q = true ↔ p = q ∨ Before p q := by
  unfold Before
  fun_induction le p q with
  | case1 q => cases q <;> simp
  | case2 a as => simp
  | case3 as b bs ih =>
      have hirrefl := FileName.lt_irrefl b
      grind [List.cons_lex_cons_iff]
  | case4 a as b bs hne => grind [List.cons_lex_cons_iff]

theorem le_trans (hpq : le p q = true) (hqr : le q r = true) : le p r = true := by
  fun_induction le p q generalizing r with
  | case1 q => rfl
  | case2 a as => contradiction
  | case3 as b bs ih => cases r <;> grind [le]
  | case4 a as b bs hne => cases r <;> grind [le, FileName.lt_irrefl, FileName.lt_trans]

theorem le_total (p q : Path) : (le p q || le q p) = true := by
  fun_induction le p q <;> grind [le, FileName.lt_or_lt_of_ne]

/-- Two paths that come before each other are one. -/
theorem le_antisymm (hpq : le p q = true) (hqp : le q p = true) : p = q := by
  fun_induction le p q with
  | case1 q => cases q <;> grind [le]
  | case2 a as => contradiction
  | case3 as b bs ih => grind [le]
  | case4 a as b bs hne => grind [le, FileName.lt_irrefl, FileName.lt_trans]

/-- Sorting puts paths in order. -/
theorem pairwise_mergeSort (paths : List Path) :
    (paths.mergeSort le).Pairwise fun p q => le p q = true :=
  @List.pairwise_mergeSort Path le (fun _ _ _ hpq hqr => le_trans hpq hqr) le_total paths

/-- Sorting forgets an order. -/
theorem mergeSort_eq_of_perm {paths paths' : List Path} (h : paths.Perm paths') :
    paths.mergeSort le = paths'.mergeSort le := by
  refine List.Perm.eq_of_pairwise (fun p q _ _ hpq hqp => le_antisymm hpq hqp)
    (pairwise_mergeSort paths) (pairwise_mergeSort paths') ?_
  exact (List.mergeSort_perm paths le).trans (h.trans (List.mergeSort_perm paths' le).symm)

/-- Paths of which none comes twice are put in strict order. -/
theorem pairwise_before_mergeSort {paths : List Path} (h : paths.Nodup) :
    (paths.mergeSort le).Pairwise Before := by
  have hnodup : (paths.mergeSort le).Nodup := (List.mergeSort_perm paths le).nodup_iff.mpr h
  refine (List.Pairwise.and (pairwise_mergeSort paths) hnodup).imp fun hboth => ?_
  exact (le_iff.mp hboth.1).resolve_left hboth.2

end Path

/-! ## Trees -/

namespace FileNode

variable {node child : FileNode} {entries : FileEntries} {name : FileName}

/-- In every directory of a tree the names are distinct. -/
def NamesDistinct (node : FileNode) : Prop :=
  ∀ path entries, node.get? path = some (.directory entries) → (entries.map Prod.fst).Nodup

/-- Every directory of a tree can be opened. -/
def Readable (node : FileNode) : Prop :=
  ∀ path fault, node.get? path ≠ some (.locked true fault)

/-- A path into a directory goes on in the entry of its first name. -/
theorem get?_directory_cons (path : Path) (h : entries.lookup name = some child) :
    (directory entries).get? (name :: path) = child.get? path := by
  simp [get?, h]

/-- What is below a directory is at or below one of its entries. -/
theorem exists_mem_of_get?_cons {path : Path}
    (h : (directory entries).get? (name :: path) = some node) :
    ∃ child, (name, child) ∈ entries ∧ child.get? path = some node := by
  rw [get?, Option.bind_eq_some_iff] at h
  obtain ⟨child, hlookup, hget⟩ := h
  obtain ⟨before, after, heq, -⟩ := List.lookup_eq_some_iff.mp hlookup
  exact ⟨child, by simp [heq], hget⟩

/-- Where names are distinct, an entry is found by its name. -/
theorem NamesDistinct.lookup_eq_some (h : (directory entries).NamesDistinct)
    (hmem : (name, child) ∈ entries) : entries.lookup name = some child := by
  have hnodup := h [] entries (get?_nil _)
  clear h
  induction entries with
  | nil => contradiction
  | cons entry more ih => grind

/-- The names below a directory are distinct too. -/
theorem NamesDistinct.of_mem (h : (directory entries).NamesDistinct)
    (hmem : (name, child) ∈ entries) : child.NamesDistinct := by
  intro path sub hsub
  rw [← get?_directory_cons path (h.lookup_eq_some hmem)] at hsub
  exact h _ _ hsub

theorem NamesDistinct.directory (hnames : (entries.map Prod.fst).Nodup)
    (h : ∀ entry ∈ entries, entry.2.NamesDistinct) : (directory entries).NamesDistinct := by
  intro path sub hsub
  cases path with
  | nil =>
      cases hsub
      exact hnames
  | cons name path =>
      obtain ⟨child, hentry, hget⟩ := exists_mem_of_get?_cons hsub
      exact h _ hentry path sub hget

theorem namesDistinct_file (content : ByteArray) : (file content).NamesDistinct := by
  intro path entries h
  cases path <;> cases h

/-- A directory is readable if all its entries are. -/
theorem Readable.directory (h : ∀ entry ∈ entries, entry.2.Readable) :
    (directory entries).Readable := by
  intro path fault hget
  cases path with
  | nil => cases hget
  | cons name path =>
      obtain ⟨child, hentry, hget⟩ := exists_mem_of_get?_cons hget
      exact h _ hentry path fault hget

theorem readable_file (content : ByteArray) : (file content).Readable := by
  intro path fault h
  cases path <;> cases h

end FileNode

/-- The same files and directories, listed in another order somewhere. -/
inductive FileEntries.Reorders : FileEntries → FileEntries → Prop
  | here {entries entries' : FileEntries} (h : entries.Perm entries') : Reorders entries entries'
  | inside {before after : FileEntries} {name : FileName} {entries entries' : FileEntries}
      (h : Reorders entries entries') :
      Reorders (before ++ (name, .directory entries) :: after)
        (before ++ (name, .directory entries') :: after)
  | trans {first second third : FileEntries} (h : Reorders first second)
      (h' : Reorders second third) : Reorders first third

/-- A text starts with a `.` exactly if its first byte is one: no longer character starts so. -/
theorem FileName.head?_bytes_ofString_eq_dot_iff {text : String} :
    (ofString text).bytes.head? = some 0x2E ↔ text.toList.head? = some '.' := by
  rw [bytes_ofString]
  constructor
  · intro hhead
    obtain ⟨more, hmore⟩ := List.head?_eq_some_iff.mp hhead
    have hdecode := decodeLossy_flatMap_utf8EncodeChar text.toList
    have hdot : 0x2E :: more = String.utf8EncodeChar '.' ++ more := rfl
    rw [hmore, hdot, decodeLossy_utf8EncodeChar_append] at hdecode
    rw [← hdecode]
    rfl
  · intro hhead
    obtain ⟨more, hmore⟩ := List.head?_eq_some_iff.mp hhead
    rw [hmore]
    rfl

/-- Which directories are entered.  A name that starts with a `.` keeps a walk out if it is text. -/
theorem skipsDirectory_eq_false_iff {name : FileName} :
    skipsDirectory name = false ↔
      (name.bytes.head? = some 0x2E → name.text? = none) ∧
        name ≠ "node_modules" ∧ name ≠ "target" := by
  rw [skipsDirectory]
  cases htext : name.text? with
  | none =>
      have hne : ∀ text : String, name ≠ text := by
        intro text heq
        rw [FileName.text?_eq_some_iff.mpr heq] at htext
        contradiction
      simp [hne]
  | some text =>
      obtain rfl := FileName.text?_eq_some_iff.mp htext
      simp [FileName.head?_bytes_ofString_eq_dot_iff, and_assoc]

namespace Selection

variable {s : Selection} {spot target : Spot} {entries : FileEntries} {paths : List Path}

/-! ## From visits to paths -/

theorem path_mk (parent : Path) (name : FileName) (node : FileNode) :
    (⟨parent, name, node⟩ : Spot).path = parent ++ [name] :=
  rfl

/-- Whether a walk enters the directory at a path. -/
def Opens (s : Selection) (path : Path) : Prop :=
  (∀ name ∈ path.getLast?, skipsDirectory name = false) ∧ s.isIgnored path true = false

/-- A walk enters a directory exactly if its name and its path are no reason not to. -/
theorem enters_iff : s.enters spot = true ↔ s.Opens spot.path := by
  simp [enters, Opens, Spot.path]

/-- What is reached is below, and every directory on the way is entered. -/
theorem exists_get?_of_reaches (h : s.Reaches spot target) (hdistinct : spot.node.NamesDistinct) :
    ∃ rest, target.path = spot.path ++ rest ∧ spot.node.get? rest = some target.node ∧
      ∀ q, spot.path <+: q → q <+: target.parent → s.Opens q := by
  induction h with
  | refl spot =>
      refine ⟨[], by simp, by simp, fun q hspot hparent => ?_⟩
      have hlength := (hspot.trans hparent).length_le
      rw [Spot.path, List.length_append, List.length_singleton] at hlength
      omega
  | @enter spot next target entries hnode henters hnext _ ih =>
      obtain ⟨⟨name, child⟩, hentry, rfl⟩ := List.mem_map.mp hnext
      rw [hnode] at hdistinct
      obtain ⟨rest, hpath, hget, hopens⟩ := ih (hdistinct.of_mem hentry)
      rw [path_mk spot.path, List.append_assoc, List.singleton_append] at hpath
      refine ⟨name :: rest, hpath, ?_, fun q hspot hparent => ?_⟩
      · rw [hnode, FileNode.get?_directory_cons rest (hdistinct.lookup_eq_some hentry), hget]
      · obtain ⟨more, rfl⟩ := hspot
        cases more with
        | nil => simpa using enters_iff.mp henters
        | cons x more =>
            refine hopens _ ?_ hparent
            have hbelow := hparent.trans (List.prefix_append _ [target.name])
            rw [← Spot.path, hpath, List.prefix_append_right_inj] at hbelow
            obtain rfl := (List.cons_prefix_cons.mp hbelow).1
            exact ⟨more, by rw [path_mk, List.append_assoc, List.singleton_append]⟩

/-- What is below is reached if every directory on the way is entered. -/
theorem exists_reaches_of_get? {rest : Path} {node : FileNode}
    (hget : spot.node.get? rest = some node)
    (hopens : ∀ q, spot.path <+: q → q <+: (spot.path ++ rest).dropLast → s.Opens q) :
    ∃ target, s.Reaches spot target ∧ target.path = spot.path ++ rest ∧ target.node = node := by
  induction rest generalizing spot with
  | nil => exact ⟨spot, .refl spot, by simp, by simpa using hget⟩
  | cons name rest ih =>
      cases hnode : spot.node with
      | directory entries =>
          rw [hnode] at hget
          obtain ⟨child, hentry, hget⟩ := FileNode.exists_mem_of_get?_cons hget
          have henters : s.enters spot = true := by
            refine enters_iff.mpr (hopens _ List.prefix_rfl ?_)
            rw [List.dropLast_append_cons]
            exact List.prefix_append _ _
          obtain ⟨target, hreaches, hpath, hnode'⟩ :=
            @ih ⟨spot.path, name, child⟩ hget fun q hq hq' =>
              hopens q ((List.prefix_append _ _).trans hq) (by simpa [Spot.path] using hq')
          refine ⟨target, .enter hnode henters (List.mem_map_of_mem hentry) hreaches, ?_, hnode'⟩
          rw [hpath, path_mk, List.append_assoc, List.singleton_append]
      | file content => simp [hnode, FileNode.get?] at hget
      | symlink link => simp [hnode, FileNode.get?] at hget
      | locked isDirectory fault => simp [hnode, FileNode.get?] at hget

/-- A walk comes to what is at a path exactly if it enters every directory on the way. -/
theorem exists_visits_iff (hdistinct : (FileNode.directory entries).NamesDistinct) {path : Path}
    {node : FileNode} :
    (∃ target, s.Visits entries target ∧ target.path = path ∧ target.node = node) ↔
      path ≠ [] ∧ (FileNode.directory entries).get? path = some node ∧
        ∀ q, q ≠ [] → q <+: path.dropLast → s.Opens q := by
  constructor
  · rintro ⟨target, ⟨spot, hspot, hreaches⟩, rfl, rfl⟩
    obtain ⟨⟨name, child⟩, hentry, rfl⟩ := List.mem_map.mp hspot
    obtain ⟨rest, hpath, hget, hopens⟩ :=
      exists_get?_of_reaches hreaches (hdistinct.of_mem hentry)
    refine ⟨by simp [Spot.path], ?_, fun q hne hq => ?_⟩
    · rw [hpath]
      simpa [Spot.path] using
        (FileNode.get?_directory_cons rest (hdistinct.lookup_eq_some hentry)).trans hget
    · have hparent : target.path.dropLast = target.parent := by simp [Spot.path]
      rw [hparent] at hq
      refine hopens q ?_ hq
      obtain ⟨x, more, rfl⟩ := List.exists_cons_of_ne_nil hne
      have hbelow : x :: more <+: target.path := hq.trans (List.prefix_append _ _)
      rw [hpath] at hbelow
      obtain rfl := (List.cons_prefix_cons.mp hbelow).1
      exact ⟨more, rfl⟩
  · rintro ⟨hne, hget, hopens⟩
    obtain ⟨name, rest, rfl⟩ := List.exists_cons_of_ne_nil hne
    obtain ⟨child, hentry, hget⟩ := FileNode.exists_mem_of_get?_cons hget
    obtain ⟨target, hreaches, hpath, hnode⟩ :=
      @exists_reaches_of_get? s ⟨[], name, child⟩ rest node hget fun q hq hq' =>
        hopens q (fun hnil => by simp [hnil, Spot.path] at hq) (by simpa [Spot.path] using hq')
    rw [path_mk [], List.nil_append, List.singleton_append] at hpath
    exact ⟨target, ⟨_, List.mem_map_of_mem hentry, hreaches⟩, hpath, hnode⟩

/-- A walk over a tree of which every directory can be opened does not fail. -/
theorem exists_templates (hdistinct : (FileNode.directory entries).NamesDistinct)
    (hreadable : (FileNode.directory entries).Readable) :
    ∃ paths, s.templates entries = .ok paths := by
  refine (fails_or_exists _).resolve_left ?_
  rw [fails_templates_iff]
  rintro ⟨target, fault, hvisits, hlocked, -⟩
  exact hreadable _ fault ((exists_visits_iff hdistinct).mp ⟨target, hvisits, rfl, hlocked⟩).2.1

/-- The templates are the selected files below directories that are all entered. -/
theorem mem_templates_iff_get? (hdistinct : (FileNode.directory entries).NamesDistinct)
    (hreadable : (FileNode.directory entries).Readable) (h : s.templates entries = .ok paths)
    {path : Path} :
    path ∈ paths ↔
      (∃ node, (FileNode.directory entries).get? path = some node ∧
        ∀ inner, node ≠ .directory inner) ∧
      s.selects path = true ∧ ∀ q, q ≠ [] → q <+: path.dropLast → s.Opens q := by
  rw [mem_templates_iff h]
  constructor
  · rintro ⟨target, hvisits, hleaf, hselects, rfl⟩
    obtain ⟨-, hget, hopens⟩ := (exists_visits_iff hdistinct).mp ⟨target, hvisits, rfl, rfl⟩
    refine ⟨⟨target.node, hget, fun inner hinner => ?_⟩, hselects, hopens⟩
    simp [Spot.isDirectory, hinner] at hleaf
  · rintro ⟨⟨node, hget, hleaf⟩, hselects, hopens⟩
    have hne : path ≠ [] := by
      rintro rfl
      exact hleaf entries (Option.some.inj hget).symm
    obtain ⟨target, hvisits, rfl, rfl⟩ :=
      (exists_visits_iff hdistinct).mpr ⟨hne, hget, hopens⟩
    refine ⟨target, hvisits, ?_, hselects, rfl⟩
    unfold Spot.isDirectory
    split
    · next inner hinner => exact (hleaf inner hinner).elim
    · next fault hfault => exact (hreadable _ fault (hfault ▸ hget)).elim
    · rfl

/-! ## Each path once -/

/-- What is found in a directory is what is found at its entries, one after the other. -/
theorem collectAll_cons_eq_ok_iff {parent : Path} {entry : FileName × FileNode} :
    s.collectAll parent (entry :: entries) = .ok paths ↔
      ∃ here others, s.collectAt ⟨parent, entry.1, entry.2⟩ = .ok here ∧
        s.collectAll parent entries = .ok others ∧ paths = here ++ others := by
  obtain ⟨name, node⟩ := entry
  rw [collectAll, collectAt, path_mk, bind_eq_ok_iff]
  simp only [bind_eq_ok_iff, pure, Except.pure, Except.ok.injEq]
  grind

/-- A walk that has come from one place to another has gone down. -/
theorem prefix_of_reaches (h : s.Reaches spot target) : spot.path <+: target.path := by
  induction h with
  | refl spot => exact List.prefix_rfl
  | enter _ _ hnext _ ih =>
      obtain ⟨entry, -, rfl⟩ := List.mem_map.mp hnext
      exact (List.prefix_append _ _).trans ih

/-- What is found at a place has the path of the place in front. -/
theorem prefix_of_mem_collectAt (h : s.collectAt spot = .ok paths) {path : Path}
    (hpath : path ∈ paths) : spot.path <+: path := by
  obtain ⟨target, hreaches, -, -, rfl⟩ := exists_of_mem_collectAt h hpath
  exact prefix_of_reaches hreaches

/-- Entries with different names give different paths. -/
theorem nodup_collectAll {parent : Path} (hnames : (entries.map Prod.fst).Nodup)
    (heach : ∀ entry ∈ entries, ∀ found,
      s.collectAt ⟨parent, entry.1, entry.2⟩ = .ok found → found.Nodup)
    (h : s.collectAll parent entries = .ok paths) : paths.Nodup := by
  induction entries generalizing paths with
  | nil =>
      cases h
      exact .nil
  | cons entry more ih =>
      obtain ⟨here, others, hhere, hothers, rfl⟩ := collectAll_cons_eq_ok_iff.mp h
      rw [List.map_cons, List.nodup_cons] at hnames
      obtain ⟨hfirst, hmore⟩ := List.forall_mem_cons.mp heach
      refine List.nodup_append.mpr ⟨hfirst here hhere, ih hnames.2 hmore hothers, ?_⟩
      rintro path hpath _ hpath' rfl
      -- What is found at an entry starts with its name.
      obtain ⟨spot, hspot, found, hfound, hpath'⟩ := (mem_of_collectAll_eq_ok hothers).2 _ hpath'
      obtain ⟨other, hother, rfl⟩ := List.mem_map.mp hspot
      have heq : parent ++ [entry.1] = parent ++ [other.1] :=
        (List.prefix_of_prefix_length_le (prefix_of_mem_collectAt hhere hpath)
          (prefix_of_mem_collectAt hfound hpath') (by simp [path_mk])).eq_of_length
          (by simp [path_mk])
      simp only [List.append_cancel_left_eq, List.cons.injEq, and_true] at heq
      exact hnames.1 (heq ▸ List.mem_map_of_mem hother)

/-- Nothing is found twice below a place. -/
theorem nodup_collectAt (hdistinct : spot.node.NamesDistinct) (h : s.collectAt spot = .ok paths) :
    paths.Nodup := by
  obtain ⟨parent, name, node⟩ := spot
  induction node using FileNode.induction generalizing parent name paths with
  | directory entries ih =>
      rw [collectAt_directory rfl] at h
      split at h
      · refine nodup_collectAll (hdistinct [] entries (FileNode.get?_nil _)) ?_ h
        intro entry hentry found hfound
        exact ih entry hentry _ _ (hdistinct.of_mem hentry) hfound
      · cases h
        exact .nil
  | file content =>
      rw [collectAt_leaf rfl] at h
      cases h
      split <;> simp
  | symlink link =>
      rw [collectAt_leaf rfl] at h
      cases h
      split <;> simp
  | locked isDirectory fault =>
      cases isDirectory with
      | false =>
          rw [collectAt_leaf rfl] at h
          cases h
          split <;> simp
      | true =>
          rw [collectAt_locked rfl] at h
          split at h
          · contradiction
          · cases h
            exact .nil

/-- No template is found twice. -/
theorem nodup_templates (hdistinct : (FileNode.directory entries).NamesDistinct)
    (h : s.templates entries = .ok paths) : paths.Nodup := by
  obtain ⟨found, hfound, rfl⟩ := map_eq_ok_iff.mp h
  refine (List.mergeSort_perm found Path.le).nodup_iff.mpr ?_
  refine nodup_collectAll (hdistinct [] entries (FileNode.get?_nil _)) ?_ hfound
  intro entry hentry here hhere
  exact nodup_collectAt (hdistinct.of_mem hentry) hhere

/-- The templates are in order, strictly. -/
theorem pairwise_before_templates (hdistinct : (FileNode.directory entries).NamesDistinct)
    (h : s.templates entries = .ok paths) : paths.Pairwise Path.Before := by
  have hnodup := nodup_templates hdistinct h
  obtain ⟨found, hfound, rfl⟩ := map_eq_ok_iff.mp h
  exact Path.pairwise_before_mergeSort ((List.mergeSort_perm found Path.le).nodup_iff.mp hnodup)

/-! ## Any order of entries -/

/-- Another order of the entries gives the same paths in another order. -/
theorem exists_collectAll_of_perm {parent : Path} {entries' : FileEntries}
    (hperm : entries.Perm entries') (h : s.collectAll parent entries = .ok paths) :
    ∃ paths', s.collectAll parent entries' = .ok paths' ∧ paths.Perm paths' := by
  induction hperm generalizing paths with
  | nil => exact ⟨paths, h, .refl paths⟩
  | cons entry _ ih =>
      obtain ⟨here, others, hhere, hothers, rfl⟩ := collectAll_cons_eq_ok_iff.mp h
      obtain ⟨others', hothers', hperm⟩ := ih hothers
      exact ⟨here ++ others', collectAll_cons_eq_ok_iff.mpr ⟨_, _, hhere, hothers', rfl⟩,
        hperm.append_left here⟩
  | swap first second more =>
      obtain ⟨here, both, hhere, hboth, rfl⟩ := collectAll_cons_eq_ok_iff.mp h
      obtain ⟨there, others, hthere, hothers, rfl⟩ := collectAll_cons_eq_ok_iff.mp hboth
      refine ⟨there ++ (here ++ others), ?_, ?_⟩
      · exact collectAll_cons_eq_ok_iff.mpr
          ⟨_, _, hthere, collectAll_cons_eq_ok_iff.mpr ⟨_, _, hhere, hothers, rfl⟩, rfl⟩
      · rw [← List.append_assoc, ← List.append_assoc]
        exact List.perm_append_comm.append_right others
  | trans _ _ ih ih' =>
      obtain ⟨paths', hpaths', hperm⟩ := ih h
      obtain ⟨paths'', hpaths'', hperm'⟩ := ih' hpaths'
      exact ⟨paths'', hpaths'', hperm.trans hperm'⟩

/-- So does another order of the entries in directories at any depth. -/
theorem exists_collectAll_of_reorders {parent : Path} {entries' : FileEntries}
    (hreorders : entries.Reorders entries') (h : s.collectAll parent entries = .ok paths) :
    ∃ paths', s.collectAll parent entries' = .ok paths' ∧ paths.Perm paths' := by
  induction hreorders generalizing parent paths with
  | here hperm => exact exists_collectAll_of_perm hperm h
  | @inside before after name entries entries' _ ih =>
      induction before generalizing paths with
      | nil =>
          obtain ⟨here, others, hhere, hothers, rfl⟩ := collectAll_cons_eq_ok_iff.mp h
          have hinside : ∃ here', s.collectAt ⟨parent, name, .directory entries'⟩ = .ok here' ∧
              here.Perm here' := by
            have hsame : s.enters ⟨parent, name, .directory entries'⟩ =
                s.enters ⟨parent, name, .directory entries⟩ := rfl
            rw [collectAt_directory rfl] at hhere ⊢
            rw [hsame]
            split at hhere
            · next henters =>
                rw [if_pos henters]
                exact ih hhere
            · next henters => exact ⟨here, by simpa [henters] using hhere, .refl here⟩
          obtain ⟨here', hhere', hperm⟩ := hinside
          exact ⟨here' ++ others, collectAll_cons_eq_ok_iff.mpr ⟨_, _, hhere', hothers, rfl⟩,
            hperm.append_right others⟩
      | cons entry before ihbefore =>
          obtain ⟨here, others, hhere, hothers, rfl⟩ := collectAll_cons_eq_ok_iff.mp h
          obtain ⟨others', hothers', hperm⟩ := ihbefore hothers
          exact ⟨here ++ others', collectAll_cons_eq_ok_iff.mpr ⟨_, _, hhere, hothers', rfl⟩,
            hperm.append_left here⟩
  | trans _ _ ih ih' =>
      obtain ⟨paths', hpaths', hperm⟩ := ih h
      obtain ⟨paths'', hpaths'', hperm'⟩ := ih' hpaths'
      exact ⟨paths'', hpaths'', hperm.trans hperm'⟩

/-- The sorted list does not tell in which order directories list their entries. -/
theorem templates_of_reorders {entries' : FileEntries} (hreorders : entries.Reorders entries')
    (h : s.templates entries = .ok paths) : s.templates entries' = .ok paths := by
  obtain ⟨found, hfound, rfl⟩ := map_eq_ok_iff.mp h
  obtain ⟨found', hfound', hperm⟩ := exists_collectAll_of_reorders hreorders hfound
  rw [templates, hfound', Path.mergeSort_eq_of_perm hperm]
  rfl

end Selection

/-! ## Templates of a project -/

/-- What decides about a path: whether it is included, and whether it is ignored (told whether it
is a directory), once by the ignore file of the project and once by the settings. -/
structure Matchers where
  includes : Path → Bool
  gitignore : Path → Bool → Bool
  excludes : Path → Bool → Bool

namespace Matchers

/-- A path is ignored by the ignore file, unless that is disabled, or by the settings. -/
def Ignored (m : Matchers) (disabled : Bool) (path : Path) (isDirectory : Bool) : Prop :=
  disabled = false ∧ m.gitignore path isDirectory = true ∨ m.excludes path isDirectory = true

/-- A file at a path is selected: it is included, it is not ignored, and neither are the
directories above it, and none of these is called `node_modules` or `target` or has a name that
starts with a `.`, unless that name is no text. -/
structure Selects (m : Matchers) (disabled : Bool) (path : Path) : Prop where
  included : m.includes path = true
  kept : ¬ m.Ignored disabled path false
  kept_above (above : Path) : above ≠ [] → above <+: path.dropLast → ¬ m.Ignored disabled above true
  names_above (name : FileName) : name ∈ path.dropLast →
    (name.bytes.head? = some 0x2E → name.text? = none) ∧
      name ≠ "node_modules" ∧ name ≠ "target"

/-- The selection that matchers make. -/
def selection (m : Matchers) (disabled : Bool) : Selection where
  isTemplate := m.includes
  isIgnored := fun path isDirectory =>
    !disabled && m.gitignore path isDirectory || m.excludes path isDirectory

variable {m : Matchers} {disabled : Bool}

theorem isIgnored_selection (path : Path) (isDirectory : Bool) :
    (m.selection disabled).isIgnored path isDirectory = false ↔
      ¬ m.Ignored disabled path isDirectory := by
  cases disabled <;> simp [selection, Ignored]

/-- A path is selected by the matchers exactly if the walk selects it and enters what is above
it. -/
theorem selects_iff {path : Path} :
    m.Selects disabled path ↔
      (m.selection disabled).selects path = true ∧
        ∀ q, q ≠ [] → q <+: path.dropLast → (m.selection disabled).Opens q := by
  have hselects : (m.selection disabled).selects path = true ↔
      ¬ m.Ignored disabled path false ∧ m.includes path = true := by
    rw [← isIgnored_selection, Selection.selects, Bool.and_eq_true, Bool.not_eq_true']
    rfl
  rw [hselects]
  constructor
  · intro h
    refine ⟨⟨h.kept, h.included⟩, fun q hne hq => ⟨fun name hname => ?_, ?_⟩⟩
    · exact skipsDirectory_eq_false_iff.mpr
        (h.names_above name (hq.subset (List.mem_of_getLast? hname)))
    · exact (isIgnored_selection q true).mpr (h.kept_above q hne hq)
  · rintro ⟨⟨hkept, hincluded⟩, hopens⟩
    refine ⟨hincluded, hkept, fun above hne habove => ?_, fun name hname => ?_⟩
    · exact (isIgnored_selection above true).mp (hopens above hne habove).2
    · obtain ⟨front, back, heq⟩ := List.append_of_mem hname
      have hopen := hopens (front ++ [name]) (by simp) ⟨back, by simp [heq]⟩
      exact skipsDirectory_eq_false_iff.mp (hopen.1 name (by simp))

end Matchers

/-- The matchers that settings ask for. -/
def Settings.matchers (settings : Settings) (tree : FileNode) (root : Path) :
    Except Failure Matchers := do
  let globs ← readGlobs settings.includes
  let excludes ← readExcludes settings.excludes
  return {
    includes := fun path => globs.any (·.isMatch path.bytes)
    gitignore := fun path isDirectory =>
      (projectIgnores tree root).ignores path.bytes isDirectory
    excludes := fun path isDirectory => excludes.ignores path.bytes isDirectory }

/-- The selection of the settings is that of their matchers. -/
theorem Settings.selection_eq_matchers (settings : Settings) (tree : FileNode) (root : Path) :
    settings.selection tree root =
      (settings.matchers tree root).map (·.selection settings.disableGitignore) := by
  unfold selection matchers
  cases readGlobs settings.includes with
  | error fault => rfl
  | ok globs =>
      cases readExcludes settings.excludes with
      | error fault => rfl
      | ok excludes => cases settings.disableGitignore <;> rfl

/-- A name that starts with a `.` and is no text. -/
def FileName.dotted : FileName := ⟨[0x2E, 0xFF]⟩

/-- A project with sources, what is built from them, packages, and a directory with a name that is
no text. -/
def FileEntries.built : FileEntries :=
  [("src", .directory
      [("out", .directory [("app.html", .file .empty)]), ("app.html", .file .empty)]),
    ("node_modules", .directory [("ui.html", .file .empty)]),
    (.dotted, .directory [("a.html", .file .empty)])]

/-- Everything is a template but what the ignore file says is built. -/
def Matchers.unbuilt : Matchers where
  includes := fun _ => true
  gitignore := fun path isDirectory => isDirectory && path == (["src", "out"] : Path)
  excludes := fun _ _ => false

end TemplateMigration
