import Mathlib.Tactic.Choose
import TemplateMigration.Proofs.Command.JsonReport
import TemplateMigration.Proofs.Migration.Success
import TemplateMigration.Proofs.Project.Reports

/-!
# TemplateMigration.Proofs.Command.Agreement

The commands agree on what changes.

An update, a dry run and a check each pick templates out of the same reports.  On a project without
links they all mean the same ones (`commands_agree`): those whose own migration has changes.  An
update changes these files and nothing else, a dry run lists them, a check marks them, and the last
two leave the file system alone.
-/

namespace TemplateMigration

/-- The templates that have changes. -/
def changedPaths (migration : Path → Migration) (paths : List Path) : List Path :=
  paths.filter fun path => (migration path).hasChanges

/-- The reports on templates. -/
def reportsOf (migration : Path → Migration) (paths : List Path) : List TemplateReport :=
  paths.map fun path => ⟨path, migration path⟩

/-- The reports with changes are those of the changed paths. -/
theorem filter_reportsOf (migration : Path → Migration) (paths : List Path) :
    (reportsOf migration paths).filter (·.migration.hasChanges) =
      reportsOf migration (changedPaths migration paths) := by
  rw [reportsOf, List.filter_map, reportsOf, changedPaths]
  rfl

variable {tree : FileNode} {root place : Path} {entries : FileEntries} {rules : RuleSet}
  {migration : Path → Migration} {paths : List Path}

/-! ## Checks -/

/-- A check changes nothing, and its code says whether a template has changes or errors. -/
structure Outcome.Checks (o : Outcome) (tree : FileNode) (migration : Path → Migration)
    (paths : List Path) : Prop where
  apply_eq : o.apply tree = tree
  code_eq_one_iff : o.code = 1 ↔ ∃ path ∈ paths, (migration path).hasChanges ∨
    ∃ d ∈ (migration path).diagnostics, d.level = .error
  code_eq_zero : o.code ≠ 1 → o.code = 0

/-- The output is the text of one JSON value.  It marks the given templates as changed, and says
whether all is well. -/
structure Outcome.Marks (o : Outcome) (changed : List Path) (json : JsonText) : Prop where
  stdout_eq : o.stdout = unlines [json.render]
  unique : ∀ other : JsonText, o.stdout = unlines [other.render] → other = json
  changedFiles_eq : json.changedFiles = changed.map Path.render
  ok_eq : json.field? "ok" = some (.boolean (o.code == 0))

/-- An outcome without writes leaves the tree as it is. -/
theorem Outcome.apply_of_writes_eq_nil {o : Outcome} (h : o.writes = []) (tree : FileNode) :
    o.apply tree = tree := by
  rw [apply, h, List.foldl_nil]

/-- A check writes nothing. -/
theorem writes_checkOutcome (reports : List TemplateReport) (color diff : Bool) (format : Format) :
    (checkOutcome reports color diff format).writes = [] := by
  cases format with
  | json => rfl
  | text =>
      rw [checkOutcome]
      split <;> rfl

/-- The exit code of a check does not depend on how it is reported. -/
theorem code_checkOutcome (reports : List TemplateReport) (color diff : Bool) (format : Format) :
    (checkOutcome reports color diff format).code =
      if reports.any (·.failsCheck) then 1 else 0 := by
  have hfailing : (reports.filter (·.failsCheck)).isEmpty = !reports.any (·.failsCheck) := by
    rw [Bool.eq_iff_iff]
    simp
  cases format with
  | json => cases hany : reports.any (·.failsCheck) <;> simp [checkOutcome, hfailing, hany]
  | text =>
      cases hany : reports.any (·.failsCheck) <;>
        simp [checkOutcome, hfailing, hany, Outcome.success]

/-- A check fails exactly if a template would change or has an error. -/
theorem any_failsCheck_reportsOf (migration : Path → Migration) (paths : List Path) :
    (reportsOf migration paths).any (·.failsCheck) = true ↔
      ∃ path ∈ paths, (migration path).hasChanges ∨
        ∃ d ∈ (migration path).diagnostics, d.level = .error := by
  simp [reportsOf, TemplateReport.failsCheck, Migration.hasErrors]

/-- A check finds what the migrations say. -/
theorem checks_checkOutcome (tree : FileNode) (migration : Path → Migration) (paths : List Path)
    (color diff : Bool) (format : Format) :
    (checkOutcome (reportsOf migration paths) color diff format).Checks tree migration paths where
  apply_eq := Outcome.apply_of_writes_eq_nil (writes_checkOutcome ..) tree
  code_eq_one_iff := by
    rw [code_checkOutcome, ← any_failsCheck_reportsOf]
    split <;> simp_all
  code_eq_zero := by
    rw [code_checkOutcome]
    split <;> simp

theorem unlines_singleton_injective : Function.Injective fun line => unlines [line] := by
  intro line line' h
  have hlists := congrArg String.toList h
  simp only [unlines, String.join, List.map_cons, List.map_nil, List.foldl_cons, List.foldl_nil,
    String.toList_append] at hlists
  rw [← String.toList_inj]
  simpa using hlists

/-- The JSON of a check marks the changed paths. -/
theorem marks_checkOutcome (migration : Path → Migration) (paths : List Path) (color diff : Bool) :
    (checkOutcome (reportsOf migration paths) color diff .json).Marks (changedPaths migration paths)
      (checkJson (reportsOf migration paths)) where
  stdout_eq := rfl
  unique := by
    intro other h
    have hlines : unlines [other.render] =
        unlines [(checkJson (reportsOf migration paths)).render] := h.symm
    exact JsonText.render_injective (unlines_singleton_injective hlines)
  changedFiles_eq := by
    rw [changedFiles_checkJson, filter_reportsOf, reportsOf, List.map_map]
    rfl
  ok_eq := by
    rw [field?_ok_checkJson, code_checkOutcome]
    split <;> simp_all

/-! ## Updates -/

/-- A dry run changes nothing and lists the given templates. -/
structure Outcome.Lists (o : Outcome) (tree : FileNode) (changed : List Path) : Prop where
  apply_eq : o.apply tree = tree
  stdout_eq : o.stdout = unlines (if changed.isEmpty then ["All templates are already migrated."]
    else ("Dry run: would update " ++ toString changed.length ++ " template(s):") ::
      changed.map ("  " ++ ·.render))

/-- An update changes the given templates below a place to their migrated texts, and nothing
else. -/
structure Outcome.Updates (o : Outcome) (tree : FileNode) (place : Path)
    (migration : Path → Migration) (changed : List Path) : Prop where
  code_eq : o.code = 0
  sightAt_ne_iff : ∀ p, (o.apply tree).sightAt p ≠ tree.sightAt p ↔
    ∃ path ∈ changed, p = place ++ path
  sightAt_eq : ∀ path ∈ changed,
    (o.apply tree).sightAt (place ++ path) = some (.file (migration path).text.toUTF8)

/-- What a dry run prints. -/
theorem stdout_updateOutcome (root : Path) (reports : List TemplateReport) (color verbose : Bool) :
    (updateOutcome root reports color verbose true).stdout =
      unlines (if (reports.filter (·.migration.hasChanges)).isEmpty then
          ["All templates are already migrated."]
        else ("Dry run: would update " ++
            toString (reports.filter (·.migration.hasChanges)).length ++ " template(s):") ::
          (reports.filter (·.migration.hasChanges)).map ("  " ++ ·.path.render)) := rfl

/-- A dry run lists the changed paths and writes nothing. -/
theorem lists_updateOutcome (tree : FileNode) (root : Path) (migration : Path → Migration)
    (paths : List Path) (color verbose : Bool) :
    (updateOutcome root (reportsOf migration paths) color verbose true).Lists tree
      (changedPaths migration paths) where
  apply_eq := rfl
  stdout_eq := by
    rw [stdout_updateOutcome, filter_reportsOf, reportsOf, List.length_map, List.map_map,
      List.isEmpty_map]
    rfl

/-- In a project without links a template is read at the place that its path says. -/
theorem resolve_eq_append (hroot : tree.resolve root = .ok place)
    (hplace : tree.get? place = some (.directory entries)) (hplain : FileEntries.arePlain entries)
    {path : Path} (hnames : ∀ name ∈ path, FileNode.IsName name) {text : String}
    (hread : tree.readText (root ++ path) = .ok text) :
    tree.resolve (root ++ path) = .ok (place ++ path) := by
  obtain ⟨target, htarget, -⟩ := FileNode.readText_eq_ok_iff.mp hread
  obtain ⟨left, hleft⟩ := FileNode.exists_follow_append hroot path
  have hfollow : tree.follow left place path = .ok target := by
    rw [← hleft]
    exact htarget
  rw [htarget, FileNode.follow_eq_append hplace (by rwa [FileNode.isPlain]) hnames hfollow]

/-- An update writes the changed templates and nothing else. -/
theorem updates_updateOutcome
    (hresolve : ∀ path ∈ paths, tree.resolve (root ++ path) = .ok (place ++ path))
    (hreport : ∀ path ∈ paths, reportAt tree root rules path = .ok ⟨path, migration path⟩)
    (color verbose : Bool) :
    (updateOutcome root (reportsOf migration paths) color verbose false).Updates tree place
      migration (changedPaths migration paths) := by
  have hreports : ∀ r ∈ reportsOf migration paths, reportAt tree root rules r.path = .ok r := by
    intro r hr
    obtain ⟨path, hpath, rfl⟩ := List.mem_map.mp hr
    exact hreport path hpath
  have hshows : ∀ path ∈ paths,
      (tree.writeAll (changedTexts root (reportsOf migration paths))).sightAt (place ++ path) =
        some (.file (migration path).text.toUTF8) := by
    intro path hpath
    exact sightAt_writeAll_changedTexts hreports (List.mem_map_of_mem hpath) (hresolve path hpath)
  refine ⟨rfl, fun p => ⟨?_, ?_⟩, fun path hpath => hshows path (List.mem_of_mem_filter hpath)⟩
  · intro hne
    by_contra hnone
    refine hne (sightAt_writeAll_changedTexts_of_forall hreports ?_)
    intro r hr hchanges hplace
    obtain ⟨path, hpath, rfl⟩ := List.mem_map.mp hr
    rw [hresolve path hpath, Except.ok.injEq] at hplace
    exact hnone ⟨path, List.mem_filter.mpr ⟨hpath, hchanges⟩, hplace.symm⟩
  · rintro ⟨path, hchanged, rfl⟩
    obtain ⟨hpath, hchanges⟩ := List.mem_filter.mp hchanged
    have hbefore := (sightAt_of_reportAt (r := ⟨path, migration path⟩) (hreport path hpath)
      (hresolve path hpath)).1
    have hne : (migration path).text ≠ (migration path).source := by
      simpa [Migration.hasChanges] using hchanges
    intro heq
    have hsights := (hshows path hpath).symm.trans (heq.trans hbefore)
    exact hne (by simpa [String.toUTF8, String.toByteArray_inj] using hsights)

/-! ## All commands -/

/-- **The commands agree.**  On a project without links that can be opened and whose templates can
be read, each template has a migration of its own, and: an update changes the templates whose
migration has changes, each to its migrated text, and nothing else; a dry run lists these templates;
a check marks them as changed; and the code of a check says, in the same way for all its options,
whether a template has changes or errors. -/
theorem commands_agree (hroot : tree.resolve root = .ok place)
    (hplace : tree.get? place = some (.directory entries)) (hplain : FileEntries.arePlain entries)
    (hopen : openProject tree root = .ok (rules, paths))
    (hread : ∀ path ∈ paths, ∃ text, tree.readText (root ++ path) = .ok text ∧
      byteLength text ≤ Patch.maxOffset)
    (color verbose : Bool) :
    ∃ migration : Path → Migration,
      (∀ path ∈ paths, ∃ text, tree.readText (root ++ path) = .ok text ∧
        Migration.ofTemplate rules text = .ok (migration path)) ∧
      ((Command.update false).outcome tree root color verbose).Updates tree place migration
        (changedPaths migration paths) ∧
      ((Command.update true).outcome tree root color verbose).Lists tree
        (changedPaths migration paths) ∧
      (∀ diff format,
        ((Command.check diff format).outcome tree root color verbose).Checks tree migration paths) ∧
      ∀ diff, ∃ json, ((Command.check diff .json).outcome tree root color verbose).Marks
        (changedPaths migration paths) json := by
  have hmigrates : ∀ path ∈ paths, ∃ m text, tree.readText (root ++ path) = .ok text ∧
      Migration.ofTemplate rules text = .ok m := by
    intro path hpath
    obtain ⟨text, htext, hsize⟩ := hread path hpath
    exact ⟨_, text, htext, Migration.ofTemplate_eq_ok rules hsize⟩
  -- One function for the migrations of all templates; elsewhere it does not matter.
  have : Nonempty Migration := ⟨⟨"", "", []⟩⟩
  choose! migration hmigration using hmigrates
  have hreport : ∀ path ∈ paths, reportAt tree root rules path = .ok ⟨path, migration path⟩ :=
    fun path hpath => reportAt_eq_ok_iff.mpr ⟨rfl, hmigration path hpath⟩
  have hreports : reportProject tree root = .ok (reportsOf migration paths) := by
    rw [reportProject_eq_of_openProject hopen, mapM_eq_ok_map hreport, reportsOf]
  have hresolve : ∀ path ∈ paths, tree.resolve (root ++ path) = .ok (place ++ path) := by
    intro path hpath
    obtain ⟨-, selection, _, -, -, -, hentries', htemplates⟩ := openProject_eq_ok_iff.mp hopen
    cases (readDirectory_eq_ok_iff.mpr ⟨place, hroot, hplace⟩).symm.trans hentries'
    obtain ⟨text, htext, -⟩ := hmigration path hpath
    exact resolve_eq_append hroot hplace hplain
      (Selection.isName_of_mem_templates hplain htemplates hpath) htext
  refine ⟨migration, hmigration, ?_, ?_, ?_, ?_⟩
  · rw [Command.outcome, hreports]
    exact updates_updateOutcome hresolve hreport color verbose
  · rw [Command.outcome, hreports]
    exact lists_updateOutcome tree root migration paths color verbose
  · intro diff format
    rw [Command.outcome, hreports]
    exact checks_checkOutcome tree migration paths color diff format
  · intro diff
    rw [Command.outcome, hreports]
    exact ⟨_, marks_checkOutcome migration paths color diff⟩

/-- A project with a template that changes, one with an error, and a file that is no template. -/
def smallProject : FileNode :=
  .directory [("app", .directory
    [("a.html", .file "<p ng-if=\"vm.x\"></p>".toUTF8),
     ("b", .directory [("c.html", .file "\x7b\x7b x | orderBy:'y' \x7d\x7d".toUTF8),
       ("d.txt", .file "<p ng-if></p>".toUTF8)])])]

theorem resolve_smallProject : smallProject.resolve ["app"] = .ok ["app"] := by
  simp [FileNode.resolve, FileNode.follow, smallProject, FileNode.get?, FileNode.linkLimit]

/-- The small project has two templates. -/
theorem openProject_smallProject :
    openProject smallProject ["app"] = .ok (.default, [["a.html"], ["b", "c.html"]]) := by
  have hroot := resolve_smallProject
  refine openProject_of_collectAll (load_eq_default hroot rfl (by decide)) (by decide +kernel)
    (readDirectory_eq_ok_iff.mpr ⟨["app"], hroot, rfl⟩) ?_ (by decide)
  rw [Settings.selection, projectIgnores_eq_empty hroot rfl (by decide)]
  decide +kernel

/-- The four commands on this project, with a migration for each of its two templates. -/
theorem commands_agree_smallProject :
    openProject smallProject ["app"] = .ok (.default, [["a.html"], ["b", "c.html"]]) ∧
      ∃ migration : Path → Migration,
        (∀ path ∈ ([["a.html"], ["b", "c.html"]] : List Path), ∃ text,
          smallProject.readText ((["app"] : Path) ++ path) = .ok text ∧
            Migration.ofTemplate .default text = .ok (migration path)) ∧
        ((Command.update false).outcome smallProject ["app"] true false).Updates smallProject
          ["app"] migration (changedPaths migration [["a.html"], ["b", "c.html"]]) ∧
        ((Command.update true).outcome smallProject ["app"] true false).Lists smallProject
          (changedPaths migration [["a.html"], ["b", "c.html"]]) ∧
        (∀ diff format,
          ((Command.check diff format).outcome smallProject ["app"] true false).Checks smallProject
            migration [["a.html"], ["b", "c.html"]]) ∧
        ∀ diff, ∃ json,
          ((Command.check diff .json).outcome smallProject ["app"] true false).Marks
            (changedPaths migration [["a.html"], ["b", "c.html"]]) json := by
  have hread : ∀ path ∈ ([["a.html"], ["b", "c.html"]] : List Path), ∃ text,
      smallProject.readText ((["app"] : Path) ++ path) = .ok text ∧
        byteLength text ≤ Patch.maxOffset := by
    simp only [List.forall_mem_cons, List.not_mem_nil, false_implies, implies_true, and_true]
    constructor
    · refine ⟨"<p ng-if=\"vm.x\"></p>",
        FileNode.readText_eq_ok_iff.mpr ⟨["app", "a.html"], ?_, rfl⟩, by decide⟩
      simp [FileNode.resolve, FileNode.follow, smallProject, FileNode.get?, FileNode.linkLimit]
    · refine ⟨"\x7b\x7b x | orderBy:'y' \x7d\x7d",
        FileNode.readText_eq_ok_iff.mpr ⟨["app", "b", "c.html"], ?_, rfl⟩, by decide⟩
      simp [FileNode.resolve, FileNode.follow, smallProject, FileNode.get?, FileNode.linkLimit,
        List.lookup_cons]
  exact ⟨openProject_smallProject, commands_agree resolve_smallProject rfl (by decide)
    openProject_smallProject hread true false⟩

end TemplateMigration
