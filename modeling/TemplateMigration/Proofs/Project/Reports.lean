import TemplateMigration.Project.Report
import TemplateMigration.Proofs.Project.Walk
import TemplateMigration.Proofs.Session.Memory

/-!
# TemplateMigration.Proofs.Project.Reports

Reports on a project, template by template.

All templates of a project go through one session, which remembers its last result.  The reports
do not show it: each template gets the report that a new session gives (`reportAll_eq_mapM`), so the
reports exist exactly when each of them does, and in any order of the templates.
-/

namespace TemplateMigration

variable {tree : FileNode} {root path : Path} {rules : RuleSet} {paths : List Path}
  {report : TemplateReport} {reports : List TemplateReport}

/-! ## One template -/

/-- The report on one template, whatever was migrated before. -/
def reportAt (tree : FileNode) (root : Path) (rules : RuleSet) (path : Path) :
    Except ProjectFault TemplateReport := do
  let text ← (tree.readText (root ++ path)).mapError .unreadable
  let migration ← (Migration.ofTemplate rules text).mapError .failure
  return ⟨path, migration⟩

/-- A report says what the migration of the template says. -/
theorem reportAt_eq_ok_iff :
    reportAt tree root rules path = .ok report ↔
      report.path = path ∧ ∃ text, tree.readText (root ++ path) = .ok text ∧
        Migration.ofTemplate rules text = .ok report.migration := by
  obtain ⟨path', migration⟩ := report
  simp only [reportAt, bind_eq_ok_iff, mapError_eq_ok_iff, pure, Except.pure, Except.ok.injEq,
    TemplateReport.mk.injEq]
  constructor
  · rintro ⟨text, htext, m, hm, rfl, rfl⟩
    exact ⟨rfl, text, htext, hm⟩
  · rintro ⟨rfl, text, htext, hm⟩
    exact ⟨text, htext, migration, hm, rfl, rfl⟩

/-! ## All templates -/

/-- **The memory of a session does not show.**  The report on a template does not depend on those
before it. -/
theorem reportAll_eq_mapM {session : Session} (h : session.Recalls rules fun _ => none)
    (tree : FileNode) (root : Path) (paths : List Path) :
    reportAll tree root session paths = paths.mapM (reportAt tree root rules) := by
  induction paths generalizing session with
  | nil => rfl
  | cons path paths ih =>
      rw [reportAll, List.mapM_cons, reportAt]
      cases tree.readText (root ++ path) with
      | error fault => rfl
      | ok text =>
          have hresult : (session.migrate text).1 = Migration.ofTemplate rules text :=
            session.migrate_eq h text
          have hnext : (session.migrate text).2.Recalls rules fun _ => none := by
            simpa [Call.supply, Session.perform] using session.recalls_perform h (.template text)
          cases hmigration : Migration.ofTemplate rules text with
          | error cause => simp [hresult, hmigration, bind, Except.bind]
          | ok migration =>
              simp only [hresult, hmigration, ih hnext]
              cases paths.mapM (reportAt tree root rules) <;>
                simp [hmigration, Except.map, bind, Except.bind, pure, Except.pure]

theorem reportProject_eq_of_openProject (h : openProject tree root = .ok (rules, paths)) :
    reportProject tree root = paths.mapM (reportAt tree root rules) := by
  rw [reportProject, h]
  exact reportAll_eq_mapM (Session.recalls_start rules) tree root paths

theorem reportAt_of_mem (h : paths.mapM (reportAt tree root rules) = .ok reports) :
    ∀ r ∈ reports, reportAt tree root rules r.path = .ok r := by
  intro r hr
  obtain ⟨path, -, hpath⟩ := (mem_of_mapM_eq_ok h).2 r hr
  rwa [(reportAt_eq_ok_iff.mp hpath).1]

/-! ## Opening a project -/

theorem readDirectory_eq_ok_iff {entries : FileEntries} :
    tree.readDirectory root = .ok entries ↔
      ∃ place, tree.resolve root = .ok place ∧ tree.get? place = some (.directory entries) := by
  cases hplace : tree.resolve root with
  | error fault => simp [FileNode.readDirectory, FileNode.find, hplace, bind, Except.bind]
  | ok place =>
      cases hnode : tree.get? place with
      | none => simp [FileNode.readDirectory, FileNode.find, hplace, hnode, bind, Except.bind]
      | some node =>
          rcases node with _ | _ | _ | ⟨_ | _, _⟩ <;>
            simp [FileNode.readDirectory, FileNode.find, hplace, hnode, bind, Except.bind]

/-- A project opens when each stage succeeds: settings, rules, patterns, and the walk over its
root. -/
theorem openProject_eq_ok_iff :
    openProject tree root = .ok (rules, paths) ↔
      ∃ settings selection entries, Settings.load tree root = .ok settings ∧
        RuleSet.ofSettings settings.rules = .ok rules ∧
        settings.selection tree root = .ok selection ∧ tree.readDirectory root = .ok entries ∧
        selection.templates entries = .ok paths := by
  simp only [openProject, Settings.findTemplates, bind_eq_ok_iff, mapError_eq_ok_iff, pure,
    Except.pure, Except.ok.injEq, Prod.mk.injEq]
  constructor
  · rintro ⟨settings, hload, _, hrules, _, hfind, rfl, rfl⟩
    obtain ⟨selection, hselection, entries, hentries, hpaths⟩ := hfind
    exact ⟨settings, selection, entries, hload, hrules, hselection, hentries, hpaths⟩
  · rintro ⟨settings, selection, entries, hload, hrules, hselection, hentries, hpaths⟩
    exact ⟨settings, hload, rules, hrules, paths,
      ⟨selection, hselection, entries, hentries, hpaths⟩, rfl, rfl⟩

section NoSettings

variable {place : Path} {entries : FileEntries} (hroot : tree.resolve root = .ok place)
  (hplace : tree.get? place = some (.directory entries))
include hroot hplace

/-- Behind a name the directory does not have, nothing is found. -/
theorem find_eq_error_of_lookup (name : FileName) (hname : FileNode.IsName name)
    (hnone : entries.lookup name = none) (more : Path) :
    tree.find (root ++ name :: more) = .error .notFound := by
  obtain ⟨left, hleft⟩ := FileNode.exists_follow_append hroot (name :: more)
  have hentry : tree.sightAt (place ++ [name]) = none := by
    rw [FileNode.sightAt_entry hplace, hnone, Option.map_none]
  rw [FileNode.find, FileNode.resolve, hleft,
    FileNode.follow_missing (FileNode.sightAt_directory hplace) hname hentry]
  rfl

/-- A directory without a settings file has the default settings. -/
theorem load_eq_default
    (hnone : ∀ name ∈ (["ngup.toml", ".ngup.toml", ".config"] : List FileName),
      entries.lookup name = none) :
    Settings.load tree root = .ok .default := by
  simp only [List.forall_mem_cons, List.not_mem_nil, false_implies, implies_true, and_true] at hnone
  have hmissing := find_eq_error_of_lookup hroot hplace
  simp [Settings.load, Settings.locate?, Settings.candidates, FileNode.isFile,
    hmissing _ (by decide) hnone.1, hmissing _ (by decide) hnone.2.1,
    hmissing _ (by decide) hnone.2.2]

theorem projectIgnores_eq_empty (hnone : entries.lookup (".gitignore" : FileName) = none) :
    projectIgnores tree root = .empty := by
  simp [projectIgnores, FileNode.readBytes, bind, Except.bind,
    find_eq_error_of_lookup hroot hplace _ (by decide) hnone]

end NoSettings

/-- A walk that finds its templates in order has nothing to sort. -/
theorem openProject_of_collectAll {settings : Settings} {entries : FileEntries}
    (hload : Settings.load tree root = .ok settings)
    (hrules : (RuleSet.ofSettings settings.rules).toOption = some rules)
    (hentries : tree.readDirectory root = .ok entries)
    (hfound : (settings.selection tree root).toOption.bind
      (fun s => (s.collectAll [] entries).toOption) = some paths)
    (hsorted : paths.Pairwise fun a b => Path.le a b) :
    openProject tree root = .ok (rules, paths) := by
  obtain ⟨selection, hselection, hpaths⟩ := Option.bind_eq_some_iff.mp hfound
  rw [toOption_eq_some_iff] at hrules hselection hpaths
  have htemplates : selection.templates entries = .ok paths := by
    rw [Selection.templates, hpaths, Except.map, List.mergeSort_of_pairwise hsorted]
  exact openProject_eq_ok_iff.mpr
    ⟨settings, selection, entries, hload, hrules, hselection, hentries, htemplates⟩

/-- Reports on a project fail when it does not open, or when the report on a template fails. -/
theorem fails_reportProject_iff :
    Fails (reportProject tree root) ↔ Fails (openProject tree root) ∨
      ∃ rules paths, openProject tree root = .ok (rules, paths) ∧
        ∃ path ∈ paths, Fails (reportAt tree root rules path) := by
  cases hopen : openProject tree root with
  | error cause => simp [reportProject, hopen]
  | ok project =>
      obtain ⟨rules, paths⟩ := project
      rw [reportProject_eq_of_openProject hopen, fails_mapM_iff]
      constructor
      · intro hfails
        exact .inr ⟨rules, paths, rfl, hfails⟩
      · rintro (hfails | ⟨rules', paths', heq, hfails⟩)
        · simp at hfails
        · cases heq
          exact hfails

/-- A report fails where the template cannot be read or migrated. -/
theorem fails_reportAt_iff :
    Fails (reportAt tree root rules path) ↔ Fails (tree.readText (root ++ path)) ∨
      ∃ text, tree.readText (root ++ path) = .ok text ∧
        Fails (Migration.ofTemplate rules text) := by
  simp [reportAt, fails_bind_iff, fails_mapError_iff, mapError_eq_ok_iff, pure, Except.pure]

/-! ## Writing migrations -/

/-- The changed texts of templates, each with the path where it belongs. -/
def changedTexts (root : Path) (reports : List TemplateReport) : List (Path × String) :=
  (reports.filter (·.migration.hasChanges)).map fun r => (root ++ r.path, r.migration.text)

section Writes

variable {place : Path}

/-- What is written are the texts of the reports with changes. -/
theorem mem_changedTexts_iff {write : Path × String} :
    write ∈ changedTexts root reports ↔
      ∃ r ∈ reports, r.migration.hasChanges ∧ (root ++ r.path, r.migration.text) = write := by
  rw [changedTexts, List.mem_map]
  simp only [List.mem_filter, and_assoc]

/-- A template is the source of its migration, at the place that its path means. -/
theorem sightAt_of_reportAt {r : TemplateReport} (h : reportAt tree root rules r.path = .ok r)
    (hplace : tree.resolve (root ++ r.path) = .ok place) :
    tree.sightAt place = some (.file r.migration.source.toUTF8) ∧
      Migration.ofTemplate rules r.migration.source = .ok r.migration := by
  obtain ⟨-, text, htext, hm⟩ := reportAt_eq_ok_iff.mp h
  obtain ⟨target, htarget, hsight⟩ := FileNode.readText_eq_ok_iff.mp htext
  rw [hplace, Except.ok.injEq] at htarget
  rw [Migration.source_of_ofForest hm, htarget]
  exact ⟨hsight, hm⟩

variable (hreports : ∀ r ∈ reports, reportAt tree root rules r.path = .ok r)
include hreports

theorem exists_readBytes_of_mem_changedTexts :
    ∀ write ∈ changedTexts root reports, ∃ content, tree.readBytes write.1 = .ok content := by
  intro write hwrite
  obtain ⟨r, hr, -, rfl⟩ := mem_changedTexts_iff.mp hwrite
  obtain ⟨-, text, htext, -⟩ := reportAt_eq_ok_iff.mp (hreports r hr)
  exact ⟨text.toUTF8, FileNode.readBytes_eq_ok_iff.mpr (FileNode.readText_eq_ok_iff.mp htext)⟩

/-- Templates at one place have one migration. -/
theorem migration_eq_of_resolve_eq {r r' : TemplateReport} (hr : r ∈ reports) (hr' : r' ∈ reports)
    (hplace : tree.resolve (root ++ r.path) = .ok place)
    (hplace' : tree.resolve (root ++ r'.path) = .ok place) : r.migration = r'.migration := by
  obtain ⟨hsight, hm⟩ := sightAt_of_reportAt (hreports r hr) hplace
  obtain ⟨hsight', hm'⟩ := sightAt_of_reportAt (hreports r' hr') hplace'
  have hsource : r.migration.source = r'.migration.source := by
    simpa [String.toUTF8, hsight, String.toByteArray_inj] using hsight'
  rw [hsource, hm', Except.ok.injEq] at hm
  exact hm.symm

/-- **What changed texts leave behind.**  Each template shows its migrated text, whether it had to
be written or not. -/
theorem sightAt_writeAll_changedTexts {r : TemplateReport} (hr : r ∈ reports)
    (hplace : tree.resolve (root ++ r.path) = .ok place) :
    (tree.writeAll (changedTexts root reports)).sightAt place =
      some (.file r.migration.text.toUTF8) := by
  rw [(FileNode.sightAt_writeAll (exists_readBytes_of_mem_changedTexts hreports)).2]
  cases hwritten : tree.lastWritten place (changedTexts root reports) with
  | some text =>
      obtain ⟨path', hmem, hplace'⟩ := FileNode.exists_of_lastWritten hwritten
      obtain ⟨r', hr', -, heq⟩ := mem_changedTexts_iff.mp hmem
      cases heq
      rw [migration_eq_of_resolve_eq hreports hr hr' hplace hplace']
      rfl
  | none =>
      -- Nothing was written here, so the migration has no changes.
      have hunchanged : r.migration.text = r.migration.source := by
        by_cases hchanges : r.migration.hasChanges
        · have hmem : (root ++ r.path, r.migration.text) ∈ changedTexts root reports :=
            mem_changedTexts_iff.mpr ⟨r, hr, hchanges, rfl⟩
          have hsome := FileNode.isSome_lastWritten hmem hplace
          rw [hwritten] at hsome
          contradiction
        · simpa [Migration.hasChanges] using hchanges
      rw [hunchanged]
      exact (sightAt_of_reportAt (hreports r hr) hplace).1

/-- A template that is reported holds its migrated text after the writes. -/
theorem readText_writeAll_changedTexts {r : TemplateReport} (hr : r ∈ reports) :
    (tree.writeAll (changedTexts root reports)).readText (root ++ r.path) =
      .ok r.migration.text := by
  obtain ⟨-, text, htext, -⟩ := reportAt_eq_ok_iff.mp (hreports r hr)
  obtain ⟨place, hplace, -⟩ := FileNode.readText_eq_ok_iff.mp htext
  have hshape := (FileNode.sightAt_writeAll (exists_readBytes_of_mem_changedTexts hreports)).1
  rw [FileNode.readText_eq_ok_iff, FileNode.resolve_eq_of_sameShape hshape]
  exact ⟨place, hplace, sightAt_writeAll_changedTexts hreports hr hplace⟩

/-- Places of other files, and of templates without changes, show what they did. -/
theorem sightAt_writeAll_changedTexts_of_forall
    (h : ∀ r ∈ reports, r.migration.hasChanges → tree.resolve (root ++ r.path) ≠ .ok place) :
    (tree.writeAll (changedTexts root reports)).sightAt place = tree.sightAt place := by
  rw [(FileNode.sightAt_writeAll (exists_readBytes_of_mem_changedTexts hreports)).2]
  cases hwritten : tree.lastWritten place (changedTexts root reports) with
  | none => rfl
  | some text =>
      obtain ⟨path', hmem, hplace'⟩ := FileNode.exists_of_lastWritten hwritten
      obtain ⟨r', hr', hchanges, heq⟩ := mem_changedTexts_iff.mp hmem
      cases heq
      exact absurd hplace' (h r' hr' hchanges)

end Writes

end TemplateMigration
