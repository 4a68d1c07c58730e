import TemplateMigration.Command.Outcome
import TemplateMigration.Proofs.Project.Reports

/-!
# TemplateMigration.Proofs.Command.AllOrNothing

An update writes all or nothing.

Everything that can fail comes before the first write: the settings, the rules, the patterns, the
walk, and each template, wherever it stands among the others (`Unloadable`).  If something fails,
the program exits with 2 and the file system is as it was; if nothing does, every template that an
update has to change has been written, and can be read back (`update_all_or_nothing`).
-/

namespace TemplateMigration

variable {tree : FileNode} {root : Path}

/-! ## What can fail -/

/-- Why the templates of a project are not all migrated, by stage. -/
inductive Unloadable (tree : FileNode) (root : Path) : Prop
  /-- The settings file cannot be read. -/
  | settingsFile {path : Path} (hlocate : Settings.locate? tree root = some path)
      (hread : Fails (tree.readText (root ++ path)))
  /-- The settings file is malformed. -/
  | settingsText {path : Path} {text : String} (hlocate : Settings.locate? tree root = some path)
      (hread : tree.readText (root ++ path) = .ok text) (hparse : Fails (Settings.parse text))
  /-- The settings ask for rules that do not exist. -/
  | rules {settings : Settings} (hload : Settings.load tree root = .ok settings)
      (hrules : Fails (RuleSet.ofSettings settings.rules))
  /-- A pattern that selects templates is malformed. -/
  | includes {settings : Settings} {pattern : String}
      (hload : Settings.load tree root = .ok settings) (hmem : pattern ∈ settings.includes)
      (hparse : Glob.parse? .selecting pattern = none)
  /-- A pattern that excludes files is malformed. -/
  | excludes {settings : Settings} {pattern : String}
      (hload : Settings.load tree root = .ok settings) (hmem : pattern ∈ settings.excludes)
      (hparse : IgnorePattern.parse? pattern = none)
  /-- The root is no directory that can be opened. -/
  | root (hroot : Fails (tree.readDirectory root))
  /-- The walk comes to a directory that cannot be opened. -/
  | directory {settings : Settings} {selection : Selection} {entries : FileEntries} {spot : Spot}
      {fault : FileFault} (hload : Settings.load tree root = .ok settings)
      (hselection : settings.selection tree root = .ok selection)
      (hentries : tree.readDirectory root = .ok entries) (hvisits : selection.Visits entries spot)
      (hlocked : spot.node = .locked true fault) (henters : selection.enters spot)
  /-- A template cannot be read, or is no text. -/
  | template {rules : RuleSet} {paths : List Path} {path : Path}
      (hopen : openProject tree root = .ok (rules, paths)) (hmem : path ∈ paths)
      (hread : Fails (tree.readText (root ++ path)))
  /-- A template cannot be migrated. -/
  | migration {rules : RuleSet} {paths : List Path} {path : Path} {text : String}
      (hopen : openProject tree root = .ok (rules, paths)) (hmem : path ∈ paths)
      (hread : tree.readText (root ++ path) = .ok text)
      (hmigrate : Fails (Migration.ofTemplate rules text))

/-! ## Stages -/

theorem fails_load_iff :
    Fails (Settings.load tree root) ↔ ∃ path, Settings.locate? tree root = some path ∧
      (Fails (tree.readText (root ++ path)) ∨
        ∃ text, tree.readText (root ++ path) = .ok text ∧ Fails (Settings.parse text)) := by
  cases hlocate : Settings.locate? tree root with
  | none => simp [Settings.load, hlocate]
  | some path => cases hread : tree.readText (root ++ path) <;> simp [Settings.load, hlocate, hread]

theorem fails_readGlobs_iff {patterns : List String} :
    Fails (readGlobs patterns) ↔ ∃ pattern ∈ patterns, Glob.parse? .selecting pattern = none := by
  rw [readGlobs, fails_mapM_iff]
  refine exists_congr fun pattern => and_congr_right fun _ => ?_
  cases Glob.parse? .selecting pattern <;> simp

theorem fails_readExcludes_iff {patterns : List String} :
    Fails (readExcludes patterns) ↔ ∃ pattern ∈ patterns, IgnorePattern.parse? pattern = none := by
  simp only [readExcludes, fails_bind_iff, pure, Except.pure, not_fails_ok, and_false, exists_false,
    or_false, fails_mapM_iff]
  refine exists_congr fun pattern => and_congr_right fun _ => ?_
  cases IgnorePattern.parse? pattern <;> simp

/-- The patterns of the settings are all that a selection can fail on. -/
theorem fails_selection_iff {settings : Settings} :
    Fails (settings.selection tree root) ↔
      (∃ pattern ∈ settings.includes, Glob.parse? .selecting pattern = none) ∨
        ∃ pattern ∈ settings.excludes, IgnorePattern.parse? pattern = none := by
  rw [← fails_readGlobs_iff, ← fails_readExcludes_iff, Settings.selection, fails_bind_iff]
  simp only [fails_bind_iff, pure, Except.pure, not_fails_ok, and_false, exists_false, or_false]
  obtain hfails | ⟨globs, hglobs⟩ := fails_or_exists (readGlobs settings.includes)
  · simp [hfails]
  · simp [hglobs]

theorem unloadable_of_fails_openProject (h : Fails (openProject tree root)) :
    Unloadable tree root := by
  rw [openProject, fails_bind_iff] at h
  obtain hfails | ⟨settings, hload, h⟩ := h
  · obtain ⟨path, hlocate, hread | ⟨text, hread, hparse⟩⟩ := fails_load_iff.mp hfails
    · exact .settingsFile hlocate hread
    · exact .settingsText hlocate hread hparse
  obtain hrules | ⟨rules, hrules, h⟩ := fails_bind_iff.mp h
  · exact .rules hload hrules
  obtain hfails | ⟨paths, -, hpure⟩ := fails_bind_iff.mp h
  · obtain hselection | ⟨selection, hselection, h⟩ := fails_bind_iff.mp hfails
    · obtain ⟨pattern, hmem, hparse⟩ | ⟨pattern, hmem, hparse⟩ := fails_selection_iff.mp hselection
      · exact .includes hload hmem hparse
      · exact .excludes hload hmem hparse
    · obtain hroot | ⟨entries, hentries, hwalk⟩ := fails_bind_iff.mp (fails_mapError_iff.mp h)
      · exact .root hroot
      · obtain ⟨spot, fault, hvisits, hlocked, henters⟩ := Selection.fails_templates_iff.mp hwalk
        exact .directory hload hselection hentries hvisits hlocked henters
  · exact absurd hpure (not_fails_ok _)

/-- **The reports on a project fail in one of the stages.** -/
theorem fails_reportProject_iff_unloadable :
    Fails (reportProject tree root) ↔ Unloadable tree root := by
  rw [fails_reportProject_iff]
  constructor
  · rintro (hfails | ⟨rules, paths, hopen, path, hmem, hfails⟩)
    · exact unloadable_of_fails_openProject hfails
    · obtain hread | ⟨text, hread, hmigrate⟩ := fails_reportAt_iff.mp hfails
      · exact .template hopen hmem hread
      · exact .migration hopen hmem hread hmigrate
  · intro h
    obtain hfails | ⟨⟨rules, paths⟩, hopen⟩ := fails_or_exists (openProject tree root)
    · exact .inl hfails
    -- The project opens, so the stages before the templates have succeeded.
    obtain ⟨settings, selection, entries, hload, hrules, hselection, hentries, hpaths⟩ :=
      openProject_eq_ok_iff.mp hopen
    have hloads {settings'} (h : Settings.load tree root = .ok settings') :
        settings = settings' := by
      simpa [hload] using h
    cases h with
    | settingsFile hlocate hread =>
        have hfails := fails_load_iff.mpr ⟨_, hlocate, .inl hread⟩
        simp [hload] at hfails
    | settingsText hlocate hread hparse =>
        have hfails := fails_load_iff.mpr ⟨_, hlocate, .inr ⟨_, hread, hparse⟩⟩
        simp [hload] at hfails
    | rules hload' hfails =>
        obtain rfl := hloads hload'
        simp [hrules] at hfails
    | includes hload' hmem hparse =>
        obtain rfl := hloads hload'
        have hfails : Fails (settings.selection tree root) :=
          fails_selection_iff.mpr (.inl ⟨_, hmem, hparse⟩)
        simp [hselection] at hfails
    | excludes hload' hmem hparse =>
        obtain rfl := hloads hload'
        have hfails : Fails (settings.selection tree root) :=
          fails_selection_iff.mpr (.inr ⟨_, hmem, hparse⟩)
        simp [hselection] at hfails
    | root hfails => simp [hentries] at hfails
    | directory hload' hselection' hentries' hvisits hlocked henters =>
        obtain rfl := hloads hload'
        cases hselection.symm.trans hselection'
        cases hentries.symm.trans hentries'
        have hfails := Selection.fails_templates_iff.mpr ⟨_, _, hvisits, hlocked, henters⟩
        simp [hpaths] at hfails
    | template hopen' hmem hread =>
        cases hopen.symm.trans hopen'
        exact .inr ⟨rules, paths, hopen, _, hmem, fails_reportAt_iff.mpr (.inl hread)⟩
    | migration hopen' hmem hread hmigrate =>
        cases hopen.symm.trans hopen'
        refine .inr ⟨rules, paths, hopen, _, hmem, ?_⟩
        exact fails_reportAt_iff.mpr (.inr ⟨_, hread, hmigrate⟩)

/-! ## Outcomes -/

/-- All or nothing: the code is 2 when something fails, and then nothing is changed; otherwise all
templates can be read back migrated, if the run may write. -/
structure Outcome.AllOrNothing (o : Outcome) (tree : FileNode) (root : Path) (writes : Bool) :
    Prop where
  code_eq_two_iff : o.code = 2 ↔ Unloadable tree root
  apply_eq : o.code = 2 → o.apply tree = tree
  readText_eq : o.code ≠ 2 → ∃ rules paths, openProject tree root = .ok (rules, paths) ∧
    ∀ path ∈ paths, ∃ text m, tree.readText (root ++ path) = .ok text ∧
      Migration.ofTemplate rules text = .ok m ∧
      (writes → (o.apply tree).readText (root ++ path) = .ok m.text)

theorem allOrNothing_of_error {fault : ProjectFault} (h : reportProject tree root = .error fault)
    (color writes : Bool) : (fault.outcome color).AllOrNothing tree root writes := by
  have hcode : (fault.outcome color).code = 2 := by cases fault <;> rfl
  have hwrites : (fault.outcome color).writes = [] := by cases fault <;> rfl
  refine ⟨?_, ?_, ?_⟩
  · simpa [hcode] using fails_reportProject_iff_unloadable.mp ⟨fault, h⟩
  · rw [Outcome.apply, hwrites]
    exact fun _ => rfl
  · exact fun hne => absurd hcode hne

theorem allOrNothing_of_ok {reports : List TemplateReport}
    (h : reportProject tree root = .ok reports) (color verbose dryRun : Bool) :
    (updateOutcome root reports color verbose dryRun).AllOrNothing tree root (!dryRun) := by
  have hloads : ¬ Unloadable tree root := by
    rw [← fails_reportProject_iff_unloadable, h]
    exact not_fails_ok reports
  have hcode : (updateOutcome root reports color verbose dryRun).code = 0 := rfl
  refine ⟨by simp [hcode, hloads], by simp [hcode], fun _ => ?_⟩
  obtain hfails | ⟨⟨rules, paths⟩, hopen⟩ := fails_or_exists (openProject tree root)
  · exact absurd (unloadable_of_fails_openProject hfails) hloads
  rw [reportProject_eq_of_openProject hopen] at h
  refine ⟨rules, paths, hopen, fun path hpath => ?_⟩
  obtain ⟨r, hr, hreport⟩ := (mem_of_mapM_eq_ok h).1 path hpath
  obtain ⟨rfl, text, htext, hm⟩ := reportAt_eq_ok_iff.mp hreport
  refine ⟨text, r.migration, htext, hm, fun hwrites => ?_⟩
  obtain rfl : dryRun = false := by simpa using hwrites
  exact readText_writeAll_changedTexts (reportAt_of_mem h) hr

/-- **An update writes all or nothing.**  If some stage fails, from the settings to any one of the
templates, the program exits with 2 and the file system is as it was.  If it does not exit with 2,
nothing has failed, and every template reads as its migrated text, unless this was a dry run. -/
theorem update_all_or_nothing {i : Invocation} {dryRun : Bool}
    (h : i.command = some (.update dryRun)) (tree : FileNode) (workingDirectory : Path)
    (allowsColor : Bool) :
    ((Request.run i).outcome tree workingDirectory allowsColor).AllOrNothing tree
      (i.root workingDirectory) (!dryRun) := by
  simp only [Request.outcome, Invocation.outcome, h, Command.outcome]
  cases hreports : reportProject tree (i.root workingDirectory) with
  | error fault => exact allOrNothing_of_error hreports _ _
  | ok reports => exact allOrNothing_of_ok hreports _ _ _

/-- A project with a template that changes, and one after it that is no text. -/
def brokenProject : FileNode :=
  .directory [("app", .directory
    [("a.html", .file "<p ng-if=\"vm.x\"></p>".toUTF8), ("b.html", .file ⟨#[0x61, 0xff]⟩)])]

theorem unloadable_brokenProject : Unloadable brokenProject ["app"] := by
  have hroot : brokenProject.resolve ["app"] = .ok ["app"] := by
    simp [FileNode.resolve, FileNode.follow, brokenProject, FileNode.get?, FileNode.linkLimit]
  have hopen : openProject brokenProject ["app"] = .ok (.default, [["a.html"], ["b.html"]]) := by
    refine openProject_of_collectAll (load_eq_default hroot rfl (by decide)) (by decide +kernel)
      (readDirectory_eq_ok_iff.mpr ⟨["app"], hroot, rfl⟩) ?_ (by decide)
    rw [Settings.selection, projectIgnores_eq_empty hroot rfl (by decide)]
    decide +kernel
  have hmalformed : String.fromUTF8? ⟨#[0x61, 0xff]⟩ = none := by decide +kernel
  refine .template hopen (List.mem_of_getElem? (i := 1) rfl) ⟨.notUtf8, ?_⟩
  simp [FileNode.readText, FileNode.readBytes, FileNode.find, FileNode.resolve, FileNode.follow,
    brokenProject, FileNode.get?, FileNode.linkLimit, List.lookup_cons, hmalformed, bind,
    Except.bind]

/-- The first template has changes, and is not written because of the second one. -/
theorem update_all_or_nothing_brokenProject :
    ((Request.run ⟨some (.update false), none, false, true⟩).outcome brokenProject ["app"]
        true).code = 2 ∧
      ((Request.run ⟨some (.update false), none, false, true⟩).outcome brokenProject ["app"]
        true).apply brokenProject = brokenProject := by
  have h := update_all_or_nothing (i := ⟨some (.update false), none, false, true⟩) rfl
    brokenProject ["app"] true
  have hcode := h.code_eq_two_iff.mpr unloadable_brokenProject
  exact ⟨hcode, h.apply_eq hcode⟩

end TemplateMigration
