import Mathlib.Data.String.Basic
import TemplateMigration.Rule.RuleSet

/-!
# TemplateMigration.Proofs.Rule.Layers

Configured rules as a layer over the built-in ones.

Settings mention transforms by name (`RuleSettings.mentions`, in the order in which they are looked
up).  If one of the names is unknown, the first such is the failure.  Otherwise there are rules, and
each look-up in them asks the settings first and the base after that (`RuleSet.LaidOver`).
-/

namespace TemplateMigration

/-! ## Transforms and their names -/

/-- Transforms that go by names: a transform is found under its name, and nothing is found under
any other name. -/
structure GoesByName {α : Type} (name : α → String) (ofName : String → Except Failure α)
    (unknown : String → Failure) : Prop where
  ofName_name (t : α) : ofName (name t) = .ok t
  ofName_of_unknown {n : String} (h : ¬ ∃ t, name t = n) : ofName n = .error (unknown n)

theorem ValueTransform.goesByName :
    GoesByName ValueTransform.name ofName .unknownValueTransform where
  ofName_name t := by cases t <;> rfl
  ofName_of_unknown h := by
    rw [not_exists] at h
    simp [ofName, Ne.symm (h hiddenNegation), Ne.symm (h repeatToFor)]

theorem PipeTransform.goesByName : GoesByName PipeTransform.name ofName .unknownPipeTransform where
  ofName_name t := by cases t <;> rfl
  ofName_of_unknown h := by
    rw [not_exists] at h
    simp [ofName, Ne.symm (h limitToSlice), Ne.symm (h currency)]

theorem ExpressionTransform.goesByName :
    GoesByName ExpressionTransform.name ofName .unknownExpressionTransform where
  ofName_name t := by cases t; rfl
  ofName_of_unknown h := by
    rw [not_exists] at h
    simp [ofName, Ne.symm (h stripAlias)]

instance (n : String) : Decidable (∃ t : ValueTransform, t.name = n) :=
  decidable_of_iff (ValueTransform.hiddenNegation.name = n ∨ ValueTransform.repeatToFor.name = n)
    ⟨fun h => h.elim (⟨_, ·⟩) (⟨_, ·⟩), fun ⟨t, h⟩ => by cases t <;> simp [h]⟩

instance (n : String) : Decidable (∃ t : PipeTransform, t.name = n) :=
  decidable_of_iff (PipeTransform.limitToSlice.name = n ∨ PipeTransform.currency.name = n)
    ⟨fun h => h.elim (⟨_, ·⟩) (⟨_, ·⟩), fun ⟨t, h⟩ => by cases t <;> simp [h]⟩

instance (n : String) : Decidable (∃ t : ExpressionTransform, t.name = n) :=
  decidable_of_iff (ExpressionTransform.stripAlias.name = n)
    ⟨(⟨_, ·⟩), fun ⟨t, h⟩ => by cases t; exact h⟩

/-! ## Mentions -/

/-- A transform that settings mention: what it is for, where it is in a table, and its name. -/
inductive Mention where
  | value (name transform : String)
  | pipe (filter transform : String)
  | expression (transform : String)

namespace Mention

/-- There is a transform of the name. -/
def Known : Mention → Prop
  | value _ transform => ∃ t : ValueTransform, t.name = transform
  | pipe _ transform => ∃ t : PipeTransform, t.name = transform
  | expression transform => ∃ t : ExpressionTransform, t.name = transform

instance (m : Mention) : Decidable m.Known :=
  match m with
  | value _ transform => inferInstanceAs (Decidable (∃ t : ValueTransform, t.name = transform))
  | pipe _ transform => inferInstanceAs (Decidable (∃ t : PipeTransform, t.name = transform))
  | expression transform =>
      inferInstanceAs (Decidable (∃ t : ExpressionTransform, t.name = transform))

/-- The failure if there is none. -/
def failure : Mention → Failure
  | value _ transform => .unknownValueTransform transform
  | pipe _ transform => .unknownPipeTransform transform
  | expression transform => .unknownExpressionTransform transform

end Mention

namespace RuleSettings

/-- The transforms that settings mention: those of values and of filters in ascending order of the
attributes and filters, then those of expressions as they are listed. -/
def mentions (s : RuleSettings) : List Mention :=
  s.valueTransforms.entries.map (fun entry => .value entry.1 entry.2) ++
    s.pipeTransforms.entries.map (fun entry => .pipe entry.1 entry.2) ++
    s.expressionTransforms.map .expression

/-- The first transform that settings mention and that there is not. -/
def unknown? (s : RuleSettings) : Option Mention := s.mentions.find? fun m => !decide m.Known

/-- The rules that settings are laid over. -/
def base (s : RuleSettings) : RuleSet := if s.useDefaults then .default else .empty

end RuleSettings

namespace RuleSet

/-- A look-up that asks configured names first: what is found has the configured name, and if there
is none it is what the base has. -/
def Overrides {α : Type} (name : α → String) (configured : Option String) (base found : Option α) :
    Prop :=
  (∀ n, configured = some n → ∃ t, name t = n ∧ found = some t) ∧
    (configured = none → found = base)

/-- Rules that are settings laid over a base. -/
structure LaidOver (s : RuleSettings) (base r : RuleSet) : Prop where
  rename (name : String) :
    r.rename? name = (s.renames.find? (·.oldName == name)).or (base.rename? name)
  value (name : String) :
    Overrides ValueTransform.name (s.valueTransforms.find? name) (base.valueTransform? name)
      (r.valueTransform? name)
  pipe (filter : String) :
    Overrides PipeTransform.name (s.pipeTransforms.find? filter) (base.pipeTransform? filter)
      (r.pipeTransform? filter)
  unsupportedAttribute (name : String) :
    r.isUnsupportedAttribute name = true ↔
      name ∈ s.unsupportedAttributes ∨ base.isUnsupportedAttribute name = true
  unsupportedPipe (filter : String) :
    r.isUnsupportedPipe filter = true ↔
      filter ∈ s.unsupportedPipes ∨ base.isUnsupportedPipe filter = true
  expressions :
    if s.expressionTransforms = [] then r.expressionTransforms = base.expressionTransforms
    else r.expressionTransforms.map ExpressionTransform.name = s.expressionTransforms

/-! ## Tables and lists of transforms -/

section Transforms

variable {α : Type} {name : α → String} {ofName : String → Except Failure α}
  {unknown : String → Failure}

/-- The first unknown name in a table is the failure. -/
theorem addTransforms_eq_error [∀ n, Decidable (∃ t, name t = n)]
    (h : GoesByName name ofName unknown) {entry : String × String}
    {entries : List (String × String)} (base : Table α)
    (hfind : entries.find? (fun e : String × String => !decide (∃ t, name t = e.2)) = some entry) :
    addTransforms ofName base entries = .error (unknown entry.2) := by
  induction entries generalizing base with
  | nil => simp at hfind
  | cons first more ih =>
      obtain ⟨key, n⟩ := first
      rw [addTransforms]
      by_cases hknown : ∃ t, name t = n
      · rw [List.find?_cons_of_neg (by simpa using hknown)] at hfind
        obtain ⟨t, rfl⟩ := hknown
        rw [h.ofName_name]
        exact ih _ hfind
      · rw [List.find?_cons_of_pos (by simpa using hknown), Option.some.injEq] at hfind
        subst hfind
        rw [h.ofName_of_unknown hknown]
        rfl

/-- A table of known names is laid over another one. -/
theorem exists_addTransforms_eq_ok (h : GoesByName name ofName unknown)
    {entries : List (String × String)} (base : Table α) (hordered : entries.Pairwise (·.1 < ·.1))
    (hknown : ∀ entry ∈ entries, ∃ t, name t = entry.2) :
    ∃ table, addTransforms ofName base entries = .ok table ∧
      ∀ key, Overrides name (entries.lookup key) (base.find? key) (table.find? key) := by
  induction entries generalizing base with
  | nil => exact ⟨base, rfl, fun key => ⟨by simp, fun _ => rfl⟩⟩
  | cons first more ih =>
      obtain ⟨key, n⟩ := first
      obtain ⟨⟨t, rfl⟩, hmore⟩ := List.forall_mem_cons.mp hknown
      obtain ⟨hfirst, hordered⟩ := List.pairwise_cons.mp hordered
      obtain ⟨table, htable, hfound⟩ := ih (base.insert key t) hordered hmore
      refine ⟨table, ?_, fun other => ?_⟩
      · rw [addTransforms, h.ofName_name]
        exact htable
      · specialize hfound other
        rw [Table.find?_insert] at hfound
        by_cases hother : other = key
        · -- The other entries have greater keys, so the new one is not replaced.
          subst hother
          have hnone : more.lookup other = none := by
            rw [List.lookup_eq_none_iff]
            intro entry hentry
            exact bne_iff_ne.mpr (hfirst entry hentry).ne
          refine ⟨fun n hn => ⟨t, ?_, ?_⟩, by simp⟩
          · simpa using hn
          · rw [hfound.2 hnone, if_pos rfl]
        · rw [if_neg hother] at hfound
          rwa [List.lookup_cons, beq_false_of_ne hother]

theorem mapM_ofName_eq_error [∀ n, Decidable (∃ t, name t = n)]
    (h : GoesByName name ofName unknown) {n : String} {names : List String}
    (hfind : names.find? (fun n => !decide (∃ t, name t = n)) = some n) :
    names.mapM ofName = .error (unknown n) := by
  induction names with
  | nil => simp at hfind
  | cons first more ih =>
      rw [List.mapM_cons]
      by_cases hknown : ∃ t, name t = first
      · rw [List.find?_cons_of_neg (by simpa using hknown)] at hfind
        obtain ⟨t, rfl⟩ := hknown
        rw [h.ofName_name, ih hfind]
        rfl
      · rw [List.find?_cons_of_pos (by simpa using hknown), Option.some.injEq] at hfind
        subst hfind
        rw [h.ofName_of_unknown hknown]
        rfl

theorem exists_mapM_ofName_eq_ok (h : GoesByName name ofName unknown) {names : List String}
    (hknown : ∀ n ∈ names, ∃ t, name t = n) :
    ∃ ts, names.mapM ofName = .ok ts ∧ ts.map name = names := by
  induction names with
  | nil => exact ⟨[], rfl, rfl⟩
  | cons first more ih =>
      obtain ⟨⟨t, rfl⟩, hmore⟩ := List.forall_mem_cons.mp hknown
      obtain ⟨ts, hts, rfl⟩ := ih hmore
      exact ⟨t :: ts, by rw [List.mapM_cons, h.ofName_name, hts]; rfl, rfl⟩

end Transforms

/-! ## Rules of settings -/

variable {s : RuleSettings}

/-- The first unknown mention is that of the first part that has one. -/
theorem unknown?_eq (s : RuleSettings) :
    s.unknown? =
      ((s.valueTransforms.entries.find? fun e : String × String =>
          !decide (∃ t : ValueTransform, t.name = e.2)).map fun e => .value e.1 e.2).or
        (((s.pipeTransforms.entries.find? fun e : String × String =>
          !decide (∃ t : PipeTransform, t.name = e.2)).map fun e => .pipe e.1 e.2).or
        ((s.expressionTransforms.find? fun n =>
          !decide (∃ t : ExpressionTransform, t.name = n)).map .expression)) := by
  rw [RuleSettings.unknown?, RuleSettings.mentions, List.append_assoc, List.find?_append,
    List.find?_append, List.find?_map, List.find?_map, List.find?_map]
  rfl

/-- The expression transforms of settings. -/
def expressionsOf (s : RuleSettings) : Except Failure (List ExpressionTransform) :=
  if s.expressionTransforms.isEmpty then .ok s.base.expressionTransforms
  else s.expressionTransforms.mapM ExpressionTransform.ofName

/-- The rules of settings whose transforms have been found. -/
def withTransforms (s : RuleSettings) (values : Table ValueTransform) (pipes : Table PipeTransform)
    (expressions : List ExpressionTransform) : RuleSet where
  valueTransforms := values
  pipeTransforms := pipes
  unsupportedAttributes := s.base.unsupportedAttributes.insertAll s.unsupportedAttributes
  unsupportedPipes := s.base.unsupportedPipes.insertAll s.unsupportedPipes
  renames := s.renames ++ s.base.renames
  expressionTransforms := expressions

theorem ofSettings_eq (s : RuleSettings) :
    ofSettings s =
      (addTransforms ValueTransform.ofName s.base.valueTransforms s.valueTransforms.entries).bind
        fun values =>
      (addTransforms PipeTransform.ofName s.base.pipeTransforms s.pipeTransforms.entries).bind
        fun pipes =>
      (expressionsOf s).bind
        fun expressions => .ok (withTransforms s values pipes expressions) := by
  unfold ofSettings expressionsOf
  cases s.expressionTransforms.isEmpty <;> rfl

/-- Settings that mention an unknown transform give no rules. -/
theorem ofSettings_eq_error {m : Mention} (h : s.unknown? = some m) :
    ofSettings s = .error m.failure := by
  rw [unknown?_eq] at h
  rw [ofSettings_eq]
  cases hvalue : s.valueTransforms.entries.find? fun e : String × String =>
      !decide (∃ t : ValueTransform, t.name = e.2) with
  | some entry =>
      simp only [hvalue, Option.map_some, Option.some_or, Option.some.injEq] at h
      rw [addTransforms_eq_error ValueTransform.goesByName _ hvalue, ← h]
      rfl
  | none =>
  obtain ⟨values, hvalues, -⟩ := exists_addTransforms_eq_ok ValueTransform.goesByName
    s.base.valueTransforms s.valueTransforms.ordered (by simpa using hvalue)
  rw [hvalues, Except.bind]
  cases hpipe : s.pipeTransforms.entries.find? fun e : String × String =>
      !decide (∃ t : PipeTransform, t.name = e.2) with
  | some entry =>
      simp only [hvalue, hpipe, Option.map_none, Option.none_or, Option.map_some, Option.some_or,
        Option.some.injEq] at h
      rw [addTransforms_eq_error PipeTransform.goesByName _ hpipe, ← h]
      rfl
  | none =>
  obtain ⟨pipes, hpipes, -⟩ := exists_addTransforms_eq_ok PipeTransform.goesByName
    s.base.pipeTransforms s.pipeTransforms.ordered (by simpa using hpipe)
  rw [hpipes, Except.bind, expressionsOf]
  simp only [hvalue, hpipe, Option.map_none, Option.none_or] at h
  obtain ⟨n, hfind, rfl⟩ := Option.map_eq_some_iff.mp h
  rw [if_neg, mapM_ofName_eq_error ExpressionTransform.goesByName hfind]
  · rfl
  · intro hempty
    rw [List.isEmpty_iff.mp hempty] at hfind
    contradiction

theorem exists_expressionsOf_eq_ok
    (hknown : ∀ n ∈ s.expressionTransforms, ∃ t : ExpressionTransform, t.name = n) :
    ∃ ts, expressionsOf s = .ok ts ∧
      if s.expressionTransforms = [] then ts = s.base.expressionTransforms
      else ts.map ExpressionTransform.name = s.expressionTransforms := by
  unfold expressionsOf
  obtain ⟨ts, hts, hnames⟩ := exists_mapM_ofName_eq_ok ExpressionTransform.goesByName hknown
  by_cases hempty : s.expressionTransforms = []
  · exact ⟨s.base.expressionTransforms, by simp [hempty], by simp [hempty]⟩
  · exact ⟨ts, by simp [hempty, hts], by simp [hempty, hnames]⟩

/-- Settings that mention known transforms only are laid over their base. -/
theorem exists_ofSettings_eq_ok (h : s.unknown? = none) :
    ∃ r, ofSettings s = .ok r ∧ LaidOver s s.base r := by
  rw [unknown?_eq] at h
  simp only [Option.or_eq_none_iff, Option.map_eq_none_iff] at h
  obtain ⟨hvalue, hpipe, hexpression⟩ := h
  obtain ⟨values, hvalues, hvalue⟩ := exists_addTransforms_eq_ok ValueTransform.goesByName
    s.base.valueTransforms s.valueTransforms.ordered (by simpa using hvalue)
  obtain ⟨pipes, hpipes, hpipe⟩ := exists_addTransforms_eq_ok PipeTransform.goesByName
    s.base.pipeTransforms s.pipeTransforms.ordered (by simpa using hpipe)
  obtain ⟨ts, hts, hexpressions⟩ := exists_expressionsOf_eq_ok (s := s) (by simpa using hexpression)
  refine ⟨withTransforms s values pipes ts, ?_, ?_⟩
  · rw [ofSettings_eq, hvalues, hpipes, hts]
    rfl
  · exact {
      rename := fun name => List.find?_append
      value := hvalue
      pipe := hpipe
      unsupportedAttribute := fun name => NameSet.contains_insertAll
      unsupportedPipe := fun filter => NameSet.contains_insertAll
      expressions := hexpressions }

/-- **Configured rules are a layer.**  Settings fail exactly if they mention a transform that there
is not, with the first such as the failure; otherwise their rules are those that they configure and,
behind these, the rules of the base. -/
theorem ofSettings_layers (s : RuleSettings) :
    ((∃ f, ofSettings s = .error f) ↔ ∃ m ∈ s.mentions, ¬ m.Known) ∧
      (∀ f, ofSettings s = .error f ↔ s.unknown?.map Mention.failure = some f) ∧
      ∀ r, ofSettings s = .ok r → LaidOver s s.base r := by
  have hnone : s.unknown? = none ↔ ∀ m ∈ s.mentions, m.Known := by simp [RuleSettings.unknown?]
  cases hunknown : s.unknown? with
  | none =>
      obtain ⟨r, hr, hlaid⟩ := exists_ofSettings_eq_ok hunknown
      have hknown := hnone.mp hunknown
      simp_all
  | some m =>
      have herror := ofSettings_eq_error hunknown
      have hmem : ∃ m ∈ s.mentions, ¬ m.Known := by
        refine ⟨m, List.mem_of_find?_eq_some hunknown, ?_⟩
        simpa using List.find?_some hunknown
      simp_all

/-- Two unknown transforms of filters, given out of order, and one of expressions: the failure is
that of the first filter. -/
theorem ofSettings_layers_unknown :
    ofSettings ⟨true, [], [], [], .ofList [("ng-show", "repeat-to-for")],
        .ofList [("number", "round"), ("date", "day"), ("limitTo", "currency")], ["none"]⟩ =
      .error (.unknownPipeTransform "day") :=
  ((ofSettings_layers _).2.1 _).mpr (by decide)

end RuleSet

end TemplateMigration
