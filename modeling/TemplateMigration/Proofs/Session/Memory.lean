import TemplateMigration.Session

/-!
# TemplateMigration.Proofs.Session.Memory

What a session remembers.

The last result is kept under its source text alone, while a migration with a given forest also
depends on that forest.  So one thing can be seen of the calls before: a template whose text was
last migrated with a forest gets the result of that forest again.  `suppliedTree` replays the calls
to tell which forest that is, and nothing else is remembered (`recalls_after`).
-/

namespace TemplateMigration

/-- A call on a session. -/
inductive Call where
  | template (source : String)
  | forest (source : String) (nodes : List Node)

namespace Session

/-- Make a call. -/
def perform (s : Session) : Call → Except Failure Migration × Session
  | .template source => s.migrate source
  | .forest source nodes => s.migrateForest source nodes

/-- The session after some calls, failed ones included. -/
def after (s : Session) (calls : List Call) : Session :=
  calls.foldl (fun s call => (s.perform call).2) s

end Session

namespace Call

/-- The forest behind what is remembered for a source text, after one more call. -/
def supply (rules : RuleSet) (source : String) (known : Option (List Node)) :
    Call → Option (List Node)
  | template other => if other = source then known else none
  | forest other nodes =>
      if other = source ∧ (Migration.ofForest rules source nodes).isOk then some nodes else none

/-- The forest behind what is remembered for a source text after some calls: that of the last call
with this text and a forest, unless it failed or another text came after it. -/
def suppliedTree (rules : RuleSet) (source : String) (calls : List Call) : Option (List Node) :=
  calls.foldl (supply rules source) none

/-- The call that a new session answers as a session with some calls behind it answers a call. -/
def resolve (rules : RuleSet) (calls : List Call) : Call → Call
  | template source =>
      match suppliedTree rules source calls with
      | none => template source
      | some nodes => forest source nodes
  | forest source nodes => forest source nodes

end Call

/-! ## Results -/

namespace Migration

/-- A migration succeeds with a patch in which all edits are made. -/
theorem exists_patch_of_ofForest {rules : RuleSet} {source : String} {nodes : List Node}
    {m : Migration} (h : ofForest rules source nodes = .ok m) : ∃ patch,
      (rules.forestChanges nodes).edits.foldlM SourceEdit.apply (Patch.ofText source) = .ok patch ∧
      m = ⟨source, VoidEndTag.strip patch.render,
        (Message.errorsFirst (rules.forestChanges nodes).messages).map (·.place source)⟩ := by
  rw [ofForest, ofChanges] at h
  cases hpatch :
      (rules.forestChanges nodes).edits.foldlM SourceEdit.apply (Patch.ofText source) with
  | error failure =>
      rw [hpatch] at h
      contradiction
  | ok patch =>
      rw [hpatch] at h
      exact ⟨patch, rfl, (Except.ok.inj h).symm⟩

/-- A migration keeps its source text. -/
theorem source_of_ofForest {rules : RuleSet} {source : String} {nodes : List Node} {m : Migration}
    (h : ofForest rules source nodes = .ok m) : m.source = source := by
  obtain ⟨patch, -, rfl⟩ := exists_patch_of_ofForest h
  rfl

/-- What a source text gives with a forest behind it, or with its own. -/
def ofKnown (rules : RuleSet) (source : String) : Option (List Node) → Except Failure Migration
  | none => ofTemplate rules source
  | some nodes => ofForest rules source nodes

theorem source_of_ofKnown {rules : RuleSet} {source : String} {known : Option (List Node)}
    {m : Migration} (h : ofKnown rules source known = .ok m) : m.source = source := by
  cases known with
  | none => exact source_of_ofForest h
  | some nodes => exact source_of_ofForest h

end Migration

/-! ## Steps -/

namespace Session

variable {s : Session} {rules : RuleSet} {known : String → Option (List Node)}

/-- A session with some rules remembers a result of the known forests, or a template's own, and it
remembers each result of a known forest. -/
structure Recalls (s : Session) (rules : RuleSet) (known : String → Option (List Node)) : Prop where
  rules_eq : s.rules = rules
  result : ∀ source m, s.remembered? source = some m →
    Migration.ofKnown rules source (known source) = .ok m
  forest : ∀ source, s.remembered? source = none → known source = none

theorem recalls_start (rules : RuleSet) : (start rules).Recalls rules fun _ => none where
  rules_eq := rfl
  result := by
    intro source m h
    contradiction
  forest := fun _ _ => rfl

/-- A remembered result is found under its own source text. -/
theorem remembered?_remember {result : Except Failure Migration} {source : String}
    (hsource : ∀ m, result = .ok m → m.source = source) (other : String) :
    (s.remember result).remembered? other = if source = other then result.toOption else none := by
  cases result with
  | error failure => simp [remember, remembered?, Except.toOption]
  | ok m =>
      have hm : m.source = source := hsource m rfl
      simp [remember, remembered?, Except.toOption, Option.filter, hm]

/-- A template gets the result of the forest behind it, or its own. -/
theorem migrate_eq (h : s.Recalls rules known) (source : String) :
    (s.migrate source).1 = Migration.ofKnown rules source (known source) := by
  rw [migrate]
  cases hremembered : s.remembered? source with
  | none => rw [h.forest source hremembered, Migration.ofKnown, h.rules_eq]
  | some m => rw [h.result source m hremembered]

/-- A session that remembers a result forgets everything about other source texts. -/
theorem Recalls.of_remember {result : Except Failure Migration} {source : String}
    {tree : Option (List Node)} (h : s.rules = rules)
    (hok : ∀ m, result = .ok m → Migration.ofKnown rules source tree = .ok m)
    (hnone : ∀ failure, result = .error failure → tree = none) :
    (s.remember result).Recalls rules fun other => if source = other then tree else none := by
  have hsource : ∀ m, result = .ok m → m.source = source := fun m hm =>
    Migration.source_of_ofKnown (hok m hm)
  refine ⟨h, ?_, ?_⟩
  · intro other m hremembered
    rw [remembered?_remember hsource] at hremembered
    by_cases heq : source = other
    · subst heq
      cases result with
      | error failure =>
          rw [if_pos rfl] at hremembered
          contradiction
      | ok m' =>
          rw [if_pos rfl] at hremembered ⊢
          cases hremembered
          exact hok m rfl
    · rw [if_neg heq] at hremembered
      contradiction
  · intro other hremembered
    rw [remembered?_remember hsource] at hremembered
    by_cases heq : source = other
    · cases result with
      | error failure =>
          rw [if_pos heq]
          exact hnone failure rfl
      | ok m =>
          rw [if_pos heq] at hremembered
          contradiction
    · rw [if_neg heq]

/-- What is remembered after one call. -/
theorem recalls_perform (h : s.Recalls rules known) (call : Call) :
    (s.perform call).2.Recalls rules fun source => call.supply rules source (known source) := by
  cases call with
  | template source =>
      have hresult := migrate_eq h source
      have hsupply : (fun other => (Call.template source).supply rules other (known other)) =
          fun other => if source = other then known source else none := by
        funext other
        rw [Call.supply]
        split
        · next heq => rw [heq]
        · rfl
      rw [hsupply]
      refine Recalls.of_remember h.rules_eq ?_ ?_
      · intro m hm
        rw [← hresult]
        exact hm
      · intro failure herror
        cases hremembered : s.remembered? source with
        | none => exact h.forest source hremembered
        | some m =>
            rw [hremembered] at herror
            contradiction
  | forest source nodes =>
      have hsupply : (fun other => (Call.forest source nodes).supply rules other (known other)) =
          fun other =>
            if source = other then
              if (Migration.ofForest rules source nodes).isOk then some nodes else none
            else none := by
        funext other
        rw [Call.supply]
        by_cases heq : source = other
        · subst heq
          simp
        · simp [heq]
      rw [hsupply]
      refine Recalls.of_remember h.rules_eq ?_ ?_
      · intro m hm
        rw [h.rules_eq] at hm
        rw [hm]
        exact hm
      · intro failure herror
        rw [h.rules_eq] at herror
        rw [herror]
        rfl

/-! ## Runs -/

theorem recalls_after (h : s.Recalls rules known) (calls : List Call) :
    (s.after calls).Recalls rules fun source =>
      calls.foldl (Call.supply rules source) (known source) := by
  induction calls generalizing s known with
  | nil => exact h
  | cons call calls ih => exact ih (recalls_perform h call)

/-- **A session remembers one forest.**  After any calls a session answers a call with a forest as
a new session does, and a template as a new session answers it with the forest that was last
supplied for its text, or without one. -/
theorem perform_after (rules : RuleSet) (calls : List Call) (call : Call) :
    (((start rules).after calls).perform call).1 =
      ((start rules).perform (call.resolve rules calls)).1 := by
  have hrecalls := recalls_after (recalls_start rules) calls
  cases call with
  | forest source nodes =>
      show Migration.ofForest ((start rules).after calls).rules source nodes = _
      rw [hrecalls.rules_eq]
      rfl
  | template source =>
      have hresult := migrate_eq hrecalls source
      rw [← Call.suppliedTree] at hresult
      rw [perform, hresult, Call.resolve]
      cases Call.suppliedTree rules source calls with
      | none => rfl
      | some nodes => rfl

/-- The same template with and without a forest before it: a session can be told from a new one. -/
theorem not_forall_perform_after_eq :
    ¬ ∀ (rules : RuleSet) (calls : List Call) (call : Call),
      (((start rules).after calls).perform call).1 = ((start rules).perform call).1 := by
  intro h
  have hsame := h .default [.forest "<a ng-if>" []] (.template "<a ng-if>")
  have htext := congrArg (fun result => result.toOption.map Migration.text) hsame
  revert htext
  decide +kernel

end Session

end TemplateMigration
