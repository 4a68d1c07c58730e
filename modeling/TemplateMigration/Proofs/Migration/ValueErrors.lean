import TemplateMigration.Proofs.Migration.AliasRemoval
import TemplateMigration.Proofs.Migration.FilterChain

/-!
# TemplateMigration.Proofs.Migration.ValueErrors

Errors about values, and what becomes of values without them.

Only a value transform finds errors in a value (`RuleSet.anyError_valueChanges`), and whether it
does depends on the value alone, not on where it stands (`RuleSet.blocks_eq`).  Under the built-in
rules every attribute with a value transform is renamed too, so a value whose attribute keeps its
name is left to the expression transforms (`RuleSet.valueChanges_of_rename?`).
-/

namespace TemplateMigration

/-! ## Errors about values -/

namespace RuleSet

variable {r : RuleSet}

/-- Where a value stands decides only where the messages about it are. -/
theorem repeatToFor_eq (r : RuleSet) (value : String) (start start' : Nat) :
    (r.repeatToFor value start).value = (r.repeatToFor value start').value ∧
      (r.repeatToFor value start).messages.map Message.content =
        (r.repeatToFor value start').messages.map Message.content := by
  rw [repeatToFor, repeatToFor]
  dsimp only
  split
  · exact ⟨rfl, rfl⟩
  · next e he =>
      split
      · exact ⟨rfl, rfl⟩
      · next item hitem =>
          obtain ⟨hvalue, hmessages⟩ := r.migrateFilterChain_eq (String.ofList e.collection) start
            (byteLength value) start' (byteLength value)
          have hfaults : (repeatFaults e item start (byteLength value)).map Message.content =
              (repeatFaults e item start' (byteLength value)).map Message.content := by
            simp only [repeatFaults, List.map_append]
            congr 1
            · congr 1
              · congr 1
                · split <;> rfl
                · split <;> rfl
              · cases item <;> rfl
            · split <;> rfl
          have hall : (repeatFaults e item start (byteLength value) ++
                (r.migrateFilterChain (String.ofList e.collection) start
                  (byteLength value)).messages).map Message.content =
              (repeatFaults e item start' (byteLength value) ++
                (r.migrateFilterChain (String.ofList e.collection) start'
                  (byteLength value)).messages).map Message.content := by
            rw [List.map_append, List.map_append, hfaults, hmessages]
          rw [Message.anyError_congr hall]
          split
          · exact ⟨rfl, hall⟩
          · rw [hvalue]
            refine ⟨rfl, ?_⟩
            rw [List.map_cons, List.map_cons, hall]
            rfl

/-- Only a value transform finds errors in a value. -/
theorem anyError_valueChanges (r : RuleSet) (a : Attribute) :
    Message.anyError (r.valueChanges a).messages = (a.hasValue && (r.valueTransform? a.name).any
      fun t => Message.anyError (t.apply a.value a.valueStart r).messages) := by
  have hexpression := r.anyError_migrateExpression a.value a.valueStart
  rw [valueChanges]
  cases a.hasValue with
  | false => rfl
  | true =>
      cases r.valueTransform? a.name with
      | none => simpa [Message.anyError] using hexpression
      | some t =>
          cases herror : Message.anyError (t.apply a.value a.valueStart r).messages with
          | true => simp [herror]
          | false =>
              simp only [Bool.not_true, Bool.false_eq_true, if_false, herror, Option.any_some,
                Bool.and_false]
              split
              · exact herror
              · rw [Message.anyError, List.any_append, ← Message.anyError, ← Message.anyError,
                  herror, hexpression]
                rfl

/-- Whether an attribute is kept because of an error does not depend on where it stands. -/
theorem blocks_eq {a b : Attribute} (hname : a.name = b.name) (hvalue : a.value = b.value)
    (hquoted : a.quoted = b.quoted) : r.blocks a = r.blocks b := by
  have htransform : ∀ t : ValueTransform,
      Message.anyError (t.apply b.value a.valueStart r).messages =
        Message.anyError (t.apply b.value b.valueStart r).messages := by
    intro t
    cases t with
    | hiddenNegation => rfl
    | repeatToFor => exact Message.anyError_congr (r.repeatToFor_eq _ _ _).2
  simp only [blocks, anyError_valueChanges, Attribute.hasValue, hname, hvalue, hquoted, htransform]

/-! ## Attributes that are left alone -/

theorem valueTransform?_of_rename? {name : String} (h : default.rename? name = none) :
    default.valueTransform? name = none := by
  have hentries : default.valueTransforms.entries =
    [("ng-repeat", .repeatToFor), ("ng-show", .hiddenNegation)] := by decide
  have hrepeat : (name == "ng-repeat") = false := by
    rw [beq_eq_false_iff_ne]
    rintro rfl
    contradiction
  have hshow : (name == "ng-show") = false := by
    rw [beq_eq_false_iff_ne]
    rintro rfl
    contradiction
  simp [valueTransform?, Table.find?, hentries, List.lookup_cons, hrepeat, hshow]

/-- A value without a value transform is left to the expression transforms. -/
theorem valueChanges_of_valueTransform? {a : Attribute} (h : r.valueTransform? a.name = none) :
    r.valueChanges a =
      if a.hasValue then
        ⟨(r.migrateExpression a.value a.valueStart).edits.map (.ofEdit a.valueStart),
          (r.migrateExpression a.value a.valueStart).messages⟩
      else .none := by
  rw [valueChanges, h]
  cases a.hasValue <;> simp [Message.anyError]

/-- So is a value whose attribute keeps its name. -/
theorem valueChanges_of_rename? {a : Attribute} (h : default.rename? a.name = none) :
    default.valueChanges a =
      if a.hasValue then
        ⟨(default.migrateExpression a.value a.valueStart).edits.map (.ofEdit a.valueStart),
          (default.migrateExpression a.value a.valueStart).messages⟩
      else .none :=
  valueChanges_of_valueTransform? (valueTransform?_of_rename? h)

end RuleSet

end TemplateMigration
