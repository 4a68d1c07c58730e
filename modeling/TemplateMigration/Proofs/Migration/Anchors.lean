import TemplateMigration.Proofs.Expression.PipeText
import TemplateMigration.Proofs.Migration.Layout

/-!
# TemplateMigration.Proofs.Migration.Anchors

The ranges of messages.

What the rules say about a filter or a value covers the range that was given to them, and what they
say about an expression covers an alias in it (`exists_of_mem_migrateExpression`).  The place of an
offset, by line and character, is decided by what stands before it (`Message.place_append`).
-/

namespace TemplateMigration

/-! ## Places -/

/-- A place up to which a text is read does not depend on what follows. -/
theorem LinePosition.advance_append (p : LinePosition) {n : Nat} {xs : List Char}
    (h : n ≤ byteCount xs) (ys : List Char) : p.advance n (xs ++ ys) = p.advance n xs := by
  induction xs generalizing p n with
  | nil =>
      obtain rfl : n = 0 := by simpa using h
      simp [advance]
  | cons c cs ih =>
      cases n with
      | zero => simp [advance]
      | succ n =>
          have hle : n + 1 - c.utf8Size ≤ byteCount cs := by
            rw [byteCount_cons] at h
            omega
          simp [advance, ih _ hle]

/-- A message about a part of a text keeps its place when the text goes on. -/
theorem Message.place_append {source : String} {m : Message}
    (h : m.position ≤ byteLength source) (later : String) :
    m.place (source ++ later) = m.place source := by
  simp [place, LinePosition.ofOffset, LinePosition.advance_append _ h]

/-! ## Messages about expressions -/

/-- A message is about a range, given by its start and its length. -/
def Message.Covers (m : Message) (position length : Nat) : Prop :=
  m.position = position ∧ m.length = length

namespace RuleSet

variable {r : RuleSet} {m : Message}

/-- The texts of the errors about a repeat expression. -/
def repeatErrors : List String :=
  ["Unexpected expression", "Unsupported expression `track by` use `trackBy` instead",
    "Unsupported expression `(key, value) in items`",
    "Unsupported expression `item in items as named`"]

/-- What the rules say about a range that holds a filter or a value. -/
inductive Says (r : RuleSet) (position length : Nat) : Message → Prop where
  | unsupported {name : String} (h : r.isUnsupportedPipe name = true) :
      Says r position length (.error position length ("Unsupported filter(pipe) " ++ name))
  | replaced {f : Filter} {t : PipeTransform} (h : r.pipeTransform? f.name.text = some t) :
      Says r position length (.info position length
        ("Update filter " ++ f.chain ++ " to pipe " ++ (t.apply f).value) (some (t.apply f).url))
  | fault {text : String} (h : text ∈ repeatErrors) (url : Option String) :
      Says r position length ⟨position, length, .error, text, url⟩
  | repeated : Says r position length (.info position length
      "Update expression `item in items` to `let item of items`" (some repeatUrl))
  | negated : Says r position length (.info position length
      "Update expression `ng-show=\"expression\"` to `[hidden]=\"!(expression)\"`"
      (some "https://angular.io/guide/ajs-quick-reference"))

/-- All of it is about the range. -/
theorem Says.covers {position length : Nat} (h : r.Says position length m) :
    m.Covers position length := by
  cases h <;> exact ⟨rfl, rfl⟩

/-- What the rules say about a filter. -/
theorem says_of_mem_migrateFilter {f : Filter} {position length : Nat}
    (h : m ∈ (r.migrateFilter f position length).messages) : r.Says position length m := by
  obtain ⟨hname, heq⟩ | ⟨-, -, heq⟩ | ⟨-, t, ht, -, heq⟩ := r.migrateFilter_cases f position length
  · rw [heq] at h
    rw [List.mem_singleton.mp h]
    exact .unsupported hname
  · rw [heq] at h
    contradiction
  · rw [heq] at h
    rw [List.mem_singleton.mp h]
    exact .replaced ht

theorem mem_messages_migrateFilterChain {expression : String} {position length : Nat} :
    m ∈ (r.migrateFilterChain expression position length).messages ↔
      ∃ f ∈ Filter.findAll (Tokens.read expression).list,
        m ∈ (r.migrateFilter f position length).messages := by
  simp [migrateFilterChain]

/-- The faults of a repeat expression are errors about all of it. -/
theorem exists_of_mem_repeatFaults {e : RepeatExpression} {item : RepeatItem} {start length : Nat}
    (h : m ∈ repeatFaults e item start length) :
    ∃ text ∈ repeatErrors, ∃ url, m = ⟨start, length, .error, text, url⟩ := by
  simp only [repeatFaults, List.mem_append] at h
  obtain ((h | h) | h) | h := h
  all_goals
    split at h
    all_goals simp_all [repeatErrors]

/-- What the rules say about a repeat expression. -/
theorem says_of_mem_repeatToFor {value : String} {start : Nat}
    (h : m ∈ (r.repeatToFor value start).messages) : r.Says start (byteLength value) m := by
  have hunexpected : m ∈ [Message.error start (byteLength value) "Unexpected expression"] →
      r.Says start (byteLength value) m := by
    intro hm
    rw [List.mem_singleton.mp hm]
    exact .fault (by simp [repeatErrors]) none
  have hboth : ∀ {e item expression},
      m ∈ repeatFaults e item start (byteLength value) ++
        (r.migrateFilterChain expression start (byteLength value)).messages →
          r.Says start (byteLength value) m := by
    intro e item expression hm
    obtain hm | hm := List.mem_append.mp hm
    · obtain ⟨text, htext, url, rfl⟩ := exists_of_mem_repeatFaults hm
      exact .fault htext url
    · obtain ⟨f, -, hm⟩ := mem_messages_migrateFilterChain.mp hm
      exact says_of_mem_migrateFilter hm
  simp only [repeatToFor] at h
  split at h
  · exact hunexpected h
  · split at h
    · exact hunexpected h
    · split at h
      · exact hboth h
      · obtain rfl | hm := List.mem_cons.mp h
        · exact .repeated
        · exact hboth hm

/-- All that a value transform says is about the whole value. -/
theorem says_of_mem_apply {t : ValueTransform} {value : String} {start : Nat}
    (h : m ∈ (t.apply value start r).messages) : r.Says start (byteLength value) m := by
  cases t with
  | hiddenNegation =>
      rw [List.mem_singleton.mp h]
      exact .negated
  | repeatToFor => exact says_of_mem_repeatToFor h

/-- A message of the expression transforms is about an alias in the expression. -/
theorem exists_of_mem_migrateExpression {expression : String} {start : Nat}
    (h : m ∈ (r.migrateExpression expression start).messages) :
    ∃ offset ∈ Alias.offsets expression, m = Alias.message (start + offset) := by
  obtain heq | heq := r.migrateExpression_cases expression start
  · rw [heq] at h
    contradiction
  · rw [heq] at h
    obtain ⟨offset, hoffset, rfl⟩ := List.mem_map.mp h
    exact ⟨offset, hoffset, rfl⟩

/-! ## Messages of a migration -/

mutual

/-- The messages about a node are those about its items. -/
theorem mem_messages_nodeChanges (n : Node) :
    m ∈ (r.nodeChanges n).messages ↔ ∃ i ∈ n.items, m ∈ (r.itemChanges i).messages := by
  cases n with
  | text run => simp [nodeChanges, itemChanges]
  | element tag children =>
      have hmessages : m ∈ (r.nodeChanges (.element tag children)).messages ↔
          m ∈ (r.forestChanges children).messages ∨ m ∈ (r.tagChanges tag).messages := by
        rw [nodeChanges]
        exact List.mem_append
      rw [hmessages, mem_messages_forestChanges children, or_comm]
      simp [itemChanges]

theorem mem_messages_forestChanges (ns : List Node) :
    m ∈ (r.forestChanges ns).messages ↔
      ∃ i ∈ Node.contents ns, m ∈ (r.itemChanges i).messages := by
  cases ns with
  | nil =>
      rw [forestChanges]
      simp [Changes.none]
  | cons n ns =>
      have hmessages : m ∈ (r.forestChanges (n :: ns)).messages ↔
          m ∈ (r.nodeChanges n).messages ∨ m ∈ (r.forestChanges ns).messages := by
        rw [forestChanges]
        exact List.mem_append
      rw [hmessages, mem_messages_nodeChanges n, mem_messages_forestChanges ns]
      simp [or_and_right, exists_or]

end

end RuleSet

end TemplateMigration
