import Mathlib.Data.Option.Basic
import TemplateMigration.Rule.Apply

/-!
# TemplateMigration.Proofs.Expression.RepeatText

The parts of a repeat expression are parts of its text.

A reading hands on what is left of the text from step to step, so each step is told by one lemma:
what it takes, what it hands on, and to whom (`Reading.exists_of_blanks` and the like).  A text that
was read is then its item and its collection with a gap, `in` and a gap between them, and what
follows is white space unless a further clause was read: `RepeatExpression.exists_of_parse?`.
-/

namespace TemplateMigration

/-- White space that divides two parts of a text. -/
structure IsGap (ws : List Char) : Prop where
  ne_nil : ws ≠ []
  blank : ws.all isWhiteSpace = true

namespace Reading

variable {α : Type} {next : List Char → Option α} {cs : List Char} {result found : α}

theorem exists_of_blanks (h : blanks next cs = some result) :
    ∃ ws rest, cs = ws ++ rest ∧ ws.all isWhiteSpace = true ∧ next rest = some result := by
  induction cs with
  | nil => exact ⟨[], [], rfl, rfl, h⟩
  | cons c cs ih =>
      rw [blanks] at h
      split at h
      · next hc =>
          obtain hmore | ⟨-, hhere⟩ := (Option.orElse_eq_some _ _ _).mp h
          · obtain ⟨ws, rest, rfl, hws, hnext⟩ := ih hmore
            exact ⟨c :: ws, rest, rfl, by rw [List.all_cons, hc, hws]; rfl, hnext⟩
          · exact ⟨[], c :: cs, rfl, rfl, hhere⟩
      · exact ⟨[], c :: cs, rfl, rfl, h⟩

theorem exists_of_someBlanks (h : someBlanks next cs = some result) :
    ∃ ws rest, cs = ws ++ rest ∧ IsGap ws ∧ next rest = some result := by
  cases cs with
  | nil => contradiction
  | cons c cs =>
      rw [someBlanks] at h
      split at h
      · next hc =>
          obtain ⟨ws, rest, rfl, hws, hnext⟩ := exists_of_blanks h
          have hblank : (c :: ws).all isWhiteSpace = true := by rw [List.all_cons, hc, hws]; rfl
          exact ⟨c :: ws, rest, rfl, ⟨List.cons_ne_nil _ _, hblank⟩, hnext⟩
      · contradiction

theorem exists_of_word {w : List Char} (h : word w next cs = some result) :
    ∃ rest, cs = w ++ rest ∧ next rest = some result := by
  rw [word] at h
  split at h
  · next hw =>
      obtain ⟨rest, rfl⟩ := List.isPrefixOf_iff_prefix.mp hw
      rw [List.drop_left] at h
      exact ⟨rest, rfl, h⟩
  · contradiction

/-- A word between white space. -/
theorem exists_of_spaced {w : List Char}
    (h : someBlanks (word w (someBlanks next)) cs = some result) :
    ∃ before after rest, cs = before ++ (w ++ (after ++ rest)) ∧ IsGap before ∧ IsGap after ∧
      next rest = some result := by
  obtain ⟨before, rest, rfl, hbefore, hword⟩ := exists_of_someBlanks h
  obtain ⟨rest, rfl, hblanks⟩ := exists_of_word hword
  obtain ⟨after, rest, rfl, hafter, hnext⟩ := exists_of_someBlanks hblanks
  exact ⟨before, after, rest, rfl, hbefore, hafter, hnext⟩

theorem exists_of_part {next : List Char → List Char → Option α} {taken : List Char}
    (h : part next taken cs = some result) :
    ∃ found rest, cs = found ++ rest ∧ found ≠ [] ∧ next (taken ++ found) rest = some result := by
  induction cs generalizing taken with
  | nil => contradiction
  | cons c cs ih =>
      rw [part] at h
      obtain hhere | ⟨-, hmore⟩ := (Option.orElse_eq_some _ _ _).mp h
      · exact ⟨[c], cs, rfl, List.cons_ne_nil _ _, hhere⟩
      · obtain ⟨found, rest, rfl, -, hnext⟩ := ih hmore
        exact ⟨c :: found, rest, rfl, List.cons_ne_nil _ _, by simpa using hnext⟩

theorem of_finish (h : finish result cs = some found) :
    found = result ∧ cs.all isWhiteSpace = true := by
  rw [finish] at h
  split at h
  · next hcs => exact ⟨(Option.some.inj h).symm, hcs⟩
  · contradiction

end Reading

namespace RepeatExpression

open Reading

variable {e found : RepeatExpression} {cs : List Char}

/-- The end of an expression sets its key or is white space. -/
theorem of_readTrackBy (h : readTrackBy e cs = some found) :
    found.item = e.item ∧ found.collection = e.collection ∧ found.name = e.name ∧
      (found.trackBy = none → cs.all isWhiteSpace = true) := by
  obtain htrack | ⟨-, hend⟩ := (Option.orElse_eq_some _ _ _).mp h
  · obtain ⟨_, rest, -, -, h⟩ := exists_of_someBlanks htrack
    obtain ⟨rest, -, h⟩ := exists_of_word h
    obtain ⟨_, _, rest, -, -, -, h⟩ := exists_of_spaced h
    obtain ⟨key, rest, -, -, h⟩ := exists_of_part h
    obtain ⟨rfl, -⟩ := of_finish h
    exact ⟨rfl, rfl, rfl, fun hkey => nomatch hkey⟩
  · obtain ⟨rfl, hblank⟩ := of_finish hend
    exact ⟨rfl, rfl, rfl, fun _ => hblank⟩

/-- What follows the collection sets the name or the key, or is white space. -/
theorem of_readName (h : readName e cs = some found) :
    found.item = e.item ∧ found.collection = e.collection ∧
      (found.name = none → found.trackBy = none → cs.all isWhiteSpace = true) := by
  obtain hname | ⟨-, hend⟩ := (Option.orElse_eq_some _ _ _).mp h
  · obtain ⟨_, _, rest, -, -, -, h⟩ := exists_of_spaced hname
    obtain ⟨name, rest, -, -, h⟩ := exists_of_part h
    obtain ⟨hitem, hcollection, hnamed, -⟩ := of_readTrackBy h
    refine ⟨hitem, hcollection, fun hnone => ?_⟩
    rw [hnamed] at hnone
    contradiction
  · obtain ⟨hitem, hcollection, -, hblank⟩ := of_readTrackBy hend
    exact ⟨hitem, hcollection, fun _ => hblank⟩

/-- A repeat expression in its text. -/
theorem exists_of_parse? {text : String} (h : parse? text = some e) :
    ∃ lead before after rest,
      text.toList = lead ++ (e.item ++ (before ++ (['i', 'n'] ++ (after ++
        (e.collection ++ rest))))) ∧
      lead.all isWhiteSpace = true ∧ e.item ≠ [] ∧ IsGap before ∧ IsGap after ∧
      e.collection ≠ [] ∧
      (e.name = none → e.trackBy = none → rest.all isWhiteSpace = true) := by
  obtain ⟨lead, rest, htext, hlead, hparts⟩ := exists_of_blanks h
  obtain ⟨item, rest, rfl, hitems, hin⟩ := exists_of_part hparts
  obtain ⟨before, after, rest, rfl, hbefore, hafter, hpart⟩ := exists_of_spaced hin
  obtain ⟨collection, rest, rfl, hcollections, hname⟩ := exists_of_part hpart
  obtain ⟨hitem, hcollection, hrest⟩ := of_readName hname
  simp only [List.nil_append] at hitem hcollection
  rw [hitem, hcollection]
  exact ⟨lead, before, after, rest, htext, hlead, hitems, hbefore, hafter, hcollections, hrest⟩

/-- The item and the collection are written with characters of the text. -/
theorem mem_of_parse? {text : String} (h : parse? text = some e) {c : Char}
    (hc : c ∈ e.item ∨ c ∈ e.collection) : c ∈ text.toList := by
  obtain ⟨lead, before, after, rest, htext, -⟩ := exists_of_parse? h
  rw [htext]
  obtain hc | hc := hc <;> simp [hc]

end RepeatExpression

namespace RepeatItem

theorem mem_of_readName? {cs name rest : List Char} (h : readName? cs = some (name, rest)) :
    (∀ c ∈ name, c ∈ cs) ∧ ∀ c ∈ rest, c ∈ cs := by
  simp only [readName?] at h
  split at h
  · contradiction
  · obtain ⟨rfl, rfl⟩ := Prod.mk.inj (Option.some.inj h)
    constructor
    · exact fun c hc => (List.takeWhile_sublist _).subset hc
    · exact fun c hc => (List.dropWhile_sublist _).subset ((List.dropWhile_sublist _).subset hc)

theorem exists_of_readPair? {cs : List Char} {item : RepeatItem} (h : readPair? cs = some item) :
    ∃ key rest value rest', item = keyValue key value ∧
      readName? (trimStart cs) = some (key, rest) ∧
      readName? (trimStart rest.tail) = some (value, rest') := by
  obtain ⟨⟨key, rest⟩, hkey, h⟩ := Option.bind_eq_some_iff.mp h
  dsimp only at h
  split at h
  · obtain ⟨⟨value, rest'⟩, hvalue, h⟩ := Option.bind_eq_some_iff.mp h
    dsimp only at h
    split at h
    · exact ⟨key, rest, value, rest', (Option.some.inj h).symm, hkey, hvalue⟩
    · contradiction
  · contradiction

/-- An item is a name after white space, or a pair. -/
theorem of_parse? {cs : List Char} {item : RepeatItem} (h : parse? cs = some item) :
    (item = single (trimStart cs) ∧ trimStart cs ≠ [] ∧ (trimStart cs).all isNameChar = true) ∨
      readPair? cs.tail = some item := by
  simp only [parse?] at h
  split at h
  · next hname =>
      obtain ⟨hne, hname⟩ := Bool.and_eq_true_iff.mp hname
      exact .inl ⟨(Option.some.inj h).symm, by simpa using hne, hname⟩
  · split at h
    · exact .inr h
    · contradiction

/-- The name of a member of the collection is written with characters of the item. -/
theorem mem_of_parse? {cs : List Char} {item : RepeatItem} (h : parse? cs = some item) {c : Char}
    (hc : c ∈ item.valueName) : c ∈ cs := by
  obtain ⟨rfl, -⟩ | hpair := of_parse? h
  · exact (List.dropWhile_sublist _).subset hc
  · obtain ⟨key, rest, value, rest', rfl, hkey, hvalue⟩ := exists_of_readPair? hpair
    have hrest := (mem_of_readName? hvalue).1 c hc
    have hkeyRest := (mem_of_readName? hkey).2 c
      (List.mem_of_mem_tail ((List.dropWhile_sublist _).subset hrest))
    exact List.mem_of_mem_tail ((List.dropWhile_sublist _).subset hkeyRest)

end RepeatItem

end TemplateMigration
