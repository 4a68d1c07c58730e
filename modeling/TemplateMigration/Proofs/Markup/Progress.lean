import TemplateMigration.Proofs.Markup.ByteScan

/-!
# TemplateMigration.Proofs.Markup.Progress

The scan of a template by byte offsets makes progress.

`Turn.Reaches` gives the states at which a loop takes a turn.  At each of them the cursor is that
of a reader by characters (`exists_position_of_reaches`, `exists_cursor_of_reaches`), so what is
left of the text is a measure that every turn makes smaller (`Advances.of_standsIn`), also the turn
that looks for the sign of an attribute and goes back to the end of the name.
-/

namespace TemplateMigration

namespace ByteScan

variable {text : List Char}

/-- An offset behind another one, not past the end and on a boundary. -/
structure Advances (text : List Char) (start stop : Nat) : Prop where
  lt : start < stop
  le : stop ≤ byteCount text
  boundary : IsBoundary text stop

/-- A cursor with less before it has gone ahead. -/
theorem Advances.of_standsIn {c d : Cursor} (hc : c.StandsIn text) (hd : d.StandsIn text)
    (hlt : d.rest.length < c.rest.length) : Advances text c.offset d.offset := by
  refine ⟨?_, hd.offset_le, hd.isBoundary⟩
  obtain ⟨before, htext, hoffset⟩ := hc
  obtain ⟨before', htext', hoffset'⟩ := hd
  -- what follows the second cursor ends what follows the first
  obtain ⟨passed, hpassed⟩ : d.rest <:+ c.rest :=
    List.suffix_of_suffix_length_le ⟨before', htext'.symm⟩ ⟨before, htext.symm⟩ (Nat.le_of_lt hlt)
  have hne : byteCount passed ≠ 0 := by
    intro hzero
    rw [byteCount_eq_zero_iff] at hzero
    rw [← hpassed, hzero] at hlt
    exact Nat.lt_irrefl _ hlt
  have htotal := congrArg byteCount (htext.symm.trans htext')
  rw [← hpassed] at htotal
  simp only [byteCount_append] at htotal
  omega

/-- Where the loop over the attributes starts for a start tag that the scan of a text meets. -/
def MeetsTag (text : List Char) (start : TagState) : Prop :=
  ∃ s lt name, Turn.Reaches (scanTurn text) .start s ∧ nextBracket? text s.cursor = some (some lt) ∧
    (byteAt? text (lt + 1)).any Char.isAlpha ∧ tagStart? text lt = some (name, start)

/-- The scan of a template makes progress.  Each turn of its two loops moves the cursor ahead, but
for a turn that finds nothing any more and ends its loop; so the loops end, within one turn for each
byte and one more, and the scan gives the forest of the template. -/
structure Progresses (source : String) : Prop where
  scan_turn : ∀ s, Turn.Reaches (scanTurn source.toList) .start s →
    nextBracket? source.toList s.cursor = some none ∧ scanTurn source.toList s = some (.done s) ∨
      ∃ s', scanTurn source.toList s = some (.again s') ∧
        Advances source.toList s.cursor s'.cursor
  attribute_turn : ∀ start t, MeetsTag source.toList start →
    Turn.Reaches (attributeTurn source.toList) start t →
      t.cursor = byteLength source ∧ attributeTurn source.toList t = some (.done t) ∨
        ∃ turn, attributeTurn source.toList t = some turn ∧
          Advances source.toList t.cursor turn.state.cursor
  scan_ends : ∃ s, Turn.run (scanTurn source.toList) (byteLength source + 1) .start = some s
  attributes_end : ∀ start, MeetsTag source.toList start →
    ∃ t, Turn.run (attributeTurn source.toList) (byteLength source + 1) start = some t
  parses : parse? source = some (Node.parse source)

/-- The scan takes its turns where a scan by characters stands. -/
theorem exists_position_of_reaches {s : ScanState} (h : Turn.Reaches (scanTurn text) .start s) :
    ∃ p : Position, p.In text ∧ p.state = s := by
  induction h with
  | start => exact ⟨.first text, Position.in_first text, rfl⟩
  | again _ hturn ih =>
      obtain ⟨p, hp, rfl⟩ := ih
      obtain ⟨-, hdone, -⟩ | ⟨q, hagain, hq, -⟩ := Position.scanTurn_cases hp
      · rw [hdone] at hturn
        simp at hturn
      · rw [hagain] at hturn
        obtain rfl : q.state = _ := by simpa using hturn
        exact ⟨q, hq, rfl⟩

/-- The loop over the attributes takes its turns where a cursor stands, and before a `/>`. -/
theorem exists_cursor_of_reaches {c : Cursor} (hc : c.StandsIn text) {found : List Attribute}
    {t : TagState} (h : Turn.Reaches (attributeTurn text) ⟨c.offset, found, false⟩ t) :
    ∃ d : Cursor, d.StandsIn text ∧ t = ⟨d.offset, t.attributes, false⟩ := by
  induction h with
  | start => exact ⟨c, hc, rfl⟩
  | @again s s' _ hturn ih =>
      obtain ⟨d, hd, hs⟩ := ih
      obtain ⟨turn, e, hagain, hreads⟩ := exists_readsOn hd s.attributes
      rw [hs, hagain] at hturn
      obtain rfl : turn = .again s' := by simpa using hturn
      have hcursor : s'.cursor = e.offset := hreads.cursor
      have hclosing := (hreads.again s' rfl).1
      refine ⟨e, hreads.stands, ?_⟩
      rw [← hcursor, ← hclosing]

theorem MeetsTag.exists_cursor {start : TagState} (h : MeetsTag text start) :
    ∃ c : Cursor, c.StandsIn text ∧ start = ⟨c.offset, [], false⟩ := by
  obtain ⟨s, lt, name, hreach, hnext, -, htag⟩ := h
  obtain ⟨p, hp, rfl⟩ := exists_position_of_reaches hreach
  change nextBracket? text p.cursor.offset = _ at hnext
  obtain ⟨-, hnone⟩ | ⟨content, xs, hrest, -, hsome⟩ := nextBracket?_cases hp.standsIn
  · simp [hnone] at hnext
  · obtain rfl : (p.cursor.skip content.length).offset = lt := by simpa [hsome] using hnext
    have hlt : (p.cursor.skip content.length).StandsIn text := hp.standsIn.skip _
    have hbracket : (p.cursor.skip content.length).rest = '<' :: xs := by simp [Cursor.skip, hrest]
    rw [tagStart?_eq hlt hbracket] at htag
    simp only [Option.some.injEq, Prod.mk.injEq] at htag
    exact ⟨_, hlt.skip _, htag.2.symm⟩

theorem scan_turn_progresses {s : ScanState} (h : Turn.Reaches (scanTurn text) .start s) :
    nextBracket? text s.cursor = some none ∧ scanTurn text s = some (.done s) ∨
      ∃ s', scanTurn text s = some (.again s') ∧ Advances text s.cursor s'.cursor := by
  obtain ⟨p, hp, rfl⟩ := exists_position_of_reaches h
  obtain ⟨hnext, hdone, -⟩ | ⟨q, hagain, hq, hlt, -⟩ := Position.scanTurn_cases hp
  · exact .inl ⟨hnext, hdone⟩
  · exact .inr ⟨q.state, hagain, .of_standsIn hp.standsIn hq.standsIn hlt⟩

theorem attribute_turn_progresses {start t : TagState} (h : MeetsTag text start)
    (ht : Turn.Reaches (attributeTurn text) start t) :
    t.cursor = byteCount text ∧ attributeTurn text t = some (.done t) ∨
      ∃ turn, attributeTurn text t = some turn ∧ Advances text t.cursor turn.state.cursor := by
  obtain ⟨c, hc, rfl⟩ := h.exists_cursor
  obtain ⟨d, hd, hstate⟩ := exists_cursor_of_reaches hc ht
  rw [hstate]
  obtain ⟨turn, e, hturn, hreads⟩ := exists_readsOn hd t.attributes
  obtain hlt | ⟨hnil, rfl⟩ := hreads.moves
  · refine .inr ⟨turn, hturn, ?_⟩
    rw [hreads.cursor]
    exact .of_standsIn hd hreads.stands hlt
  · refine .inl ⟨?_, hturn⟩
    rw [← hd.offset_skipAll, Cursor.skipAll, hnil]
    rfl

/-- **The scan of a template makes progress** in every turn, on every template. -/
theorem progresses (source : String) : Progresses source where
  scan_turn _ := scan_turn_progresses
  attribute_turn _ _ := attribute_turn_progresses
  scan_ends := by
    have hfirst := Position.in_first source.toList
    obtain ⟨s, hrun, -⟩ := Position.run_scanTurn hfirst hfirst.standsIn.length_rest_lt
    exact ⟨s, hrun⟩
  attributes_end start h := by
    obtain ⟨c, hc, rfl⟩ := h.exists_cursor
    exact ⟨_, run_attributeTurn hc hc.length_rest_lt []⟩
  parses := parse?_eq source

/-- The turn that reads `b` runs over the blanks behind it, finds no sign and goes back to the end
of the name; it is ahead of where it started all the same. -/
theorem progresses_without_sign :
    MeetsTag "<a b  c>".toList ⟨2, [], false⟩ ∧
      attributeTurn "<a b  c>".toList ⟨2, [], false⟩ =
        some (.again ⟨4, [⟨"b", "", 3, 4, false⟩], false⟩) ∧
      skipBlanks? "<a b  c>".toList 4 = some 6 ∧
      Advances "<a b  c>".toList 2 4 := by
  have hmeets : MeetsTag "<a b  c>".toList ⟨2, [], false⟩ :=
    ⟨.start, 0, "a", .start, by decide +kernel, by decide +kernel, by decide +kernel⟩
  have hturn : attributeTurn "<a b  c>".toList ⟨2, [], false⟩ =
      some (.again ⟨4, [⟨"b", "", 3, 4, false⟩], false⟩) := by decide +kernel
  refine ⟨hmeets, hturn, by decide +kernel, ?_⟩
  obtain ⟨hend, -⟩ | ⟨turn, hsome, hadvances⟩ :=
    (progresses "<a b  c>").attribute_turn _ _ hmeets .start
  · exact absurd hend (by decide +kernel)
  · rw [hturn] at hsome
    obtain rfl := Option.some.inj hsome
    exact hadvances

end ByteScan

end TemplateMigration
