import TemplateMigration.Proofs.Markup.Fidelity

/-!
# TemplateMigration.Proofs.Markup.Nesting

What stands inside an element.

In the preorder of a forest the children of an element follow its tag one level deeper, and what
comes behind them is no deeper than the tag (`Node.In.exists_levels_eq`).  On the side of the events
nothing that follows is deeper than the elements that are open, and it is as deep only as long as
end tags close nothing (`MarkupEvent.exists_mem_head?_levels_iff`).  Together they say which
elements of the forest of a sequence of events have children: `Node.In.children_ne_nil_iff`.
-/

namespace TemplateMigration

/-! ## Depths in a forest -/

namespace Node

theorem exists_levelsOf_eq_cons (depth : Nat) (n : Node) :
    ∃ rest, n.levelsOf depth = (depth, n.item) :: rest := by
  cases n with
  | text run => exact ⟨[], levelsOf_text depth run⟩
  | element tag children => exact ⟨_, levelsOf_element depth tag children⟩

/-- A forest starts at its own depth. -/
theorem fst_of_mem_head?_levels {depth : Nat} {ns : List Node} {p : Nat × Item}
    (h : p ∈ (levels depth ns).head?) : p.1 = depth := by
  cases ns with
  | nil => simp at h
  | cons n ns =>
      obtain ⟨rest, hrest⟩ := exists_levelsOf_eq_cons depth n
      rw [levels_cons, hrest, List.cons_append, List.head?_cons, Option.mem_some] at h
      rw [← h]

/-- A node of a forest with everything in it is a part of the preorder, and what follows is no
deeper than the node. -/
theorem In.exists_levels_eq {n : Node} {forest : List Node} (h : n.In forest) (base : Nat) :
    ∃ depth before after, levels base forest = before ++ (n.levelsOf depth ++ after) ∧
      base ≤ depth ∧ ∀ p ∈ after.head?, p.1 ≤ depth := by
  induction h generalizing base with
  | root hn =>
      obtain ⟨before, after, rfl⟩ := List.append_of_mem hn
      refine ⟨base, levels base before, levels base after, ?_, Nat.le_refl _, ?_⟩
      · rw [levels_append, levels_cons]
      · intro p hp
        exact Nat.le_of_eq (fst_of_mem_head?_levels hp)
  | @inside forest children tag hparent hn ih =>
      obtain ⟨before, after, rfl⟩ := List.append_of_mem hparent
      obtain ⟨depth, inner, outer, hlevels, hbase, houter⟩ := ih (base + 1)
      refine ⟨depth, levels base before ++ (base, .tag tag) :: inner, outer ++ levels base after,
        ?_, by omega, ?_⟩
      · rw [levels_append, levels_cons, levelsOf_element, hlevels]
        simp
      · intro p hp
        cases outer with
        | nil =>
            -- the node is the last in the element: what follows stands beside the element
            have hp := fst_of_mem_head?_levels hp
            omega
        | cons q outer => exact houter p hp

end Node

/-! ## Depths of events -/

namespace MarkupEvent

/-- The names of the open elements after events, innermost first. -/
def openNames (es : List MarkupEvent) : List String := es.foldl opens []

/-- An end tag that closes nothing. -/
def IsStray (names : List String) : MarkupEvent → Prop
  | stop name => name ∉ names
  | text _ | start _ _ => False

variable {names : List String} {e : MarkupEvent} {es : List MarkupEvent} {i : Item}

theorem IsStray.opens_eq (h : e.IsStray names) : e.opens names = names := by
  cases e with
  | stop name =>
      have hnone : names.findIdx? (· == name) = none := by
        rw [List.findIdx?_eq_none_iff]
        intro x hx
        rw [beq_eq_false_iff_ne]
        rintro rfl
        exact h hx
      rw [opens, hnone]
  | text run => exact h.elim
  | start tag isLeaf => exact h.elim

/-- An end tag that closes something leaves fewer elements open. -/
theorem length_opens_lt (hitems : e.items = []) (h : ¬ e.IsStray names) :
    (e.opens names).length < names.length := by
  cases e with
  | stop name =>
      have hmem : name ∈ names := Decidable.of_not_not h
      rw [opens]
      cases hfind : names.findIdx? (· == name) with
      | none => simpa using List.findIdx?_eq_none_iff.mp hfind name hmem
      | some depth =>
          have hpos : 0 < names.length := List.length_pos_of_mem hmem
          simp only [List.length_drop]
          omega
  | text run => contradiction
  | start tag isLeaf => contradiction

/-- What follows is no deeper than the elements that are open. -/
theorem fst_le_of_mem_head?_levels {p : Nat × Item} (h : p ∈ (levels names es).head?) :
    p.1 ≤ names.length := by
  induction es generalizing names with
  | nil => simp [levels] at h
  | cons e es ih =>
      rw [levels] at h
      by_cases hitems : e.items = []
      · rw [hitems, List.map_nil, List.nil_append] at h
        have hle := ih h
        by_cases hstray : e.IsStray names
        · rwa [hstray.opens_eq] at hle
        · exact Nat.le_of_lt (Nat.lt_of_le_of_lt hle (length_opens_lt hitems hstray))
      · obtain ⟨i, is, hi⟩ := List.exists_cons_of_ne_nil hitems
        rw [hi, List.map_cons, List.cons_append, List.head?_cons, Option.mem_some] at h
        exact Nat.le_of_eq (by rw [← h])

/-- What follows stands inside the innermost open element exactly if nothing but stray end tags
comes before it. -/
theorem exists_mem_head?_levels_iff :
    (∃ p ∈ (levels names es).head?, names.length ≤ p.1) ↔
      ∃ strays next more, es = strays ++ next :: more ∧ (∀ s ∈ strays, s.IsStray names) ∧
        next.items ≠ [] := by
  induction es with
  | nil => simp [levels]
  | cons e es ih =>
      rw [levels]
      by_cases hitems : e.items = []
      · rw [hitems, List.map_nil, List.nil_append]
        by_cases hstray : e.IsStray names
        · rw [hstray.opens_eq, ih]
          constructor
          · rintro ⟨strays, next, more, rfl, hstrays, hnext⟩
            exact ⟨e :: strays, next, more, rfl, by simpa [hstray] using hstrays, hnext⟩
          · rintro ⟨strays, next, more, heq, hstrays, hnext⟩
            cases strays with
            | nil => exact absurd hitems (by rw [(List.cons.inj heq).1]; exact hnext)
            | cons s strays =>
                refine ⟨strays, next, more, (List.cons.inj heq).2, ?_, hnext⟩
                exact fun t ht => hstrays t (List.mem_cons_of_mem s ht)
        · constructor
          · rintro ⟨p, hp, hle⟩
            have hshallow := fst_le_of_mem_head?_levels hp
            have hlt := length_opens_lt hitems hstray
            omega
          · rintro ⟨strays, next, more, heq, hstrays, hnext⟩
            cases strays with
            | nil => exact absurd hitems (by rw [(List.cons.inj heq).1]; exact hnext)
            | cons s strays =>
                rw [(List.cons.inj heq).1] at hstray
                exact absurd (hstrays s (by simp)) hstray
      · obtain ⟨i, is, hi⟩ := List.exists_cons_of_ne_nil hitems
        rw [hi]
        exact ⟨fun _ => ⟨[], e, es, rfl, by simp, hitems⟩, fun _ => ⟨(names.length, i), by simp⟩⟩

/-- A tag in the preorder of events is that of a start tag, and what follows it in the preorder is
what follows in the events. -/
theorem exists_of_levels_eq {before after : List (Nat × Item)} {depth : Nat} {tag : StartTag}
    (h : levels names es = before ++ (depth, .tag tag) :: after) :
    ∃ fs isLeaf gs, es = fs ++ start tag isLeaf :: gs ∧ before = levels names fs ∧
      depth = (fs.foldl opens names).length ∧
      after = levels ((start tag isLeaf).opens (fs.foldl opens names)) gs := by
  induction es generalizing names before with
  | nil => simp [levels] at h
  | cons e es ih =>
      cases e with
      | stop name =>
          obtain ⟨fs, isLeaf, gs, rfl, rfl, hdepth, hafter⟩ := ih h
          exact ⟨stop name :: fs, isLeaf, gs, rfl, rfl, hdepth, hafter⟩
      | text run =>
          cases before with
          | nil => simp [levels, items] at h
          | cons p before =>
              obtain ⟨rfl, hrest⟩ := List.cons.inj h
              obtain ⟨fs, isLeaf, gs, rfl, rfl, hdepth, hafter⟩ := ih hrest
              exact ⟨text run :: fs, isLeaf, gs, rfl, rfl, hdepth, hafter⟩
      | start t leaf =>
          cases before with
          | nil =>
              obtain ⟨hfirst, hafter⟩ := List.cons.inj h
              obtain ⟨rfl, htag⟩ := Prod.mk.inj hfirst
              obtain rfl := Item.tag.inj htag
              exact ⟨[], leaf, es, rfl, rfl, rfl, hafter.symm⟩
          | cons p before =>
              obtain ⟨rfl, hrest⟩ := List.cons.inj h
              obtain ⟨fs, isLeaf, gs, rfl, rfl, hdepth, hafter⟩ := ih hrest
              exact ⟨start t leaf :: fs, isLeaf, gs, rfl, rfl, hdepth, hafter⟩

/-- A tag that stands once among events divides them in one way. -/
theorem eq_of_append_start {tag : StartTag} {isLeaf isLeaf' : Bool}
    {fs gs fs' gs' : List MarkupEvent}
    (hdistinct : ((fs ++ start tag isLeaf :: gs).flatMap items).Nodup)
    (h : fs ++ start tag isLeaf :: gs = fs' ++ start tag isLeaf' :: gs') :
    fs = fs' ∧ isLeaf = isLeaf' ∧ gs = gs' := by
  induction fs generalizing fs' with
  | nil =>
      cases fs' with
      | nil => simpa using h
      | cons e fs' =>
          obtain ⟨rfl, rfl⟩ := List.cons.inj h
          simp [items] at hdistinct
  | cons e fs ih =>
      cases fs' with
      | nil =>
          obtain ⟨rfl, rfl⟩ := List.cons.inj h
          simp [items] at hdistinct
      | cons e' fs' =>
          obtain ⟨rfl, hrest⟩ := List.cons.inj h
          rw [List.cons_append, List.flatMap_cons, List.nodup_append] at hdistinct
          obtain ⟨rfl, heq⟩ := ih hdistinct.2.1 hrest
          exact ⟨rfl, heq⟩

end MarkupEvent

/-! ## Children -/

namespace Node

variable {es : List MarkupEvent} {tag : StartTag} {children : List Node}

/-- An element comes from a start tag; it has children exactly if something stands inside it in the
events that follow. -/
theorem In.exists_events (h : (element tag children).In (ofEvents es)) :
    ∃ before isLeaf after, es = before ++ .start tag isLeaf :: after ∧
      (children ≠ [] ↔ ∃ p ∈ (MarkupEvent.levels
        ((MarkupEvent.start tag isLeaf).opens (MarkupEvent.openNames before)) after).head?,
          (MarkupEvent.openNames before).length < p.1) := by
  obtain ⟨depth, front, behind, hlevels, -, hbehind⟩ := h.exists_levels_eq 0
  rw [levels_ofEvents, levelsOf_element, List.cons_append] at hlevels
  obtain ⟨before, isLeaf, after, rfl, -, hdepth, hafter⟩ := MarkupEvent.exists_of_levels_eq hlevels
  refine ⟨before, isLeaf, after, rfl, ?_⟩
  rw [MarkupEvent.openNames, ← hdepth, ← hafter]
  cases children with
  | nil =>
      rw [levels_nil, List.nil_append]
      simp only [ne_eq, not_true_eq_false, false_iff, not_exists, not_and, Nat.not_lt]
      exact hbehind
  | cons n ns =>
      obtain ⟨rest, hrest⟩ := exists_levelsOf_eq_cons (depth + 1) n
      rw [levels_cons, hrest]
      simp

/-- A leaf has no children. -/
theorem In.children_eq_nil (h : (element tag children).In (ofEvents es))
    (hleaf : ∀ isLeaf, .start tag isLeaf ∈ es → isLeaf = true) : children = [] := by
  obtain ⟨before, isLeaf, after, rfl, hchildren⟩ := h.exists_events
  obtain rfl := hleaf isLeaf (by simp)
  cases children with
  | nil => rfl
  | cons n ns =>
      obtain ⟨p, hp, hlt⟩ := hchildren.mp (List.cons_ne_nil n ns)
      exact absurd hlt (Nat.not_lt_of_le (MarkupEvent.fst_le_of_mem_head?_levels hp))

/-- An element has children exactly if text or a start tag follows its own start tag with nothing
but stray end tags in between. -/
theorem In.children_ne_nil_iff (hdistinct : (es.flatMap MarkupEvent.items).Nodup)
    (h : (element tag children).In (ofEvents es)) :
    children ≠ [] ↔ ∃ before strays next after,
      es = before ++ .start tag false :: (strays ++ next :: after) ∧
        (∀ s ∈ strays, s.IsStray (tag.name :: MarkupEvent.openNames before)) ∧
        next.items ≠ [] := by
  obtain ⟨before, isLeaf, after, rfl, hchildren⟩ := h.exists_events
  rw [hchildren]
  constructor
  · rintro ⟨p, hp, hlt⟩
    cases isLeaf with
    | true => exact absurd hlt (Nat.not_lt_of_le (MarkupEvent.fst_le_of_mem_head?_levels hp))
    | false =>
        obtain ⟨strays, next, more, rfl, hstrays, hnext⟩ :=
          MarkupEvent.exists_mem_head?_levels_iff.mp ⟨p, hp, hlt⟩
        exact ⟨before, strays, next, more, rfl, hstrays, hnext⟩
  · rintro ⟨front, strays, next, more, heq, hstrays, hnext⟩
    obtain ⟨rfl, rfl, rfl⟩ := MarkupEvent.eq_of_append_start hdistinct heq
    exact MarkupEvent.exists_mem_head?_levels_iff.mpr ⟨strays, next, more, rfl, hstrays, hnext⟩

end Node

end TemplateMigration
