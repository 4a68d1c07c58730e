import TemplateMigration.Proofs.Markup.RoundTrip
import TemplateMigration.Proofs.Markup.VoidEndTag
import TemplateMigration.Proofs.Migration.Parts
import TemplateMigration.Proofs.Migration.Subjects

/-!
# TemplateMigration.Proofs.Migration.Continuation

What follows a finished template does not disturb its migration.

A printed forest that ends with an element is finished: whatever text comes after it, the scan first
gives the events of the forest (`scanFrom_print_append`) and the builder closes every element of it
(`ofEvents_append`), so the walk records the same edits and messages before it turns to the rest.
The last character of the print is a `>` that no edit touches (`parse_print_dropLast`), and no end
tag of a void element reaches over it into the rest.
-/

namespace TemplateMigration

/-! ## Forests in two parts -/

namespace Node

theorem print_append (ns ms : List Node) : print (ns ++ ms) = print ns ++ print ms := by
  induction ns with
  | nil => simp [print]
  | cons n ns ih => simp [print, ih]

theorem located_append (offset : Nat) (ns ms : List Node) :
    located offset (ns ++ ms) =
      located offset ns ++ located (offset + byteCount (print ns)) ms := by
  induction ns generalizing offset with
  | nil => simp [located, print]
  | cons n ns ih => simp [located, print, ih, Nat.add_assoc]

theorem events_append (ns ms : List Node) : events (ns ++ ms) = events ns ++ events ms := by
  induction ns with
  | nil => simp [events]
  | cons n ns ih => simp [events, ih]

theorem Printable.of_append {ns ms : List Node} (h : Printable (ns ++ ms)) :
    Printable ns ∧ Printable ms := by
  induction ns with
  | nil => exact ⟨by rw [Printable]; trivial, h⟩
  | cons n ns ih =>
      rw [List.cons_append, Printable] at h
      obtain ⟨hn, hhead, hrest⟩ := h
      obtain ⟨hns, hms⟩ := ih hrest
      refine ⟨?_, hms⟩
      rw [Printable]
      refine ⟨hn, fun htext m hm => hhead htext m ?_, hns⟩
      cases ns with
      | nil => contradiction
      | cons k ns => simpa using hm

/-- A printable forest that ends with an element. -/
structure Finished (forest : List Node) : Prop where
  printable : Printable forest
  last : ∃ ns tag children, forest = ns ++ [.element tag children]

end Node

/-! ## Scanning past a finished forest -/

namespace MarkupEvent

variable {t : StartTag}

/-- The attributes of a print are read, whatever follows them. -/
theorem readAttributes_flatMap_print (as found : List Attribute) (offset : Nat) (rest : List Char)
    (h : ∀ a ∈ as, a.Printable) (hnew : ((found ++ as).map Attribute.name).Nodup) :
    readAttributes found ⟨offset, as.flatMap Attribute.print ++ rest⟩ =
      readAttributes (found ++ Attribute.locatedFrom offset as)
        ⟨offset + byteCount (as.flatMap Attribute.print), rest⟩ := by
  induction as generalizing found offset with
  | nil => simp [Attribute.locatedFrom]
  | cons a as ih =>
      have hnotin : a.name ∉ found.map Attribute.name := by
        intro hmem
        rw [List.map_append, List.map_cons] at hnew
        exact (List.nodup_append.mp hnew).2.2 _ hmem _ (by simp) rfl
      have hnew' : ((found ++ [a.located offset] ++ as).map Attribute.name).Nodup := by
        simpa [Attribute.located] using hnew
      rw [List.flatMap_cons, List.append_assoc,
        readAttributes_print_append found offset _ (h a (by simp)) hnotin,
        ih _ _ (fun b hb => h b (by simp [hb])) hnew']
      simp [Attribute.locatedFrom, Nat.add_assoc]

/-- The last start tag of a text is read even if its `>` is missing. -/
theorem scanFrom_print_dropLast (h : t.Printable) (offset : Nat) :
    scanFrom offset [] ⟨offset, t.print.dropLast⟩ =
      [.start (t.located offset) (isVoidElement t.name)] := by
  obtain ⟨c, cs, hname, hc⟩ := exists_name_eq_cons h
  have hdrop : t.print.dropLast =
      '<' :: (t.name.toList ++ t.attributes.flatMap Attribute.print) := by
    rw [StartTag.print, ← List.append_assoc, ← List.cons_append, List.dropLast_concat]
  have hstop : (t.attributes.flatMap Attribute.print).takeWhile isTagNamePart = [] := by
    cases t.attributes with
    | nil => rfl
    | cons a as => simp [Attribute.print, isTagNamePart, isTagBlank]
  have hskip : (Cursor.mk offset ('<' :: (t.name.toList ++
      t.attributes.flatMap Attribute.print))).skip (t.name.toList.length + 1) =
      ⟨offset + 1 + byteLength t.name, t.attributes.flatMap Attribute.print⟩ := by
    have hlt : ('<').utf8Size = 1 := rfl
    have := Cursor.skip_append offset ('<' :: t.name.toList) (t.attributes.flatMap Attribute.print)
    simpa [byteLength, hlt, Nat.add_assoc] using this
  have htail := readAttributes_flatMap_print t.attributes [] (offset + 1 + byteLength t.name) []
    h.attributes (by simpa using h.distinct)
  rw [List.append_nil, List.nil_append] at htail
  have hread : ∃ stop, readStartTag ⟨offset, '<' :: (t.name.toList ++
      t.attributes.flatMap Attribute.print)⟩ =
      (.start (t.located offset) (isVoidElement t.name), ⟨stop, []⟩) := by
    refine ⟨offset + 1 + byteLength t.name + byteCount (t.attributes.flatMap Attribute.print), ?_⟩
    have hend : ∀ found n, readAttributes found ⟨n, []⟩ = ⟨found, false, ⟨n, []⟩⟩ := by
      intro found n
      rw [readAttributes]
      rfl
    simp [readStartTag, takeWhile_tagName h hstop, lowerCase_tagName h, hskip, htail, hend,
      h.notRawText, StartTag.located]
  obtain ⟨stop, hread⟩ := hread
  have hmarkup : readMarkup? ⟨offset, '<' :: (t.name.toList ++
      t.attributes.flatMap Attribute.print)⟩ =
      some (some (.start (t.located offset) (isVoidElement t.name)), ⟨stop, []⟩) := by
    have hstart := readMarkup?_startTag offset (cs ++ t.attributes.flatMap Attribute.print) hc
    rw [← List.cons_append, ← hname, hread] at hstart
    exact hstart
  rw [hdrop, scanFrom_of_readMarkup? hmarkup, scanFrom]
  simp [ofText]

/-- The last end tag of a text is read even if its `>` is missing. -/
theorem scanFrom_printEnd_dropLast (h : t.Printable) (offset : Nat) :
    scanFrom offset [] ⟨offset, t.printEnd.dropLast⟩ = [.stop t.name] := by
  obtain ⟨c, cs, hname, hc⟩ := exists_name_eq_cons h
  have hdrop : t.printEnd.dropLast = '<' :: '/' :: t.name.toList := by
    rw [StartTag.printEnd, ← List.cons_append, ← List.cons_append, List.dropLast_concat]
  have hletters : t.name.toList.takeWhile isTagNamePart = t.name.toList := by
    have htake := takeWhile_tagName h (List.takeWhile_nil : [].takeWhile isTagNamePart = [])
    rwa [List.append_nil] at htake
  have hread : ∃ stop, readEndTag ⟨offset, '<' :: '/' :: t.name.toList⟩ =
      (.stop t.name, ⟨stop, []⟩) := by
    simp [readEndTag, hletters, lowerCase_tagName h, Cursor.skip, Cursor.skipPast, indexOf?,
      Cursor.skipAll]
  obtain ⟨stop, hread⟩ := hread
  have hmarkup : readMarkup? ⟨offset, '<' :: '/' :: t.name.toList⟩ =
      some (some (.stop t.name), ⟨stop, []⟩) := by
    have hend := readMarkup?_endTag offset cs hc
    rw [← hname, hread] at hend
    exact hend
  rw [hdrop, scanFrom_of_readMarkup? hmarkup, scanFrom]
  simp [ofText]

/-- The last element of a text is read even if its last `>` is missing. -/
theorem scanFrom_printNode_dropLast {tag : StartTag} {children : List Node}
    (h : (Node.element tag children).PrintableNode) (offset : Nat) :
    BreaksText (Node.element tag children).printNode.dropLast ∧
      scanFrom offset [] ⟨offset, (Node.element tag children).printNode.dropLast⟩ =
        ((Node.element tag children).locatedNode offset).nodeEvents := by
  rw [Node.PrintableNode] at h
  obtain ⟨htag, hvoid, hchildren⟩ := h
  obtain ⟨c, cs, hcs, hc⟩ := exists_name_eq_cons htag
  rw [Node.printNode]
  cases hname : isVoidElement tag.name with
  | true =>
      constructor
      · rw [if_pos rfl, List.append_nil, StartTag.print, ← List.append_assoc, ← List.cons_append,
          List.dropLast_concat, hcs]
        exact .startTag _ hc
      · simp [scanFrom_print_dropLast htag, Node.locatedNode, Node.nodeEvents, StartTag.located,
          hname]
  | false =>
      have hne : tag.printEnd ≠ [] := by simp [StartTag.printEnd]
      have hends : BreaksText tag.printEnd.dropLast := by
        rw [StartTag.printEnd, ← List.cons_append, ← List.cons_append, List.dropLast_concat, hcs]
        exact .endTag cs hc
      simp only [Bool.false_eq_true, if_false]
      rw [List.dropLast_append_of_ne_nil (by simp [hne]), List.dropLast_append_of_ne_nil hne]
      refine ⟨breaksText_print htag _, ?_⟩
      rw [scanFrom_print htag, scanFrom_forest children hchildren _ _ hends,
        scanFrom_printEnd_dropLast htag]
      simp [Node.locatedNode, Node.nodeEvents, StartTag.located, hname]

variable {forest : List Node}

/-- A finished forest is read, whatever follows it. -/
theorem scanFrom_print_append (h : Node.Finished forest) (rest : List Char) :
    scanFrom 0 [] ⟨0, Node.print forest ++ rest⟩ =
      Node.events (Node.located 0 forest) ++
        scanFrom (byteCount (Node.print forest)) [] ⟨byteCount (Node.print forest), rest⟩ := by
  obtain ⟨ns, tag, children, rfl⟩ := h.last
  obtain ⟨hns, hlast⟩ := h.printable.of_append
  rw [Node.Printable] at hlast
  have htag := hlast.1
  rw [Node.PrintableNode] at htag
  have hbreaks : BreaksText (Node.print [.element tag children] ++ rest) := by
    rw [Node.print, Node.printNode, List.append_assoc, List.append_assoc]
    exact breaksText_print htag.1 _
  rw [Node.print_append, List.append_assoc, scanFrom_forest ns hns 0 _ hbreaks, Node.print,
    Node.print, List.append_nil, scanFrom_node _ hlast.1 _ rest (by simp [Node.isText]),
    Node.located_append, Node.events_append]
  simp [Node.located, Node.events]

/-- The print of a finished forest has the same events without its last character. -/
theorem scan_print_dropLast (h : Node.Finished forest) :
    scan (String.ofList (Node.print forest).dropLast) = Node.events (Node.located 0 forest) := by
  obtain ⟨ns, tag, children, rfl⟩ := h.last
  obtain ⟨hns, hlast⟩ := h.printable.of_append
  rw [Node.Printable] at hlast
  obtain ⟨hbreaks, hread⟩ :=
    scanFrom_printNode_dropLast hlast.1 (0 + byteCount (Node.print ns))
  have hne : (Node.element tag children).printNode ≠ [] := by
    rw [Node.printNode, StartTag.print]
    simp
  rw [scan, String.toList_ofList, Cursor.ofText, Node.print_append, Node.print, Node.print,
    List.append_nil, List.dropLast_append_of_ne_nil hne, scanFrom_forest ns hns 0 _ hbreaks, hread,
    Node.located_append, Node.events_append]
  simp [Node.located, Node.events]

end MarkupEvent

/-! ## Building two forests in a row -/

namespace ForestBuilder

/-- The builder with further roots in front. -/
def behind (roots : List Node) (b : ForestBuilder) : ForestBuilder := ⟨roots ++ b.roots, b.opened⟩

variable (roots : List Node) (b : ForestBuilder)

/-- Nodes in front change nothing about a node that is added. -/
theorem behind_add (n : Node) : (b.behind roots).add n = (b.add n).behind roots := by
  obtain ⟨bs, opened⟩ := b
  cases opened <;> simp [behind, add]

theorem behind_close : (b.behind roots).close = b.close.behind roots := by
  obtain ⟨bs, opened⟩ := b
  cases opened with
  | nil => rfl
  | cons e rest => exact behind_add roots ⟨bs, rest⟩ _

theorem behind_closeMany (n : Nat) :
    (b.behind roots).closeMany n = (b.closeMany n).behind roots := by
  induction n generalizing b with
  | zero => rfl
  | succ n ih => rw [closeMany, closeMany, behind_close, ih]

/-- What has been finished does not matter for what follows. -/
theorem behind_step (e : MarkupEvent) : (b.behind roots).step e = (b.step e).behind roots := by
  cases e with
  | text run => exact behind_add roots b _
  | start tag isLeaf =>
      cases isLeaf with
      | true => exact behind_add roots b _
      | false => rfl
  | stop name =>
      have hopened : (b.behind roots).opened = b.opened := rfl
      rw [step, step, hopened]
      split
      · rfl
      · exact behind_closeMany roots b _

/-- Nodes in front change nothing about a run over events. -/
theorem behind_foldl_step (es : List MarkupEvent) :
    es.foldl step (b.behind roots) = (es.foldl step b).behind roots := by
  induction es generalizing b with
  | nil => rfl
  | cons e es ih => rw [List.foldl_cons, List.foldl_cons, behind_step, ih]

end ForestBuilder

/-- Events behind those of a finished forest make a forest of their own. -/
theorem Node.ofEvents_append {forest : List Node} (h : VoidsEmpty forest)
    (es : List MarkupEvent) : ofEvents (events forest ++ es) = forest ++ ofEvents es := by
  have hbuilt : (events forest).foldl ForestBuilder.step .empty =
      ForestBuilder.empty.behind forest := by
    rw [foldl_step_events forest h, ForestBuilder.empty, ForestBuilder.foldl_add_empty,
      ForestBuilder.behind]
    simp
  rw [ofEvents, List.foldl_append, hbuilt, ForestBuilder.behind_foldl_step, ForestBuilder.finish,
    ForestBuilder.behind_closeMany]
  rfl

/-! ## Migrating past a finished forest -/

namespace Node

variable {forest : List Node}

/-- The nodes of a finished forest come first, whatever follows it. -/
theorem parse_print_append (h : Finished forest) (later : String) :
    parse (String.ofList (print forest) ++ later) =
      located 0 forest ++
        ofEvents (MarkupEvent.scanFrom (byteCount (print forest)) []
          ⟨byteCount (print forest), later.toList⟩) := by
  rw [parse, MarkupEvent.scan, String.toList_append, String.toList_ofList, Cursor.ofText,
    MarkupEvent.scanFrom_print_append h, ofEvents_append (voidsEmpty_located _ h.printable 0)]

/-- A finished forest loses nothing with its last character. -/
theorem parse_print_dropLast (h : Finished forest) :
    parse (String.ofList (print forest).dropLast) = located 0 forest := by
  rw [parse, MarkupEvent.scan_print_dropLast h,
    ofEvents_events (voidsEmpty_located _ h.printable 0)]

/-- The print of a finished forest ends with a `>`. -/
theorem print_eq_dropLast_append (h : Finished forest) :
    print forest = (print forest).dropLast ++ ['>'] := by
  obtain ⟨ns, tag, children, rfl⟩ := h.last
  have hends : ∃ front, print (ns ++ [element tag children]) = front ++ ['>'] := by
    rw [print_append, print, print, List.append_nil, printNode]
    cases isVoidElement tag.name with
    | true =>
        refine ⟨print ns ++ '<' :: (tag.name.toList ++ tag.attributes.flatMap Attribute.print), ?_⟩
        simp [StartTag.print]
    | false =>
        refine ⟨print ns ++ (tag.print ++ (print children ++ '<' :: '/' :: tag.name.toList)), ?_⟩
        simp [StartTag.printEnd]
  obtain ⟨front, hfront⟩ := hends
  rw [hfront, List.dropLast_concat]

end Node

theorem Changes.append_assoc (a b c : Changes) : a ++ b ++ c = a ++ (b ++ c) := by
  show Changes.mk _ _ = Changes.mk _ _
  simp only [Changes.mk.injEq]
  exact ⟨List.append_assoc _ _ _, List.append_assoc _ _ _⟩

/-- The changes of two forests, one after the other, are those of both. -/
theorem RuleSet.forestChanges_append (r : RuleSet) (ns ms : List Node) :
    r.forestChanges (ns ++ ms) = r.forestChanges ns ++ r.forestChanges ms := by
  induction ns with
  | nil => rw [forestChanges]; rfl
  | cons n ns ih =>
      rw [List.cons_append, forestChanges, forestChanges, ih, Changes.append_assoc]

/-- Sorting by level keeps the order of the messages of one level. -/
theorem Message.filter_errorsFirst (ms : List Message) (level : Level) :
    (errorsFirst ms).filter (·.level = level) = ms.filter (·.level = level) := by
  rw [errorsFirst, List.filter_append, List.filter_filter, List.filter_filter]
  cases level with
  | error =>
      have hrest : ms.filter (fun m => decide (m.level = .error) && !m.isError) = [] := by
        simp [isError]
      rw [hrest, List.append_nil]
      exact List.filter_congr (by simp [isError])
  | info =>
      have herrors : ms.filter (fun m => decide (m.level = .info) && m.isError) = [] := by
        simp +contextual [isError]
      rw [herrors, List.nil_append]
      exact List.filter_congr (by simp +contextual [isError])

/-- The diagnostics of one level, when messages of a text are sorted and placed in it. -/
theorem Message.filter_map_place_errorsFirst (ms : List Message) (source : String)
    (level : Level) :
    ((errorsFirst ms).map (·.place source)).filter (·.level = level) =
      (ms.filter (·.level = level)).map (·.place source) := by
  rw [List.filter_map, ← filter_errorsFirst]
  rfl

namespace Session

variable {forest : List Node}

/-- What is done to a finished forest, and to the text behind it. -/
theorem splices_forestChanges_append (rules : RuleSet) (h : Node.Finished forest)
    (later : String) :
    ∃ out out', Edit.Splices 0 (Node.print forest)
        (rules.forestChanges (Node.located 0 forest)).replacements (out ++ ['>']) ∧
      Edit.Splices 0 (Node.print forest ++ later.toList)
        (rules.forestChanges
          (Node.parse (String.ofList (Node.print forest) ++ later))).replacements
        (out ++ ['>'] ++ out') := by
  have hfront := rules.laid_forestChanges (String.ofList (Node.print forest).dropLast)
  rw [Node.parse_print_dropLast h, String.toList_ofList] at hfront
  obtain ⟨out, hout⟩ := hfront.exists_splices (List.nil_append _).symm rfl
  have hfinished := hout.append (.nil _ ['>'])
  rw [← Node.print_eq_dropLast_append h, List.append_nil] at hfinished
  have hpending : MarkupEvent.Pending (Node.print forest ++ later.toList) _ []
      ⟨byteCount (Node.print forest), later.toList⟩ := .nil ⟨Node.print forest, rfl, rfl⟩
  have hevents := rules.laid_events (MarkupEvent.eventsIn_scanFrom _ _ _ hpending)
  rw [← Node.contents_ofEvents] at hevents
  have hlater := hevents.perm (rules.perm_replacements_forestChanges _).symm
  obtain ⟨out', hout'⟩ := hlater.exists_splices rfl rfl
  refine ⟨out, out', hfinished, ?_⟩
  rw [Node.parse_print_append h, RuleSet.forestChanges_append, Changes.replacements_append]
  refine hfinished.append ?_
  rw [Nat.zero_add]
  exact hout'

/-- **Later text does not disturb.**  What is written behind a finished forest, whatever it is,
keeps the migrated text of the forest as the front of the migrated whole, and keeps its diagnostics
of each level in front of the later ones, at the same places. -/
theorem migrate_print_append (rules : RuleSet) (h : Node.Finished forest) (later : String)
    (hsize : byteLength (String.ofList (Node.print forest) ++ later) ≤ Patch.maxOffset) :
    ∃ m m', ((start rules).migrate (String.ofList (Node.print forest))).1 = .ok m ∧
      ((start rules).migrate (String.ofList (Node.print forest) ++ later)).1 = .ok m' ∧
      m.text.toList <+: m'.text.toList ∧
      ∀ level, m.diagnostics.filter (·.level = level) <+:
        m'.diagnostics.filter (·.level = level) := by
  have hparse : Node.parse (String.ofList (Node.print forest)) = Node.located 0 forest := by
    rw [Node.parse, MarkupEvent.scan_print h.printable,
      Node.ofEvents_events (Node.voidsEmpty_located _ h.printable 0)]
  obtain ⟨out, out', hfinished, hwhole⟩ := splices_forestChanges_append rules h later
  rw [← hparse] at hfinished
  have hsize' : byteLength (String.ofList (Node.print forest)) ≤ Patch.maxOffset := by
    rw [byteLength, String.toList_append, byteCount_append] at hsize
    exact Nat.le_of_add_right_le hsize
  refine ⟨_, _, Migration.ofTemplate_eq_of_splices rules hsize' (by rwa [String.toList_ofList]),
    Migration.ofTemplate_eq_of_splices rules hsize
      (by rwa [String.toList_append, String.toList_ofList]), ?_, ?_⟩
  · show (VoidEndTag.strip _).toList <+: (VoidEndTag.strip _).toList
    have hparted : VoidEndTag.Parted (out ++ ['>']) out' := .inl (by simp)
    simp only [VoidEndTag.strip, String.toList_ofList]
    rw [VoidEndTag.sweep_append hparted]
    exact List.prefix_append _ _
  · intro level
    simp only [Message.filter_map_place_errorsFirst]
    rw [Node.parse_print_append h, RuleSet.forestChanges_append, ← hparse]
    have hplace : ∀ m ∈ (rules.forestChanges
          (Node.parse (String.ofList (Node.print forest)))).messages.filter (·.level = level),
        m.place (String.ofList (Node.print forest) ++ later) =
          m.place (String.ofList (Node.print forest)) := by
      intro m hm
      exact Message.place_append
        (RuleSet.position_le_of_mem_forestChanges (List.mem_filter.mp hm).1) later
    show _ <+: List.map _ (List.filter _ (_ ++ _))
    rw [List.filter_append, List.map_append, List.map_congr_left hplace]
    exact List.prefix_append _ _

/-- A renamed attribute, a filter that cannot be kept and a letter of two bytes, before what would
close the element early, a cut end tag of a void element and an open attribute. -/
theorem migrate_print_append_malformed :
    Node.Finished [.text ⟨"é | orderBy", 0⟩,
        .element ⟨"p", 0, [⟨"ng-if", "vm.x", 0, 0, false⟩]⟩ [.text ⟨"y", 0⟩]] ∧
      ∃ m m', ((start .default).migrate "é | orderBy<p ng-if=\"vm.x\">y</p>").1 = .ok m ∧
        ((start .default).migrate
          ("é | orderBy<p ng-if=\"vm.x\">y</p>" ++ "/br></p></br><a ng-if='vm.")).1 = .ok m' ∧
        m.text.toList <+: m'.text.toList ∧
        ∀ level, m.diagnostics.filter (·.level = level) <+:
          m'.diagnostics.filter (·.level = level) := by
  have h : Node.Finished [.text ⟨"é | orderBy", 0⟩,
      .element ⟨"p", 0, [⟨"ng-if", "vm.x", 0, 0, false⟩]⟩ [.text ⟨"y", 0⟩]] := by
    refine ⟨?_, [.text ⟨"é | orderBy", 0⟩], _, _, rfl⟩
    simp only [Node.Printable, Node.PrintableNode]
    decide
  refine ⟨h, ?_⟩
  exact migrate_print_append .default h "/br></p></br><a ng-if='vm." (by decide)

end Session

end TemplateMigration
