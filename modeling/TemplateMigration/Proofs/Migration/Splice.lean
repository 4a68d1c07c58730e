import TemplateMigration.Proofs.Migration.Success

/-!
# TemplateMigration.Proofs.Migration.Splice

What the edits of a migration make of its source.

The walk records edits children first and names last, so they do not come in the order of the
source.  They are apart from each other, and then the order does not matter: a sheet on which they
have been drawn shows at each offset the text of the edit that starts there and nothing else
(`Sheet.Carries`), and no insertion meets a dead offset.  The same bytes come out of one pass over
the source with the edits in ascending order, which keeps everything outside their ranges
(`utf8_applyFrom?`).
-/

namespace TemplateMigration

/-! ## Edits offset by offset -/

namespace Edit

/-- The text that edits put at an offset. -/
def textAt (es : List Edit) (x : Nat) : List Char :=
  es.flatMap fun e => if e.offset = x then e.replacement.toList else []

/-- Whether the range of one of the edits holds a byte. -/
def coversAt (es : List Edit) (x : Nat) : Bool :=
  es.any fun e => decide (e.offset ≤ x ∧ x < e.stop)

/-- Whether an offset lies strictly inside the range of one of the edits. -/
def enclosesAt (es : List Edit) (x : Nat) : Bool :=
  es.any fun e => decide (e.offset < x ∧ x < e.stop)

/-- What an offset contributes to the edited text: the texts put there, and its byte unless an
edit replaces it. -/
def spliceAt (es : List Edit) (bytes : List UInt8) (x : Nat) : List UInt8 :=
  utf8 (textAt es x) ++ if coversAt es x then [] else bytes[x]?.toList

variable {es fs : List Edit} {e : Edit} {x : Nat}

theorem textAt_cons (e : Edit) (es : List Edit) (x : Nat) :
    textAt (e :: es) x = (if e.offset = x then e.replacement.toList else []) ++ textAt es x := rfl

theorem textAt_append (es fs : List Edit) (x : Nat) :
    textAt (es ++ fs) x = textAt es x ++ textAt fs x := List.flatMap_append

/-- Nothing is put in where no edit starts. -/
theorem textAt_eq_nil (h : ∀ e ∈ es, e.offset ≠ x) : textAt es x = [] := by
  rw [textAt, List.flatMap_eq_nil_iff]
  intro e he
  rw [if_neg (h e he)]

theorem coversAt_concat (es : List Edit) (e : Edit) (x : Nat) :
    coversAt (es ++ [e]) x = (decide (e.offset ≤ x ∧ x < e.stop) || coversAt es x) := by
  rw [coversAt, List.any_append, List.any_cons, List.any_nil, Bool.or_false, Bool.or_comm, coversAt]

theorem enclosesAt_concat (es : List Edit) (e : Edit) (x : Nat) :
    enclosesAt (es ++ [e]) x = (decide (e.offset < x ∧ x < e.stop) || enclosesAt es x) := by
  rw [enclosesAt, List.any_append, List.any_cons, List.any_nil, Bool.or_false, Bool.or_comm,
    enclosesAt]

/-- No edit covers an offset exactly if each ends before it or starts behind it. -/
theorem coversAt_eq_false_iff : coversAt es x = false ↔ ∀ e ∈ es, x < e.offset ∨ e.stop ≤ x := by
  rw [coversAt, List.any_eq_false]
  simp only [decide_eq_true_eq]
  constructor
  · intro h e he
    have := h e he
    omega
  · intro h e he
    have := h e he
    omega

/-- No edit encloses an offset exactly if each ends at it or before, or starts at it or behind. -/
theorem enclosesAt_eq_false_iff :
    enclosesAt es x = false ↔ ∀ e ∈ es, x ≤ e.offset ∨ e.stop ≤ x := by
  rw [enclosesAt, List.any_eq_false]
  simp only [decide_eq_true_eq]
  constructor
  · intro h e he
    have := h e he
    omega
  · intro h e he
    have := h e he
    omega

/-- Of edits that are apart at most one starts at an offset, so their order does not matter. -/
theorem textAt_perm (hperm : es.Perm fs) (h : es.Pairwise Apart) (x : Nat) :
    textAt es x = textAt fs x := by
  induction hperm with
  | nil => rfl
  | cons e _ ih => rw [textAt_cons, textAt_cons, ih (List.pairwise_cons.mp h).2]
  | swap a b es =>
      have hab : b.Apart a := (List.pairwise_cons.mp h).1 a (by simp)
      have hne : b.offset ≠ a.offset := by
        cases hab with
        | inl hbefore => exact Nat.ne_of_lt hbefore.2
        | inr hbefore => exact Nat.ne_of_gt hbefore.2
      simp only [textAt_cons, ← List.append_assoc]
      congr 1
      by_cases hb : b.offset = x
      · rw [if_pos hb, if_neg (by omega)]
        simp
      · rw [if_neg hb]
        simp
  | trans hperm _ ih ih' => rw [ih h, ih' (hperm.pairwise h Apart.symm)]

end Edit

/-! ## Edits on a sheet -/

/-- A sheet that shows edits and nothing else. -/
structure Sheet.Carries (s : Sheet) (es : List Edit) : Prop where
  text : ∀ x, s.left x ++ s.right x = Edit.textAt es x
  dead : ∀ x, s.dead x = Edit.enclosesAt es x
  removed : ∀ x, s.removed x = Edit.coversAt es x

namespace Sheet.Carries

variable {s : Sheet} {es : List Edit} {e : Edit} {x : Nat}

theorem blank : Sheet.blank.Carries [] := ⟨fun _ => rfl, fun _ => rfl, fun _ => rfl⟩

/-- Nothing is inserted where no edit starts. -/
theorem nil_of_ne (h : s.Carries es) (hx : ∀ d ∈ es, d.offset ≠ x) :
    s.left x = [] ∧ s.right x = [] := by
  have htext := h.text x
  rw [Edit.textAt_eq_nil hx] at htext
  exact List.append_eq_nil_iff.mp htext

/-- The start of an edit is alive as long as the others are apart from it. -/
theorem dead_offset (h : s.Carries es) (hapart : ∀ d ∈ es, d.Apart e) :
    s.dead e.offset = false := by
  rw [h.dead, Edit.enclosesAt_eq_false_iff]
  intro d hd
  cases hapart d hd with
  | inl hbefore => exact .inr hbefore.1
  | inr hbefore => exact .inl (Nat.le_of_lt hbefore.2)

/-- No other edit starts where an edit starts. -/
theorem nil_offset (h : s.Carries es) (hapart : ∀ d ∈ es, d.Apart e) :
    s.left e.offset = [] ∧ s.right e.offset = [] := by
  refine h.nil_of_ne ?_
  intro d hd
  have hbefore := hapart d hd
  simp only [Edit.Apart, Edit.Before] at hbefore
  omega

/-- A sheet that carries edits writes at each offset what the edits make of it. -/
theorem renderAt_eq (h : s.Carries es) (bytes : List UInt8) (x : Nat) :
    s.renderAt bytes x = Edit.spliceAt es bytes x := by
  rw [renderAt, Edit.spliceAt, ← utf8_append, h.text, h.removed]

/-- The order of edits that are apart from each other does not matter. -/
theorem perm (h : s.Carries es) {fs : List Edit} (hperm : es.Perm fs)
    (hapart : es.Pairwise Edit.Apart) : s.Carries fs where
  text x := (h.text x).trans (Edit.textAt_perm hperm hapart x)
  dead x := (h.dead x).trans hperm.any_eq
  removed x := (h.removed x).trans hperm.any_eq

/-- Replacing a range that starts at a living offset with no text on its right, and in which no edit
made so far starts. -/
theorem replace_of_alive (h : s.Carries es) {offset length : Nat} {new : String}
    (hdead : s.dead offset = false) (hright : s.right offset = [])
    (hwithin : ∀ d ∈ es, ¬ (offset < d.offset ∧ d.offset < offset + length)) :
    ((s.remove offset length).insertLeft offset new.toList).Carries
      (es ++ [⟨offset, length, new⟩]) := by
  constructor
  · intro x
    have hold := h.text x
    rw [Sheet.left_insertLeft, Sheet.right_insertLeft, Edit.textAt_append, Edit.textAt_cons, ← hold]
    by_cases hx : offset = x
    · subst hx
      simp [Sheet.remove, hdead, hright, Edit.textAt]
    · by_cases hin : offset < x ∧ x < offset + length
      · obtain ⟨hleft, hright⟩ := h.nil_of_ne fun d hd heq => hwithin d hd (heq ▸ hin)
        simp [Sheet.remove, hin, hleft, hright, Edit.textAt, hx]
      · simp [Sheet.remove, hin, Edit.textAt, hx, Ne.symm hx]
  · intro x
    rw [Sheet.dead_insertLeft, Sheet.dead_remove, h.dead, Edit.enclosesAt_concat, Edit.stop]
  · intro x
    rw [Sheet.removed_insertLeft, Sheet.removed_remove, h.removed, Edit.coversAt_concat, Edit.stop]

/-- Replacing a range that is apart from the edits made so far. -/
theorem replace (h : s.Carries es) {offset length : Nat} {new : String}
    (hapart : ∀ d ∈ es, d.Apart ⟨offset, length, new⟩) :
    ((s.remove offset length).insertLeft offset new.toList).Carries
      (es ++ [⟨offset, length, new⟩]) := by
  refine h.replace_of_alive (h.dead_offset hapart) (h.nil_offset hapart).2 ?_
  intro d hd
  have hbefore := hapart d hd
  simp only [Edit.Apart, Edit.Before, Edit.stop] at hbefore
  omega

/-- Inserting at an offset that is apart from the edits made so far. -/
theorem insert (h : s.Carries es) {offset : Nat} {new : String}
    (hapart : ∀ d ∈ es, d.Apart ⟨offset, 0, new⟩) :
    (s.insertRight offset new.toList).Carries (es ++ [⟨offset, 0, new⟩]) := by
  have hdead : s.dead offset = false := h.dead_offset hapart
  constructor
  · intro x
    have hold := h.text x
    rw [Sheet.left_insertRight, Sheet.right_insertRight, Edit.textAt_append, Edit.textAt_cons,
      ← hold]
    by_cases hx : offset = x
    · subst hx
      obtain ⟨hleft, hright⟩ := h.nil_offset hapart
      simp [hdead, hleft, hright, Edit.textAt]
    · simp [Edit.textAt, hx, Ne.symm hx]
  · intro x
    have hnone : ¬ (offset < x ∧ x < offset + 0) := by omega
    rw [Sheet.dead_insertRight, h.dead, Edit.enclosesAt_concat, Edit.stop, decide_eq_false hnone,
      Bool.false_or]
  · intro x
    have hnone : ¬ (offset ≤ x ∧ x < offset + 0) := by omega
    rw [Sheet.removed_insertRight, h.removed, Edit.coversAt_concat, Edit.stop,
      decide_eq_false hnone, Bool.false_or]

end Sheet.Carries

/-! ## Nothing is dropped -/

/-- The offset at which a call inserts. -/
def PatchCall.insertsAt? : PatchCall → Option Nat
  | insertLeft offset _ => some offset
  | insertRight offset _ => some offset
  | remove _ _ => none

namespace Patch

/-- Each of the calls, made one after the other, inserts where the patch keeps what is inserted. -/
def DropsNothing : Patch → List PatchCall → Prop
  | _, [] => True
  | p, call :: calls =>
      (∀ n, call.insertsAt? = some n → p.drops n = false) ∧ DropsNothing (p.attempt call) calls

/-- Calls that drop nothing one after the other drop nothing. -/
theorem DropsNothing.append {p : Patch} {calls calls' : List PatchCall}
    (h : p.DropsNothing calls) (h' : (calls.foldl attempt p).DropsNothing calls') :
    p.DropsNothing (calls ++ calls') := by
  induction calls generalizing p with
  | nil => exact h'
  | cons call calls ih => exact ⟨h.1, ih h.2 h'⟩

end Patch

/-! ## Steps and runs of edits -/

/-- A patch of a text on which edits have been made and nothing else. -/
def Patch.Carries (p : Patch) (text : List Char) (es : List Edit) : Prop :=
  ∃ s, p.Shows text s ∧ s.Carries es

namespace SourceEdit

variable {p : Patch} {text : List Char} {done : List Edit}

/-- A replacement is drawn as a removal and an insertion on the left. -/
theorem shows_foldl_calls_replace {s : Sheet} {offset length : Nat} {new : String}
    (h : p.Shows text s)
    (ha : ∀ call ∈ (replace offset length new).calls, call.Admissible text) :
    ((replace offset length new).calls.foldl Patch.attempt p).Shows text
      ((s.remove offset length).insertLeft offset new.toList) := by
  have hshows := Patch.shows_attempt_of_admissible h (ha (.remove offset length) (by simp [calls]))
  rw [PatchCall.effect_remove] at hshows
  by_cases hempty : new.isEmpty
  · have hnil : new.toList = [] := by simpa using hempty
    rw [calls, if_pos hempty, hnil, Sheet.insertLeft_nil]
    exact hshows
  · have hinsert := ha (.insertLeft offset new) (by simp [calls, hempty])
    rw [calls, if_neg hempty]
    exact Patch.shows_attempt_of_admissible hshows hinsert

/-- One edit that is apart from those made so far is made in full. -/
theorem carries_foldl_calls {e : SourceEdit} (h : p.Carries text done)
    (ha : ∀ call ∈ e.calls, call.Admissible text) (hapart : ∀ d ∈ done, d.Apart e.toEdit) :
    p.DropsNothing e.calls ∧ (e.calls.foldl Patch.attempt p).Carries text (done ++ [e.toEdit]) := by
  obtain ⟨s, hshows, hcarries⟩ := h
  have hdead : s.dead e.toEdit.offset = false := hcarries.dead_offset hapart
  cases e with
  | insert offset new =>
      have hadmissible : IsBoundary text offset := ha (.insertRight offset new) (by simp [calls])
      refine ⟨⟨?_, trivial⟩, s.insertRight offset new.toList, ?_, hcarries.insert hapart⟩
      · rintro n ⟨⟩
        rw [Patch.drops_eq_dead hshows hadmissible]
        exact hdead
      · exact Patch.shows_attempt_of_admissible hshows (ha _ (by simp [calls]))
  | replace offset length new =>
      have hremove : PatchCall.Admissible text (.remove offset length) := ha _ (by simp [calls])
      refine ⟨⟨by rintro n ⟨⟩, ?_⟩, _, shows_foldl_calls_replace hshows ha, hcarries.replace hapart⟩
      have hshows' := Patch.shows_attempt_of_admissible hshows hremove
      rw [PatchCall.effect_remove] at hshows'
      by_cases hempty : new.isEmpty
      · rw [if_pos hempty]
        trivial
      · rw [if_neg hempty]
        refine ⟨?_, trivial⟩
        rintro n ⟨⟩
        rw [Patch.drops_eq_dead hshows' hremove.2.1, Sheet.dead_remove, decide_eq_false (by omega)]
        exact hdead

/-- Edits that are apart from each other are all made in full, in whatever order they come. -/
theorem carries_foldl_flatMap_calls (es : List SourceEdit) (h : p.Carries text done)
    (ha : ∀ call ∈ es.flatMap calls, call.Admissible text)
    (hapart : (done ++ es.map toEdit).Pairwise Edit.Apart) :
    p.DropsNothing (es.flatMap calls) ∧
      ((es.flatMap calls).foldl Patch.attempt p).Carries text (done ++ es.map toEdit) := by
  induction es generalizing p done with
  | nil => exact ⟨trivial, by simpa using h⟩
  | cons e es ih =>
      rw [List.flatMap_cons] at ha ⊢
      have hfirst : ∀ d ∈ done, d.Apart e.toEdit := fun d hd =>
        (List.pairwise_append.mp hapart).2.2 d hd e.toEdit (by simp)
      obtain ⟨hdrops, hcarries⟩ := carries_foldl_calls h
        (fun call hcall => ha call (List.mem_append_left _ hcall)) hfirst
      have hassoc : done ++ (e :: es).map toEdit = done ++ [e.toEdit] ++ es.map toEdit := by simp
      rw [hassoc] at hapart ⊢
      obtain ⟨hdrops', hcarries'⟩ := ih hcarries
        (fun call hcall => ha call (List.mem_append_right _ hcall)) hapart
      rw [List.foldl_append]
      exact ⟨hdrops.append hdrops', hcarries'⟩

end SourceEdit

/-! ## One pass over the source -/

theorem flatMap_range'_getElem? (before part after : List UInt8) :
    (List.range' before.length part.length).flatMap
      (fun x => (before ++ (part ++ after))[x]?.toList) = part := by
  rw [List.range'_eq_map_range, List.flatMap_map]
  have hshift : ∀ x, (before ++ (part ++ after))[before.length + x]? = (part ++ after)[x]? := by
    intro x
    rw [List.getElem?_append_right (Nat.le_add_right _ _), Nat.add_sub_cancel_left]
  simp only [hshift]
  exact Chain.flatMap_range_getElem? part after

/-- Edits from an offset on stand behind it. -/
theorem EditsIn.le_offset_of_mem {text : List Char} {start : Nat} {es : List Edit} {e : Edit}
    (h : EditsIn text start es) (he : e ∈ es) : start ≤ e.offset := by
  induction es generalizing start with
  | nil => contradiction
  | cons d es ih =>
      cases List.mem_cons.mp he with
      | inl heq =>
          rw [heq]
          exact h.1
      | inr hmem =>
          have hstop : d.offset ≤ d.stop := Nat.le_add_right _ _
          exact Nat.le_trans (Nat.le_trans h.1 hstop) (ih h.2.2.2 hmem)

namespace Edit

variable {text : List Char} {start x : Nat} {e : Edit} {es : List Edit}

/-- Before the first edit every byte is kept. -/
theorem spliceAt_of_lt (h : ∀ e ∈ es, x < e.offset) (bytes : List UInt8) :
    spliceAt es bytes x = bytes[x]?.toList := by
  have htext : textAt es x = [] := textAt_eq_nil fun e he => Nat.ne_of_gt (h e he)
  have hcovers : coversAt es x = false := coversAt_eq_false_iff.mpr fun e he => .inl (h e he)
  rw [spliceAt, htext, hcovers]
  rfl

/-- Past the first edit the others decide. -/
theorem spliceAt_cons_of_ge (hoffset : e.offset < x) (hstop : e.stop ≤ x) (bytes : List UInt8) :
    spliceAt (e :: es) bytes x = spliceAt es bytes x := by
  have hcovers : coversAt (e :: es) x = coversAt es x := by
    rw [coversAt, List.any_cons, decide_eq_false (by omega), Bool.false_or, coversAt]
  rw [spliceAt, textAt_cons, if_neg (Nat.ne_of_lt hoffset), hcovers, List.nil_append, spliceAt]

/-- Strictly inside the range of the first edit nothing is left. -/
theorem spliceAt_cons_of_within (hes : ∀ d ∈ es, e.stop ≤ d.offset) (hoffset : e.offset < x)
    (hstop : x < e.stop) (bytes : List UInt8) : spliceAt (e :: es) bytes x = [] := by
  have htext : textAt es x = [] :=
    textAt_eq_nil fun d hd => Nat.ne_of_gt (Nat.lt_of_lt_of_le hstop (hes d hd))
  have hcovers : coversAt (e :: es) x = true := by
    rw [coversAt, List.any_cons, decide_eq_true ⟨Nat.le_of_lt hoffset, hstop⟩, Bool.true_or]
  rw [spliceAt, textAt_cons, if_neg (Nat.ne_of_lt hoffset), htext, hcovers]
  rfl

/-- At its start the first edit puts its text, and its range replaces the byte there. -/
theorem spliceAt_cons_offset (hes : ∀ d ∈ es, e.stop ≤ d.offset) (bytes : List UInt8) :
    spliceAt (e :: es) bytes e.offset =
      utf8 e.replacement.toList ++ if e.length = 0 then spliceAt es bytes e.offset else [] := by
  rw [spliceAt, textAt_cons, if_pos rfl, utf8_append, List.append_assoc]
  congr 1
  by_cases hlength : e.length = 0
  · have hcovers : coversAt (e :: es) e.offset = coversAt es e.offset := by
      rw [coversAt, List.any_cons, stop, decide_eq_false (by omega), Bool.false_or, coversAt]
    rw [if_pos hlength, hcovers, spliceAt]
  · have hlt : e.offset < e.stop := Nat.lt_add_of_pos_right (Nat.pos_of_ne_zero hlength)
    have htext : textAt es e.offset = [] :=
      textAt_eq_nil fun d hd => Nat.ne_of_gt (Nat.lt_of_lt_of_le hlt (hes d hd))
    have hcovers : coversAt (e :: es) e.offset = true := by
      rw [coversAt, List.any_cons, decide_eq_true ⟨Nat.le_refl _, hlt⟩, Bool.true_or]
    rw [if_neg hlength, htext, hcovers]
    rfl

/-- The first edit contributes its text in the place of its range. -/
theorem flatMap_spliceAt_cons (hes : ∀ d ∈ es, e.stop ≤ d.offset) (bytes : List UInt8) (m : Nat) :
    (List.range' e.offset (e.length + (m + 1))).flatMap (spliceAt (e :: es) bytes) =
      utf8 e.replacement.toList ++ (List.range' e.stop (m + 1)).flatMap (spliceAt es bytes) := by
  have hrest : ∀ start n, e.offset < start → e.stop ≤ start →
      (List.range' start n).flatMap (spliceAt (e :: es) bytes) =
        (List.range' start n).flatMap (spliceAt es bytes) := by
    intro start n hoffset hstop
    apply List.flatMap_congr
    intro x hx
    have hle : start ≤ x := (List.mem_range'_1.mp hx).1
    exact spliceAt_cons_of_ge (by omega) (by omega) bytes
  cases hlength : e.length with
  | zero =>
      have hstop : e.stop = e.offset := by rw [stop, hlength, Nat.add_zero]
      rw [hstop, Nat.zero_add, List.range'_succ, List.flatMap_cons, List.flatMap_cons,
        spliceAt_cons_offset hes, if_pos hlength, List.append_assoc,
        hrest (e.offset + 1) m (by omega) (by omega)]
  | succ k =>
      have hstop : e.offset + (k + 1) = e.stop := by rw [stop, hlength]
      have hinside : (List.range' (e.offset + 1) k).flatMap (spliceAt (e :: es) bytes) = [] := by
        rw [List.flatMap_eq_nil_iff]
        intro x hx
        obtain ⟨hle, hlt⟩ := List.mem_range'_1.mp hx
        exact spliceAt_cons_of_within hes (by omega) (by omega) bytes
      rw [← List.range'_append_1, List.flatMap_append, hstop,
        hrest e.stop (m + 1) (by omega) (by omega), List.range'_succ, List.flatMap_cons, hinside,
        spliceAt_cons_offset hes, if_neg (by omega)]
      simp

/-- A part of the text in front of all edits is kept. -/
theorem flatMap_spliceAt_of_le {before part after : List Char}
    (hes : ∀ e ∈ es, byteCount before + byteCount part ≤ e.offset) :
    (List.range' (byteCount before) (byteCount part)).flatMap
      (spliceAt es (utf8 (before ++ part ++ after))) = utf8 part := by
  have hpart := flatMap_range'_getElem? (utf8 before) (utf8 part) (utf8 after)
  rw [length_utf8, length_utf8] at hpart
  refine Eq.trans (List.flatMap_congr ?_) hpart
  intro x hx
  have hlt : x < byteCount before + byteCount part := (List.mem_range'_1.mp hx).2
  rw [spliceAt_of_lt (fun e he => Nat.lt_of_lt_of_le hlt (hes e he)), List.append_assoc,
    utf8_append, utf8_append]

/-- A pass over edits in ascending order keeps every byte outside their ranges and puts the text of
each edit where its range starts. -/
theorem utf8_applyFrom? {before rest : List Char} (h : EditsIn text start es)
    (htext : text = before ++ rest) (hbefore : byteCount before = start) :
    ∃ out, applyFrom? start rest es = some out ∧
      utf8 out = (List.range' start (byteCount rest + 1)).flatMap (spliceAt es (utf8 text)) := by
  induction es generalizing start before rest with
  | nil =>
      have hkept : (List.range' start (byteCount rest)).flatMap (spliceAt [] (utf8 text)) =
          utf8 rest := by
        rw [htext, ← hbefore, ← List.append_nil (before ++ rest)]
        exact flatMap_spliceAt_of_le (by simp)
      have hlast : (utf8 text)[start + byteCount rest]? = none := by
        have hlength : (utf8 text).length = start + byteCount rest := by
          rw [length_utf8, htext, byteCount_append, hbefore]
        exact List.getElem?_eq_none (Nat.le_of_eq hlength)
      refine ⟨rest, rfl, ?_⟩
      rw [List.range'_1_concat, List.flatMap_append, hkept, List.flatMap_singleton,
        spliceAt_of_lt (by simp), hlast]
      simp
  | cons e es ih =>
      obtain ⟨front, gone, after, rfl, hfront, hgone, hrest, hstop⟩ :=
        h.exists_eq_append htext hbefore
      have hes : ∀ d ∈ es, e.stop ≤ d.offset := fun d hd => h.2.2.2.le_offset_of_mem hd
      obtain ⟨out, hout, hbytes⟩ := ih h.2.2.2 hrest hstop
      have hkept : (List.range' start (byteCount front)).flatMap (spliceAt (e :: es) (utf8 text)) =
          utf8 front := by
        rw [hrest, List.append_assoc (before ++ front), ← hbefore]
        refine flatMap_spliceAt_of_le ?_
        intro d hd
        rw [hbefore, hfront]
        cases List.mem_cons.mp hd with
        | inl heq => exact Nat.le_of_eq (by rw [heq])
        | inr hmem => exact Nat.le_trans (Nat.le_add_right _ _) (hes d hmem)
      refine ⟨front ++ e.replacement.toList ++ out, ?_, ?_⟩
      · rw [applyFrom?_cons hfront hgone, hout]
        rfl
      · have hcount : byteCount (front ++ gone ++ after) + 1 =
            byteCount front + (e.length + (byteCount after + 1)) := by
          rw [byteCount_append, byteCount_append, hgone]
          omega
        rw [hcount, ← List.range'_append_1, List.flatMap_append, hkept, hfront,
          flatMap_spliceAt_cons hes, ← hbytes, utf8_append, utf8_append, List.append_assoc]

end Edit

/-- Laid edits in ascending order follow each other. -/
theorem Laid.editsIn {text : List Char} {start stop : Nat} {es : List Edit}
    (h : Laid text start stop es) (hsorted : es.Pairwise fun a b => a.offset ≤ b.offset) :
    EditsIn text start es := by
  induction es generalizing start with
  | nil => trivial
  | cons e es ih =>
      have hfirst := h.within e (by simp)
      obtain ⟨hapart, hrest⟩ := List.pairwise_cons.mp h.apart
      obtain ⟨hle, hsorted⟩ := List.pairwise_cons.mp hsorted
      refine ⟨hfirst.start_le, hfirst.left, hfirst.right, ih ⟨?_, hrest⟩ hsorted⟩
      intro d hd
      have hd' := h.within d (List.mem_cons_of_mem _ hd)
      refine ⟨?_, hd'.offset_lt, hd'.stop_le, hd'.left, hd'.right⟩
      cases hapart d hd with
      | inl hbefore => exact hbefore.1
      | inr hbefore => exact absurd (hle d hd) (Nat.not_le_of_lt hbefore.2)

namespace Patch.Carries

variable {p : Patch} {source : String} {es : List Edit}

/-- A patch on which edits have been made renders, offset by offset, what they make of the text. -/
theorem utf8_render (h : p.Carries source.toList es) :
    utf8 p.render.toList =
      (List.range (byteLength source + 1)).flatMap (Edit.spliceAt es (utf8 source.toList)) := by
  obtain ⟨s, hshows, hcarries⟩ := h
  rw [hshows.utf8_render, Sheet.render, length_utf8]
  apply List.flatMap_congr
  intro x _
  exact hcarries.renderAt_eq _ x

/-- Made on a patch or in one pass, edits that follow each other give the same text. -/
theorem applyAll?_eq_render (h : p.Carries source.toList es) (hin : EditsIn source.toList 0 es) :
    Edit.applyAll? es source = some p.render := by
  obtain ⟨out, hout, hbytes⟩ := Edit.utf8_applyFrom? hin (List.nil_append _).symm rfl
  have hrender : utf8 p.render.toList = utf8 out := by
    rw [h.utf8_render, hbytes, List.range_eq_range']
    rfl
  rw [Edit.applyAll?, hout, ← utf8_injective hrender]
  simp

/-- A patch on which laid edits have been made renders what one pass over the text gives, with the
edits in ascending order. -/
theorem exists_applyAll? {stop : Nat} (h : p.Carries source.toList es)
    (hlaid : Laid source.toList 0 stop es) :
    ∃ sorted, sorted.Perm es ∧ Edit.applyAll? sorted source = some p.render := by
  obtain ⟨s, hshows, hcarries⟩ := h
  have hperm : (es.mergeSort fun a b => a.offset ≤ b.offset).Perm es := List.mergeSort_perm _ _
  have hsorted : (es.mergeSort fun a b => a.offset ≤ b.offset).Pairwise
      fun a b => decide (a.offset ≤ b.offset) = true :=
    List.pairwise_mergeSort (by simp; omega) (by simp; omega) es
  generalize es.mergeSort (fun a b => a.offset ≤ b.offset) = sorted at hperm hsorted
  have hcarries' : p.Carries source.toList sorted :=
    ⟨s, hshows, hcarries.perm hperm.symm hlaid.apart⟩
  exact ⟨sorted, hperm, hcarries'.applyAll?_eq_render
    ((hlaid.perm hperm.symm).editsIn (hsorted.imp of_decide_eq_true))⟩

end Patch.Carries

/-- **Migration is splicing.**  The edits of a migration are pairwise apart, nothing that they
insert is dropped, and the text they render is the source with the range of each edit replaced, in
ascending order, and everything else kept.  The migrated template is that text without end tags of
void elements. -/
theorem Migration.exists_applyAll?_eq_render (rules : RuleSet) (source : String)
    (hsize : byteLength source ≤ Patch.maxOffset) :
    let changes := rules.forestChanges (Node.parse source)
    changes.replacements.Pairwise Edit.Apart ∧
      (Patch.ofText source).DropsNothing (changes.edits.flatMap SourceEdit.calls) ∧
      ∃ (p : Patch) (sorted : List Edit) (diagnostics : List Diagnostic),
        changes.edits.foldlM SourceEdit.apply (.ofText source) = .ok p ∧
          sorted.Perm changes.replacements ∧ Edit.applyAll? sorted source = some p.render ∧
          ofTemplate rules source = .ok ⟨source, VoidEndTag.strip p.render, diagnostics⟩ := by
  intro changes
  have hlaid := rules.laid_forestChanges source
  have hblank : (Patch.ofText source).Carries source.toList [] :=
    ⟨.blank, Patch.shows_ofText source, .blank⟩
  obtain ⟨hdrops, hcarries⟩ := SourceEdit.carries_foldl_flatMap_calls changes.edits hblank
    (fun call hcall => rules.admissible_of_mem_callsOf hsize hcall) hlaid.apart
  obtain ⟨sorted, hperm, happly⟩ := hcarries.exists_applyAll? hlaid
  exact ⟨hlaid.apart, hdrops, _, sorted, _, rules.foldlM_apply_edits hsize, hperm, happly,
    ofTemplate_eq_ok rules hsize⟩

/-- A name to add, an alias inside a value, and an alias next to a replaced filter. -/
theorem Migration.exists_applyAll?_eq_render_mixed :
    let source := "<p ng-model=\"vm.é\">\x7b\x7b vm.b | limitTo:3:1 \x7d\x7d"
    let changes := RuleSet.default.forestChanges (Node.parse source)
    byteLength source ≤ Patch.maxOffset ∧ changes.replacements.length = 5 ∧
      changes.replacements.Pairwise Edit.Apart ∧
      (Patch.ofText source).DropsNothing (changes.edits.flatMap SourceEdit.calls) ∧
      ∃ (p : Patch) (sorted : List Edit) (diagnostics : List Diagnostic),
        changes.edits.foldlM SourceEdit.apply (.ofText source) = .ok p ∧
          sorted.Perm changes.replacements ∧ Edit.applyAll? sorted source = some p.render ∧
          ofTemplate .default source = .ok ⟨source, VoidEndTag.strip p.render, diagnostics⟩ := by
  intro source changes
  have hsize : byteLength source ≤ Patch.maxOffset := by decide
  exact ⟨hsize, by decide +kernel, exists_applyAll?_eq_render .default source hsize⟩

end TemplateMigration
