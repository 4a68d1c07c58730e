import Mathlib.Data.List.Chain
import TemplateMigration.Proofs.Migration.Splice

/-!
# TemplateMigration.Proofs.Migration.InOrder

Three ways of making edits in order.

Edits that follow each other in a text, each ending at or before the offset of the next, can be made
in one pass from the front, one by one from the back, or on a patch in the order of the list.  Two
of them may start at one offset, a replacement behind insertions, so they need not be apart.  On a
patch they still come out in order, because a replacement puts its text on the left of its offset,
behind the texts that are there, and nothing is ever put on the right (`Sheet.CarriesInOrder`).
-/

namespace TemplateMigration

/-- Edits that end at or before the offset of the next follow each other. -/
theorem EditsIn.of_isChain {text : List Char} {start : Nat} {es : List Edit}
    (hchain : es.IsChain fun d e => d.stop ≤ e.offset)
    (hends : ∀ e ∈ es, IsBoundary text e.offset ∧ IsBoundary text e.stop)
    (hstart : ∀ e ∈ es.head?, start ≤ e.offset) : EditsIn text start es := by
  induction es generalizing start with
  | nil => trivial
  | cons e es ih =>
      obtain ⟨hleft, hright⟩ := hends e (by simp)
      obtain ⟨hnext, htail⟩ := List.isChain_cons.mp hchain
      exact ⟨hstart e rfl, hleft, hright,
        ih htail (fun d hd => hends d (List.mem_cons_of_mem e hd)) hnext⟩

/-- A sheet that shows edits, all of their texts on the left. -/
structure Sheet.CarriesInOrder (s : Sheet) (es : List Edit) : Prop extends s.Carries es where
  right : ∀ x, s.right x = []

namespace Sheet.CarriesInOrder

variable {s : Sheet} {es : List Edit} {e : Edit}

theorem blank : Sheet.blank.CarriesInOrder [] := ⟨.blank, fun _ => rfl⟩

/-- Replacing a range behind the edits made so far. -/
theorem replace (h : s.CarriesInOrder es) (hbehind : ∀ d ∈ es, d.stop ≤ e.offset) :
    ((s.remove e.offset e.length).insertLeft e.offset e.replacement.toList).CarriesInOrder
      (es ++ [e]) := by
  -- the offset may be where ranges end or texts were put, but it lies inside no range
  have hdead : s.dead e.offset = false := by
    rw [h.dead, Edit.enclosesAt_eq_false_iff]
    exact fun d hd => .inr (hbehind d hd)
  have hwithin : ∀ d ∈ es, ¬ (e.offset < d.offset ∧ d.offset < e.offset + e.length) := by
    intro d hd
    have hstop := hbehind d hd
    rw [Edit.stop] at hstop
    omega
  refine ⟨h.replace_of_alive hdead (h.right e.offset) hwithin, ?_⟩
  intro x
  rw [Sheet.right_insertLeft, Sheet.remove]
  simp [h.right]

end Sheet.CarriesInOrder

namespace SourceEdit

theorem ofEdit_zero (e : Edit) : ofEdit 0 e = .replace e.offset e.length e.replacement := by
  rw [ofEdit, Nat.zero_add]

variable {p : Patch} {s : Sheet} {text : List Char} {start : Nat} {done es : List Edit}

/-- Edits that follow those made so far are drawn one behind the other. -/
theorem carriesInOrder_foldl_calls (hin : EditsIn text start es)
    (ha : ∀ call ∈ (es.map (ofEdit 0)).flatMap calls, call.Admissible text)
    (hdone : ∀ d ∈ done, d.stop ≤ start) (hshows : p.Shows text s)
    (hcarries : s.CarriesInOrder done) :
    ∃ s', (((es.map (ofEdit 0)).flatMap calls).foldl Patch.attempt p).Shows text s' ∧
      s'.CarriesInOrder (done ++ es) := by
  induction es generalizing p s start done with
  | nil => exact ⟨s, hshows, by simpa using hcarries⟩
  | cons e es ih =>
      rw [List.map_cons, List.flatMap_cons, ofEdit_zero] at ha ⊢
      have hbehind : ∀ d ∈ done, d.stop ≤ e.offset := fun d hd => Nat.le_trans (hdone d hd) hin.1
      have hnext := shows_foldl_calls_replace hshows
        fun call hcall => ha call (List.mem_append_left _ hcall)
      rw [List.foldl_append, List.append_cons]
      refine ih hin.2.2.2 (fun call hcall => ha call (List.mem_append_right _ hcall)) ?_ hnext
        (hcarries.replace hbehind)
      intro d hd
      obtain hd | hd := List.mem_append.mp hd
      · exact Nat.le_trans (hbehind d hd) (Nat.le_add_right _ _)
      · rw [List.mem_singleton.mp hd]

end SourceEdit

/-- **Edits in order.**  Let every edit of a text have its two ends at boundaries, and end at or
before the offset of the next.  Making the edits on a patch in the order of the list succeeds, and
the patch renders the text that one pass from the front gives, and that making them one by one from
the last to the first gives: every byte outside the ranges, and the text of each edit where its
range starts. -/
theorem Edit.exists_render_eq_of_isChain {text : String} {edits : List Edit}
    (hsize : byteLength text ≤ Patch.maxOffset)
    (hchain : edits.IsChain fun d e => d.stop ≤ e.offset)
    (hends : ∀ e ∈ edits, IsBoundary text.toList e.offset ∧ IsBoundary text.toList e.stop) :
    ∃ p, (edits.map (SourceEdit.ofEdit 0)).foldlM SourceEdit.apply (.ofText text) = .ok p ∧
      applyAll? edits text = some p.render ∧ applyBackward? edits text = some p.render ∧
      utf8 p.render.toList =
        (List.range (byteLength text + 1)).flatMap (spliceAt edits (utf8 text.toList)) := by
  have hin : EditsIn text.toList 0 edits := .of_isChain hchain hends fun _ _ => Nat.zero_le _
  have ha : ∀ call ∈ (edits.map (SourceEdit.ofEdit 0)).flatMap SourceEdit.calls,
      call.Admissible text.toList := by
    intro call hcall
    obtain ⟨_, hmap, hcall⟩ := List.mem_flatMap.mp hcall
    obtain ⟨e, he, rfl⟩ := List.mem_map.mp hmap
    obtain ⟨hleft, hright⟩ := hends e he
    rw [SourceEdit.ofEdit_zero] at hcall
    exact SourceEdit.admissible_of_mem_calls (Nat.le_trans hright.le hsize) hleft hright hcall
  have hshows := Patch.shows_ofText text
  obtain ⟨s, hdrawn, hcarries⟩ :=
    SourceEdit.carriesInOrder_foldl_calls hin ha (by simp) hshows .blank
  have hpatch : Patch.Carries _ text.toList edits := ⟨s, hdrawn, hcarries.toCarries⟩
  have happly := hpatch.applyAll?_eq_render hin
  refine ⟨_, ?_, happly, (applyBackward?_eq_applyAll? hin).trans happly, hpatch.utf8_render⟩
  rw [SourceEdit.foldlM_apply_eq, Patch.foldlM_apply hshows ha]

/-- An insertion where a replaced letter of two bytes starts, an edit that changes nothing between
two replacements, and an insertion at the end. -/
theorem Edit.exists_render_eq_of_isChain_crowded :
    let edits : List Edit := [⟨1, 0, "x"⟩, ⟨1, 2, "ü"⟩, ⟨3, 0, ""⟩, ⟨3, 1, ""⟩, ⟨4, 0, "z"⟩]
    byteLength "aéb" ≤ Patch.maxOffset ∧ (edits.IsChain fun d e => d.stop ≤ e.offset) ∧
      (∀ e ∈ edits, IsBoundary "aéb".toList e.offset ∧ IsBoundary "aéb".toList e.stop) ∧
      ∃ p, (edits.map (SourceEdit.ofEdit 0)).foldlM SourceEdit.apply (.ofText "aéb") = .ok p ∧
        p.render = "axüz" ∧ applyBackward? edits "aéb" = some "axüz" := by
  intro edits
  have hsize : byteLength "aéb" ≤ Patch.maxOffset := by decide
  have hchain : edits.IsChain fun d e => d.stop ≤ e.offset := by simp [edits, stop]
  have hends : ∀ e ∈ edits, IsBoundary "aéb".toList e.offset ∧ IsBoundary "aéb".toList e.stop := by
    intro e he
    simp only [edits, List.mem_cons, List.not_mem_nil, or_false] at he
    obtain rfl | rfl | rfl | rfl | rfl := he <;> decide
  obtain ⟨p, hp, happly, hbackward, -⟩ := exists_render_eq_of_isChain hsize hchain hends
  have hrender : p.render = "axüz" := by
    have hvalue : applyAll? edits "aéb" = some "axüz" := by decide +kernel
    exact Option.some.inj (happly.symm.trans hvalue)
  rw [hrender] at hbackward
  exact ⟨hsize, hchain, hends, p, hp, hrender, hbackward⟩

end TemplateMigration
