import TemplateMigration.Proofs.Migration.Splice

/-!
# TemplateMigration.Proofs.Migration.Parts

Migrating a template part by part.

Edits of a part of a text make another text of it (`Edit.Splices`), in whatever order they come.
What they make of neighbouring parts is put together (`Splices.append`), and what they make of a
whole template is the text that its migration renders (`Migration.ofTemplate_eq_of_splices`).  So
to know a migrated template it is enough to know what becomes of each of its parts.
-/

namespace TemplateMigration

namespace Edit

variable {offset : Nat} {part part' out out' : List Char} {e : Edit} {es es' : List Edit}

/-! ## One pass over neighbouring parts -/

/-- A pass that succeeds divides the text at its first edit. -/
theorem exists_of_applyFrom?_cons (h : applyFrom? offset part (e :: es) = some out) :
    ∃ front gone after tail, part = front ++ gone ++ after ∧
      offset + byteCount front = e.offset ∧ byteCount gone = e.length ∧
      applyFrom? e.stop after es = some tail ∧ out = front ++ e.replacement.toList ++ tail := by
  rw [applyFrom?] at h
  split at h
  · contradiction
  · next hge =>
      obtain ⟨⟨front, here⟩, hcut, h⟩ := Option.bind_eq_some_iff.mp h
      obtain ⟨⟨gone, after⟩, hcut', h⟩ := Option.bind_eq_some_iff.mp h
      obtain ⟨tail, htail, rfl⟩ := Option.map_eq_some_iff.mp h
      obtain ⟨hpart, hfront⟩ := cut?_eq_some_iff.mp hcut
      obtain ⟨rfl, hgone⟩ := cut?_eq_some_iff.mp hcut'
      refine ⟨front, gone, after, tail, ?_, ?_, hgone, htail, rfl⟩
      · rw [hpart, List.append_assoc]
      · omega

/-- Passes over two neighbouring parts make one pass over both. -/
theorem applyFrom?_append (h : applyFrom? offset part es = some out)
    (h' : applyFrom? (offset + byteCount part) part' es' = some out') :
    applyFrom? offset (part ++ part') (es ++ es') = some (out ++ out') := by
  induction es generalizing offset part out with
  | nil =>
      obtain rfl : part = out := Option.some.inj h
      cases es' with
      | nil =>
          obtain rfl : part' = out' := Option.some.inj h'
          rfl
      | cons e es' =>
          obtain ⟨front, gone, after, tail, rfl, hfront, hgone, htail, rfl⟩ :=
            exists_of_applyFrom?_cons h'
          have hfront' : offset + byteCount (part ++ front) = e.offset := by
            rw [byteCount_append]
            omega
          have hsplit : part ++ (front ++ gone ++ after) = (part ++ front) ++ gone ++ after := by
            simp only [List.append_assoc]
          rw [List.nil_append, hsplit, applyFrom?_cons hfront' hgone, htail]
          simp
  | cons e es ih =>
      obtain ⟨front, gone, after, tail, rfl, hfront, hgone, htail, rfl⟩ :=
        exists_of_applyFrom?_cons h
      have hstop : e.stop + byteCount after = offset + byteCount (front ++ gone ++ after) := by
        rw [byteCount_append, byteCount_append, stop]
        omega
      rw [← hstop] at h'
      rw [List.cons_append, List.append_assoc, applyFrom?_cons hfront hgone, ih htail h']
      simp

/-- A pass takes its edits in ascending order. -/
theorem pairwise_of_applyFrom? (h : applyFrom? offset part es = some out) :
    (∀ e ∈ es, offset ≤ e.offset) ∧ es.Pairwise fun a b => a.stop ≤ b.offset := by
  induction es generalizing offset part out with
  | nil => simp
  | cons e es ih =>
      obtain ⟨front, gone, after, tail, -, hfront, -, htail, -⟩ := exists_of_applyFrom?_cons h
      obtain ⟨hle, hpairwise⟩ := ih htail
      have hstop : e.offset ≤ e.stop := Nat.le_add_right _ _
      refine ⟨?_, List.pairwise_cons.mpr ⟨hle, hpairwise⟩⟩
      intro d hd
      cases List.mem_cons.mp hd with
      | inl heq =>
          rw [heq]
          omega
      | inr hmem =>
          have := hle d hmem
          omega

theorem ascends_of_applyFrom? (h : applyFrom? offset part es = some out) :
    es.Pairwise fun a b => a.offset ≤ b.offset :=
  (pairwise_of_applyFrom? h).2.imp (Nat.le_trans (Nat.le_add_right _ _))

/-- Edits that are apart have one ascending order. -/
theorem eq_of_applyFrom? (hapart : es.Pairwise Apart) {sorted fs : List Edit}
    (hsorted : sorted.Perm es) (happly : applyFrom? offset part sorted = some out)
    (hfs : fs.Perm es) (hascend : fs.Pairwise fun a b => a.offset ≤ b.offset) : fs = sorted := by
  have hbefore : ∀ {gs : List Edit}, gs.Perm es → gs.Pairwise (fun a b => a.offset ≤ b.offset) →
      gs.Pairwise Before := by
    intro gs hgs hascend
    refine (hascend.and (hgs.symm.pairwise hapart Apart.symm)).imp ?_
    rintro a b ⟨hle, hab⟩
    have : a.offset ≤ a.stop := Nat.le_add_right _ _
    simp only [Apart, Before] at hab ⊢
    omega
  refine List.Perm.eq_of_pairwise ?_ (hbefore hfs hascend)
    (hbefore hsorted (ascends_of_applyFrom? happly)) (hfs.trans hsorted.symm)
  intro a b _ _ hab hba
  exact absurd hab.2 (Nat.not_lt_of_lt hba.2)

/-! ## What edits make of a part -/

/-- Edits of a part of a text that starts at an offset make a text of it, when they are made in
ascending order. -/
def Splices (offset : Nat) (part : List Char) (es : List Edit) (out : List Char) : Prop :=
  ∃ sorted, sorted.Perm es ∧ applyFrom? offset part sorted = some out

namespace Splices

theorem nil (offset : Nat) (part : List Char) : Splices offset part [] part := ⟨[], .refl _, rfl⟩

theorem of_applyFrom? (h : applyFrom? offset part es = some out) : Splices offset part es out :=
  ⟨es, .refl _, h⟩

/-- A whole part is replaced. -/
theorem replace (offset : Nat) (part : List Char) (new : String) :
    Splices offset part [⟨offset, byteCount part, new⟩] new.toList := by
  have hpass : applyFrom? offset ([] ++ part ++ []) [⟨offset, byteCount part, new⟩] = _ :=
    applyFrom?_cons rfl rfl
  refine of_applyFrom? ?_
  simpa [applyFrom?] using hpass

/-- A text is put in front of a part. -/
theorem insert (offset : Nat) (part : List Char) (new : String) :
    Splices offset part [⟨offset, 0, new⟩] (new.toList ++ part) := by
  have hpass : applyFrom? offset ([] ++ [] ++ part) [⟨offset, 0, new⟩] = _ :=
    applyFrom?_cons rfl rfl
  refine of_applyFrom? ?_
  simpa [applyFrom?] using hpass

theorem perm (h : Splices offset part es out) (hperm : es.Perm es') :
    Splices offset part es' out := by
  obtain ⟨sorted, hsorted, happly⟩ := h
  exact ⟨sorted, hsorted.trans hperm, happly⟩

/-- What becomes of neighbouring parts is put together. -/
theorem append (h : Splices offset part es out)
    (h' : Splices (offset + byteCount part) part' es' out') :
    Splices offset (part ++ part') (es ++ es') (out ++ out') := by
  obtain ⟨sorted, hsorted, happly⟩ := h
  obtain ⟨sorted', hsorted', happly'⟩ := h'
  exact ⟨sorted ++ sorted', hsorted.append hsorted', applyFrom?_append happly happly'⟩

/-- Edits that are apart make one text. -/
theorem unique (h : Splices offset part es out) (h' : Splices offset part es out')
    (hapart : es.Pairwise Apart) : out = out' := by
  obtain ⟨sorted, hsorted, happly⟩ := h
  obtain ⟨sorted', hsorted', happly'⟩ := h'
  have heq := eq_of_applyFrom? hapart hsorted happly hsorted' (ascends_of_applyFrom? happly')
  rw [heq, happly] at happly'
  exact Option.some.inj happly'

end Splices

end Edit

/-- Edits that are laid in the rest of a text make a text of it. -/
theorem Laid.exists_splices {text before rest : List Char} {start stop : Nat} {es : List Edit}
    (h : Laid text start stop es) (htext : text = before ++ rest)
    (hbefore : byteCount before = start) : ∃ out, Edit.Splices start rest es out := by
  have hperm : (es.mergeSort fun a b => a.offset ≤ b.offset).Perm es := List.mergeSort_perm _ _
  have hsorted : (es.mergeSort fun a b => a.offset ≤ b.offset).Pairwise
      fun a b => decide (a.offset ≤ b.offset) = true :=
    List.pairwise_mergeSort (by simp; omega) (by simp; omega) es
  have hin := (h.perm hperm.symm).editsIn (hsorted.imp of_decide_eq_true)
  obtain ⟨out, hout⟩ := Option.isSome_iff_exists.mp (Edit.isSome_applyFrom? hin htext hbefore)
  exact ⟨out, _, hperm, hout⟩

/-! ## What a migration gives -/

/-- A migration is known by what its edits make of the source. -/
theorem Migration.ofTemplate_eq_of_splices (rules : RuleSet) {source : String} {out : List Char}
    (hsize : byteLength source ≤ Patch.maxOffset)
    (h : Edit.Splices 0 source.toList (rules.forestChanges (Node.parse source)).replacements out) :
    ofTemplate rules source =
      .ok ⟨source, VoidEndTag.strip (String.ofList out),
        (Message.errorsFirst (rules.forestChanges (Node.parse source)).messages).map
          (·.place source)⟩ := by
  have hlaid := rules.laid_forestChanges source
  have hblank : (Patch.ofText source).Carries source.toList [] :=
    ⟨.blank, Patch.shows_ofText source, .blank⟩
  obtain ⟨-, hcarries⟩ := SourceEdit.carries_foldl_flatMap_calls _ hblank
    (fun call hcall => rules.admissible_of_mem_callsOf hsize hcall) hlaid.apart
  obtain ⟨sorted, hperm, happly⟩ := hcarries.exists_applyAll? hlaid
  obtain ⟨rendered, hrendered, htext⟩ := Option.map_eq_some_iff.mp happly
  have hout : out = rendered := h.unique ⟨sorted, hperm, hrendered⟩ hlaid.apart
  rw [ofTemplate_eq_ok rules hsize, hout, htext]
  rfl

end TemplateMigration
