import TemplateMigration.Expression.Filter

/-!
# TemplateMigration.Proofs.Expression.FilterSearch

Which filters the search finds.

The search keeps one token, the last one outside every filter, and never looks back.  Here a bar
is judged by its place instead (`BarAccepted`): by the token before it, by an accepted bar there,
or by the broken segment that ends there.  `Reached` ties the two views together at every index
where the search stands, and `ReadsTo` says all that reading one segment does.  The search finds
the complete segments behind accepted bars, each once and in order.
-/

namespace TemplateMigration

namespace Filter

/-! ## Segments by index -/

/-- The token at an index is the given operator or punctuation mark. -/
def MarkAt (ts : List Token) (mark : String) (i : Nat) : Prop := ∃ t ∈ ts[i]?, t.isMark mark

/-- The token at an index can name a filter or stand as an argument. -/
def OperandAt (ts : List Token) (i : Nat) : Prop := ∃ t ∈ ts[i]?, t.isOperand

/-- From an index on, each argument stands behind a colon of its own. -/
def ArgsAt (ts : List Token) (start : Nat) (args : List Token) : Prop :=
  ∀ k arg, args[k]? = some arg →
    MarkAt ts ":" (start + 2 * k) ∧ ts[start + 2 * k + 1]? = some arg ∧ arg.isOperand

/-- A name and pairs of a colon and an argument, token by token behind the bar at an index.  The
pairs need not be all that stand there. -/
structure SegmentAt (f : Filter) (ts : List Token) (bar : Nat) : Prop where
  name : ts[bar + 1]? = some f.name
  operand : f.name.isOperand
  args : ArgsAt ts (bar + 2) f.args

/-- The index after a segment behind the bar at an index. -/
def past (f : Filter) (bar : Nat) : Nat := bar + 2 + 2 * f.args.length

/-- A segment with no colon after it, so with all its pairs and no argument missing. -/
def CompleteAt (f : Filter) (ts : List Token) (bar : Nat) : Prop :=
  f.SegmentAt ts bar ∧ ¬ MarkAt ts ":" (f.past bar)

/-- The bars that start a segment: one after a token that allows it, one after an accepted bar,
and one after the colon without an argument that ends the segment of an accepted bar. -/
inductive BarAccepted (ts : List Token) : Nat → Prop
  | after {i : Nat} {t : Token} (ht : ts[i]? = some t) (hallows : allowsBar t)
      (hbar : MarkAt ts "|" (i + 1)) : BarAccepted ts (i + 1)
  | bar {i : Nat} (h : BarAccepted ts i) (hbar : MarkAt ts "|" (i + 1)) : BarAccepted ts (i + 1)
  | broken {i : Nat} {f : Filter} (h : BarAccepted ts i) (hsegment : f.SegmentAt ts i)
      (hcolon : MarkAt ts ":" (f.past i)) (hbar : MarkAt ts "|" (f.past i + 1)) :
      BarAccepted ts (f.past i + 1)

variable {ts rest args : List Token} {i start : Nat} {t : Token} {f g : Filter}

/-- A bar that is accepted is a bar. -/
theorem BarAccepted.markAt (h : BarAccepted ts i) : MarkAt ts "|" i := by
  cases h <;> assumption

theorem MarkAt.of_getElem? {mark : String} (h : MarkAt ts mark i) (ht : ts[i]? = some t) :
    t.isMark mark := by
  obtain ⟨u, hu, hmark⟩ := h
  obtain rfl : t = u := Option.some.inj (ht.symm.trans hu)
  exact hmark

/-- An index holds one mark. -/
theorem MarkAt.unique {mark mark' : String} (h : MarkAt ts mark i) (h' : MarkAt ts mark' i) :
    mark = mark' := by
  obtain ⟨t, ht, hmark⟩ := h
  have hmark' := h'.of_getElem? ht
  rw [Token.isMark, Bool.and_eq_true, beq_iff_eq] at hmark hmark'
  exact hmark.2.symm.trans hmark'.2

/-- A mark is no operand. -/
theorem MarkAt.not_operandAt {mark : String} (h : MarkAt ts mark i) : ¬ OperandAt ts i := by
  rintro ⟨t, ht, hoperand⟩
  have hmark := h.of_getElem? ht
  simp [Token.isMark, hoperand] at hmark

theorem not_allowsBar_of_isMark (h : t.isMark "|") : ¬ allowsBar t := by
  simp only [Token.isMark, Bool.and_eq_true, Bool.not_eq_true', beq_iff_eq] at h
  simp [allowsBar, h.1, h.2]

theorem argsAt_nil : ArgsAt ts start [] := by
  intro k arg h
  simp at h

/-- Arguments stand behind a colon each. -/
theorem argsAt_cons {arg : Token} :
    ArgsAt ts start (arg :: args) ↔
      (MarkAt ts ":" start ∧ ts[start + 1]? = some arg ∧ arg.isOperand) ∧
        ArgsAt ts (start + 2) args := by
  constructor
  · intro h
    refine ⟨h 0 arg rfl, ?_⟩
    intro k other hother
    have hk := h (k + 1) other (by simpa using hother)
    rwa [show start + 2 * (k + 1) = start + 2 + 2 * k by omega] at hk
  · rintro ⟨hfirst, hrest⟩ k other hother
    cases k with
    | zero =>
        obtain rfl : arg = other := by simpa using hother
        exact hfirst
    | succ k =>
        have hk := hrest k other (by simpa using hother)
        rwa [show start + 2 + 2 * k = start + 2 * (k + 1) by omega] at hk

/-- Each pair of a run starts with a colon. -/
theorem ArgsAt.markAt (h : ArgsAt ts start args) {k : Nat} (hk : k < args.length) :
    MarkAt ts ":" (start + 2 * k) :=
  (h k _ (List.getElem?_eq_getElem hk)).1

/-- Each pair of a run ends with an operand. -/
theorem ArgsAt.operandAt (h : ArgsAt ts start args) {k : Nat} (hk : k < args.length) :
    OperandAt ts (start + 2 * k + 1) :=
  ⟨_, (h k _ (List.getElem?_eq_getElem hk)).2⟩

namespace SegmentAt

/-- Between a bar and the end of its segment stand operands and colons only. -/
theorem not_markAt_bar (h : f.SegmentAt ts i) {j : Nat} (hlt : i < j) (hj : j < f.past i) :
    ¬ MarkAt ts "|" j := by
  intro hbar
  rw [past] at hj
  obtain rfl | hle : j = i + 1 ∨ i + 2 ≤ j := by omega
  · exact hbar.not_operandAt ⟨_, h.name, h.operand⟩
  · obtain ⟨k, rfl | rfl⟩ : ∃ k, j = i + 2 + 2 * k ∨ j = i + 2 + 2 * k + 1 :=
      ⟨(j - (i + 2)) / 2, by omega⟩
    · have hcolon := hbar.unique (h.args.markAt (k := k) (by omega))
      contradiction
    · exact hbar.not_operandAt (h.args.operandAt (by omega))

/-- The last token of a segment allows a bar after it. -/
theorem barAccepted_past (h : f.SegmentAt ts i) (hbar : MarkAt ts "|" (f.past i)) :
    BarAccepted ts (f.past i) := by
  have hlast : ∃ t, ts[i + 1 + 2 * f.args.length]? = some t ∧ t.isOperand := by
    cases hargs : f.args.length with
    | zero => exact ⟨f.name, h.name, h.operand⟩
    | succ k =>
        obtain ⟨t, ht⟩ := h.args.operandAt (k := k) (by omega)
        exact ⟨t, by simpa [show i + 1 + 2 * (k + 1) = i + 2 + 2 * k + 1 by omega] using ht⟩
  obtain ⟨t, ht, hoperand⟩ := hlast
  have hpast : f.past i = i + 1 + 2 * f.args.length + 1 := by rw [past]; omega
  rw [hpast] at hbar ⊢
  exact .after ht (by simp [allowsBar, hoperand]) hbar

/-- A segment ends no later than another behind the same bar that no pair follows. -/
theorem past_le (h : f.SegmentAt ts i)
    (hend : ¬ (MarkAt ts ":" (g.past i) ∧ OperandAt ts (g.past i + 1))) : f.past i ≤ g.past i := by
  rw [past, past]
  refine Nat.le_of_not_lt fun hlt => ?_
  have hk : g.args.length < f.args.length := by omega
  exact hend ⟨h.args.markAt hk, h.args.operandAt hk⟩

end SegmentAt

/-- One filter at most is complete behind a bar. -/
theorem CompleteAt.unique (hf : f.CompleteAt ts i) (hg : g.CompleteAt ts i) : f = g := by
  have hle := hf.1.past_le fun h => hg.2 h.1
  have hge := hg.1.past_le fun h => hf.2 h.1
  have hlength : f.args.length = g.args.length := by
    rw [past, past] at hle hge
    omega
  have hname : f.name = g.name := Option.some.inj (hf.1.name.symm.trans hg.1.name)
  have hargs : f.args = g.args := by
    apply List.ext_getElem hlength
    intro k hk hk'
    have hfk := (hf.1.args k _ (List.getElem?_eq_getElem hk)).2.1
    have hgk := (hg.1.args k _ (List.getElem?_eq_getElem hk')).2.1
    exact Option.some.inj (hfk.symm.trans hgk)
  cases f
  cases g
  simp_all

/-! ## Reading a segment -/

/-- The first of the tokens left at an index stands there. -/
theorem getElem?_of_drop_eq_cons (h : ts.drop i = t :: rest) :
    ts[i]? = some t ∧ ts.drop (i + 1) = rest := by
  constructor
  · rw [← Nat.add_zero i, ← List.getElem?_drop, h]
    rfl
  · simpa using congrArg List.tail h

theorem getElem?_of_drop_eq_nil (h : ts.drop i = []) : ts[i]? = none :=
  List.getElem?_eq_none (List.drop_eq_nil_iff.mp h)

/-- Reading arguments takes all the pairs, and with them a colon that has no argument. -/
theorem readArgs_of_drop (h : ts.drop start = rest) :
    ∃ args, ArgsAt ts start args ∧
      ((readArgs rest = (some args, ts.drop (start + 2 * args.length)) ∧
          ¬ MarkAt ts ":" (start + 2 * args.length)) ∨
        (readArgs rest = (none, ts.drop (start + 2 * args.length + 1)) ∧
          MarkAt ts ":" (start + 2 * args.length) ∧
          ¬ OperandAt ts (start + 2 * args.length + 1))) := by
  fun_induction readArgs rest generalizing start with
  | case1 =>
      refine ⟨[], argsAt_nil, .inl ⟨by simp [h], ?_⟩⟩
      rintro ⟨t, ht, -⟩
      simp [getElem?_of_drop_eq_nil h] at ht
  | case2 t hmark =>
      obtain ⟨ht, hdrop⟩ := getElem?_of_drop_eq_cons h
      refine ⟨[], argsAt_nil, .inr ⟨by simp [hdrop], ⟨t, ht, hmark⟩, ?_⟩⟩
      rintro ⟨u, hu, -⟩
      simp [getElem?_of_drop_eq_nil hdrop] at hu
  | case3 t hmark =>
      obtain ⟨ht, -⟩ := getElem?_of_drop_eq_cons h
      exact ⟨[], argsAt_nil, .inl ⟨by simp [h], fun hcolon => hmark (hcolon.of_getElem? ht)⟩⟩
  | case4 t arg rest hmark hoperand args' rest' hread ih =>
      obtain ⟨ht, hdrop⟩ := getElem?_of_drop_eq_cons h
      obtain ⟨harg, hdrop⟩ := getElem?_of_drop_eq_cons hdrop
      obtain ⟨args, hargs, hends⟩ := ih hdrop
      refine ⟨arg :: args, argsAt_cons.mpr ⟨⟨⟨t, ht, hmark⟩, harg, hoperand⟩, hargs⟩, ?_⟩
      rw [hread] at hends
      have hshift : start + 2 * (args.length + 1) = start + 2 + 2 * args.length := by omega
      rw [List.length_cons, hshift]
      obtain ⟨heq, hend⟩ | ⟨heq, hend⟩ := hends
      · obtain ⟨rfl, rfl⟩ := Prod.mk.inj heq
        exact .inl ⟨rfl, hend⟩
      · obtain ⟨rfl, rfl⟩ := Prod.mk.inj heq
        exact .inr ⟨rfl, hend⟩
  | case5 t arg rest hmark hoperand =>
      obtain ⟨ht, hdrop⟩ := getElem?_of_drop_eq_cons h
      obtain ⟨harg, -⟩ := getElem?_of_drop_eq_cons hdrop
      refine ⟨[], argsAt_nil, .inr ⟨by simp [hdrop], ⟨t, ht, hmark⟩, ?_⟩⟩
      rintro ⟨u, hu, hoperand'⟩
      obtain rfl : arg = u := Option.some.inj (harg.symm.trans hu)
      exact hoperand hoperand'
  | case6 t arg rest hmark =>
      obtain ⟨ht, -⟩ := getElem?_of_drop_eq_cons h
      exact ⟨[], argsAt_nil, .inl ⟨by simp [h], fun hcolon => hmark (hcolon.of_getElem? ht)⟩⟩

/-- What reading behind the bar at an index does: it finds the filter that is complete there, if
one is, and goes on at a later index with no bar in between.  A bar there is accepted if the first
one is, and no segment behind the first one has its next colon there or later. -/
structure ReadsTo (ts : List Token) (bar : Nat) (found : Option Filter) (next : Nat) : Prop where
  lt : bar < next
  found_iff : ∀ f : Filter, found = some f ↔ f.CompleteAt ts bar
  past_le : ∀ f : Filter, found = some f → f.past bar ≤ next
  no_bar : ∀ j, bar < j → j < next → ¬ MarkAt ts "|" j
  accepted : BarAccepted ts bar → MarkAt ts "|" next → BarAccepted ts next
  colon_lt : ∀ f : Filter, f.SegmentAt ts bar → MarkAt ts ":" (f.past bar) → f.past bar < next

/-- A filter ends behind its bar. -/
theorem lt_past (f : Filter) (bar : Nat) : bar < f.past bar := by
  rw [past]
  omega

/-- A complete filter is read. -/
theorem CompleteAt.readsTo (h : f.CompleteAt ts i) : ReadsTo ts i (some f) (f.past i) where
  lt := f.lt_past i
  found_iff g := by
    rw [Option.some.injEq]
    exact ⟨fun hg => hg ▸ h, h.unique⟩
  past_le g hg := Nat.le_of_eq (by rw [Option.some.inj hg])
  no_bar j hlt hj := h.1.not_markAt_bar hlt hj
  accepted _ hbar := h.1.barAccepted_past hbar
  colon_lt g hg hcolon := by
    refine Nat.lt_of_le_of_ne (hg.past_le fun hend => h.2 hend.1) ?_
    intro heq
    exact h.2 (heq ▸ hcolon)

/-- A filter with a colon that no operand follows is passed over with the colon. -/
theorem SegmentAt.readsTo (h : f.SegmentAt ts i) (hcolon : MarkAt ts ":" (f.past i))
    (hoperand : ¬ OperandAt ts (f.past i + 1)) : ReadsTo ts i none (f.past i + 1) where
  lt := Nat.lt_succ_of_lt (f.lt_past i)
  found_iff g := by
    refine ⟨fun hg => by contradiction, fun hg => ?_⟩
    have hle := hg.1.past_le fun hend => hoperand hend.2
    have hge := h.past_le fun hend => hg.2 hend.1
    exact absurd (Nat.le_antisymm hge hle ▸ hcolon) hg.2
  past_le g hg := by contradiction
  no_bar j hlt hj := by
    obtain hj | rfl : j < f.past i ∨ j = f.past i := by omega
    · exact h.not_markAt_bar hlt hj
    · intro hbar
      have := hbar.unique hcolon
      contradiction
  accepted haccepted hbar := .broken haccepted h hcolon hbar
  colon_lt g hg _ := Nat.lt_succ_of_le (hg.past_le fun hend => hoperand hend.2)

/-- A bar that no operand follows is passed over. -/
theorem readsTo_of_not_operandAt (h : ¬ OperandAt ts (i + 1)) : ReadsTo ts i none (i + 1) where
  lt := Nat.lt_succ_self i
  found_iff g := ⟨fun hg => by contradiction, fun hg => absurd ⟨_, hg.1.name, hg.1.operand⟩ h⟩
  past_le g hg := by contradiction
  no_bar j hlt hj := by omega
  accepted haccepted hbar := .bar haccepted hbar
  colon_lt g hg _ := absurd ⟨_, hg.name, hg.operand⟩ h

/-- Reading behind a bar finds what is complete there and goes on after what it took. -/
theorem exists_readsTo (h : ts.drop (i + 1) = rest) :
    ∃ next, ReadsTo ts i (read rest).1 next ∧ (read rest).2 = ts.drop next := by
  cases rest with
  | nil =>
      refine ⟨i + 1, readsTo_of_not_operandAt ?_, h.symm⟩
      rintro ⟨t, ht, -⟩
      simp [getElem?_of_drop_eq_nil h] at ht
  | cons name rest =>
      obtain ⟨hname, hdrop⟩ := getElem?_of_drop_eq_cons h
      rw [read]
      split
      · next hoperand =>
          obtain ⟨args, hargs, ⟨heq, hend⟩ | ⟨heq, hcolon, hmissing⟩⟩ := readArgs_of_drop hdrop
          · have hcomplete : (Filter.mk name args).CompleteAt ts i :=
              ⟨⟨hname, hoperand, hargs⟩, hend⟩
            exact ⟨_, by rw [heq]; exact hcomplete.readsTo, by rw [heq]; rfl⟩
          · have hsegment : (Filter.mk name args).SegmentAt ts i := ⟨hname, hoperand, hargs⟩
            exact ⟨_, by rw [heq]; exact hsegment.readsTo hcolon hmissing, by rw [heq]; rfl⟩
      · next hoperand =>
          refine ⟨i + 1, readsTo_of_not_operandAt ?_, h.symm⟩
          rintro ⟨t, ht, hoperand'⟩
          obtain rfl : name = t := Option.some.inj (hname.symm.trans ht)
          exact hoperand hoperand'

/-! ## The search -/

/-- Where the search stands, with the last token outside every filter: that token allows a bar
there exactly if the bar is accepted, and no accepted bar before has a segment whose next colon is
still to come. -/
structure Reached (ts : List Token) (before : Option Token) (i : Nat) : Prop where
  allows_iff : MarkAt ts "|" i → (before.any allowsBar ↔ BarAccepted ts i)
  colon_lt : ∀ (bar : Nat) (f : Filter), bar < i → BarAccepted ts bar → f.SegmentAt ts bar →
    MarkAt ts ":" (f.past bar) → f.past bar < i

variable {before : Option Token}

/-- A search begins at the first token. -/
theorem reached_zero : Reached ts none 0 where
  allows_iff _ := by
    refine ⟨fun h => by contradiction, fun h => ?_⟩
    generalize hzero : 0 = n at h
    cases h <;> omega
  colon_lt bar f hlt := absurd hlt (Nat.not_lt_zero bar)

namespace Reached

/-- A step over the segment of an accepted bar keeps the token. -/
theorem of_readsTo {found : Option Filter} {next : Nat} (h : Reached ts before i)
    (hbar : BarAccepted ts i) (hreads : ReadsTo ts i found next) : Reached ts before next where
  allows_iff hmark :=
    iff_of_true ((h.allows_iff hbar.markAt).mpr hbar) (hreads.accepted hbar hmark)
  colon_lt j f hlt hj hsegment hcolon := by
    obtain hlt | rfl | hgt := Nat.lt_trichotomy j i
    · exact Nat.lt_trans (h.colon_lt j f hlt hj hsegment hcolon) hreads.lt
    · exact hreads.colon_lt f hsegment hcolon
    · exact absurd hj.markAt (hreads.no_bar j hgt hlt)

/-- A colon that ends a search before it lies behind the token looked at next. -/
theorem colon_lt_succ (h : Reached ts before i) (hbar : ¬ BarAccepted ts i) (bar : Nat) (f : Filter)
    (hlt : bar < i + 1) (haccepted : BarAccepted ts bar) (hsegment : f.SegmentAt ts bar)
    (hcolon : MarkAt ts ":" (f.past bar)) : f.past bar < i + 1 := by
  have hne : bar ≠ i := fun heq => hbar (heq ▸ haccepted)
  exact Nat.lt_succ_of_lt (h.colon_lt bar f (by omega) haccepted hsegment hcolon)

/-- A bar that is not accepted has only the token before it to be accepted by. -/
theorem barAccepted_succ_iff (h : Reached ts before i) (hbar : ¬ BarAccepted ts i)
    (hmark : MarkAt ts "|" (i + 1)) (ht : ts[i]? = some t) :
    BarAccepted ts (i + 1) ↔ allowsBar t := by
  refine ⟨fun haccepted => ?_, fun hallows => .after ht hallows hmark⟩
  generalize hsucc : i + 1 = n at haccepted
  cases haccepted with
  | @after j u hu hallows _ =>
      obtain rfl : i = j := by omega
      obtain rfl : t = u := Option.some.inj (ht.symm.trans hu)
      exact hallows
  | @bar j hj _ =>
      obtain rfl : i = j := by omega
      exact absurd hj hbar
  | @broken j f hj hsegment hcolon _ =>
      -- the segment of `j` would have its next colon at `i`, where the search stands
      have hlt := h.colon_lt j f (by rw [past] at hsucc; omega) hj hsegment hcolon
      omega

/-- A step over a bar that is not accepted keeps the token. -/
theorem of_bar (h : Reached ts before i) (ht : ts[i]? = some t) (hmark : t.isMark "|")
    (hallows : ¬ before.any allowsBar) : Reached ts before (i + 1) := by
  have hbar : ¬ BarAccepted ts i := fun hbar => hallows ((h.allows_iff hbar.markAt).mpr hbar)
  refine ⟨fun hnext => ?_, h.colon_lt_succ hbar⟩
  rw [h.barAccepted_succ_iff hbar hnext ht]
  exact iff_of_false hallows (not_allowsBar_of_isMark hmark)

/-- A step over any other token makes it the last one outside every filter. -/
theorem of_token (h : Reached ts before i) (ht : ts[i]? = some t) (hmark : ¬ t.isMark "|") :
    Reached ts (some t) (i + 1) := by
  have hbar : ¬ BarAccepted ts i := fun hbar => hmark (hbar.markAt.of_getElem? ht)
  refine ⟨fun hnext => ?_, h.colon_lt_succ hbar⟩
  rw [h.barAccepted_succ_iff hbar hnext ht]
  simp

end Reached

/-- The filters complete behind accepted bars from an index on, each with its bar: all of them, in
order and apart. -/
structure Finds (ts : List Token) (i : Nat) (found : List (Nat × Filter)) : Prop where
  mem_iff : ∀ bar f, (bar, f) ∈ found ↔ i ≤ bar ∧ BarAccepted ts bar ∧ f.CompleteAt ts bar
  apart : found.Pairwise fun p q => p.2.past p.1 ≤ q.1

namespace Finds

variable {found : List (Nat × Filter)} {next : Nat}

/-- At the end no filter is found. -/
theorem nil (h : ts.drop i = []) : Finds ts i [] where
  mem_iff bar f := by
    refine ⟨fun hmem => by contradiction, fun ⟨hle, haccepted, _⟩ => ?_⟩
    obtain ⟨t, ht, -⟩ := haccepted.markAt
    obtain ⟨hlt, -⟩ := List.getElem?_eq_some_iff.mp ht
    have := List.drop_eq_nil_iff.mp h
    omega
  apart := .nil

/-- A stretch without accepted bars adds nothing. -/
theorem mono (h : Finds ts next found) (hle : i ≤ next)
    (hnone : ∀ (bar : Nat) (f : Filter), i ≤ bar → bar < next → BarAccepted ts bar →
      ¬ f.CompleteAt ts bar) :
    Finds ts i found where
  mem_iff bar f := by
    rw [h.mem_iff]
    refine ⟨fun ⟨hge, hmem⟩ => ⟨Nat.le_trans hle hge, hmem⟩, fun ⟨hge, hmem⟩ => ⟨?_, hmem⟩⟩
    exact Nat.le_of_not_lt fun hlt => hnone bar f hge hlt hmem.1 hmem.2
  apart := h.apart

/-- The filter behind an accepted bar comes before the others. -/
theorem cons (h : Finds ts next found) (hbar : BarAccepted ts i)
    (hreads : ReadsTo ts i (some f) next) : Finds ts i ((i, f) :: found) where
  mem_iff bar g := by
    rw [List.mem_cons, Prod.mk.injEq, h.mem_iff]
    constructor
    · rintro (⟨rfl, rfl⟩ | ⟨hge, hmem⟩)
      · exact ⟨Nat.le_refl _, hbar, (hreads.found_iff g).mp rfl⟩
      · exact ⟨Nat.le_trans (Nat.le_of_lt hreads.lt) hge, hmem⟩
    · rintro ⟨hge, haccepted, hcomplete⟩
      obtain rfl | hlt := Nat.eq_or_lt_of_le hge
      · exact .inl ⟨rfl, (Option.some.inj ((hreads.found_iff g).mpr hcomplete)).symm⟩
      · have hnext : next ≤ bar :=
          Nat.le_of_not_lt fun hnext => hreads.no_bar bar hlt hnext haccepted.markAt
        exact .inr ⟨hnext, haccepted, hcomplete⟩
  apart := by
    refine List.pairwise_cons.mpr ⟨?_, h.apart⟩
    rintro ⟨bar, g⟩ hmem
    exact Nat.le_trans (hreads.past_le f rfl) ((h.mem_iff bar g).mp hmem).1

end Finds

/-- The search from an index on.  The induction follows the search; `Reached` says which bars it
takes to be accepted. -/
theorem exists_finds_findAfter (before : Option Token) (rest : List Token) (i : Nat)
    (hdrop : ts.drop i = rest) (h : Reached ts before i) :
    ∃ found, Finds ts i found ∧ findAfter before rest = found.map Prod.snd := by
  fun_induction findAfter before rest generalizing i with
  | case1 before => exact ⟨[], .nil hdrop, rfl⟩
  | case2 before t rest hmark hallows found ih =>
      obtain ⟨ht, hrest⟩ := getElem?_of_drop_eq_cons hdrop
      have hbar : BarAccepted ts i := (h.allows_iff ⟨t, ht, hmark⟩).mp hallows
      obtain ⟨next, hreads, hnext⟩ := exists_readsTo hrest
      obtain ⟨more, hmore, heq⟩ := ih next hnext.symm (h.of_readsTo hbar hreads)
      cases hfound : (read rest).1 with
      | none =>
          refine ⟨more, hmore.mono (Nat.le_of_lt hreads.lt) ?_, by rw [heq]; rfl⟩
          intro bar f hge hlt haccepted hcomplete
          obtain rfl | hgt := Nat.eq_or_lt_of_le hge
          · have := (hreads.found_iff f).mpr hcomplete
            exact absurd (hfound.symm.trans this) (by simp)
          · exact hreads.no_bar bar hgt hlt haccepted.markAt
      | some f =>
          rw [hfound] at hreads
          exact ⟨(i, f) :: more, hmore.cons hbar hreads, by rw [heq]; rfl⟩
  | case3 before t rest hmark hallows ih =>
      obtain ⟨ht, hrest⟩ := getElem?_of_drop_eq_cons hdrop
      obtain ⟨found, hfound, heq⟩ := ih (i + 1) hrest (h.of_bar ht hmark hallows)
      refine ⟨found, hfound.mono (Nat.le_succ i) ?_, heq⟩
      intro bar f hge hlt haccepted
      obtain rfl : i = bar := by omega
      exact absurd ((h.allows_iff haccepted.markAt).mpr haccepted) hallows
  | case4 before t rest hmark ih =>
      obtain ⟨ht, hrest⟩ := getElem?_of_drop_eq_cons hdrop
      obtain ⟨found, hfound, heq⟩ := ih (i + 1) hrest (h.of_token ht hmark)
      refine ⟨found, hfound.mono (Nat.le_succ i) ?_, heq⟩
      intro bar f hge hlt haccepted
      obtain rfl : i = bar := by omega
      exact absurd (haccepted.markAt.of_getElem? ht) hmark

/-- The search finds exactly the filters that are complete behind accepted bars.  Each comes with
its bar, in the order of the bars, and ends before the next one. -/
theorem exists_findAll_eq (ts : List Token) :
    ∃ found : List (Nat × Filter),
      findAll ts = found.map Prod.snd ∧
      (∀ bar f, (bar, f) ∈ found ↔ BarAccepted ts bar ∧ f.CompleteAt ts bar) ∧
      found.Pairwise (fun p q => p.1 < q.1 ∧ p.2.past p.1 ≤ q.1) ∧
      ∀ f ∈ findAll ts, f.tokens ≠ [] := by
  obtain ⟨found, hfinds, heq⟩ := exists_finds_findAfter none ts 0 rfl reached_zero
  refine ⟨found, heq, ?_, ?_, ?_⟩
  · intro bar f
    rw [hfinds.mem_iff]
    simp
  · refine hfinds.apart.imp ?_
    intro p q hle
    refine ⟨?_, hle⟩
    rw [past] at hle
    omega
  · intro f _
    simp [tokens]

-- the second bar is accepted after the first, the third after a colon that lacks its argument
example : (findAll (Tokens.read "x | | a:1: | b:2").list).map chain = ["b:2"] := by decide +kernel

end Filter

end TemplateMigration
