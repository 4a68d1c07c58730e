import TemplateMigration.Proofs.Expression.QuotedStrings
import TemplateMigration.Proofs.Expression.StringValue
import TemplateMigration.Proofs.Migration.AliasRemoval

/-!
# TemplateMigration.Proofs.Migration.AliasInStrings

A string loses its value with the alias.

Read a string before and after the removal side by side.  An alias in the string gives letters that
only the first reading has, and from then on the first reading is ahead by a queue of letters: what
it gives next must be what stands at the front of the queue in the second.  An alias behind a
backslash turns the escape to what follows, but then that has to be a letter of the queue, so both
readings are in step again one item later, and the queue is longer than before.  The letters in the
queue are ordinary ones, which neither escape nor close a string.  So the two readings end together,
and the values differ by the queue (`inStep`).
-/

namespace TemplateMigration

open Lexeme

/-! ## Surrogates in values -/

namespace StringItem

variable {n : Nat} {items items' : List StringItem}

/-- A character of one UTF-16 unit that does not stand for a lone surrogate, and that neither
escapes nor closes a string. -/
def Ordinary (c : Char) : Prop :=
  c ≠ '\\' ∧ ¬ isQuote c ∧ c ≠ replacement ∧ Utf16.units c = [c.toNat]

/-- A low surrogate without a high one before it is decoded as the replacement character. -/
theorem decode_low (hlow : isLowSurrogate n) (items : List StringItem) :
    decode (unit n :: items) = replacement :: decode items := by
  have hhigh : ¬ isHighSurrogate n := by
    rw [isHighSurrogate_iff]
    rw [isLowSurrogate_iff] at hlow
    omega
  rw [decode.eq_def]
  simp [hhigh, hlow]

/-- The first half of a pair takes the second with it or is lost. -/
theorem decode_high (hhigh : isHighSurrogate n) (items : List StringItem) :
    (∃ m rest c, items = unit m :: rest ∧ isLowSurrogate m ∧ Utf16.units c = [n, m] ∧
      decode (unit n :: items) = c :: decode rest) ∨
    decode (unit n :: items) = replacement :: decode items := by
  rw [decode.eq_def]
  simp only [hhigh, if_true]
  split
  · next m rest =>
      split
      · next hlow => exact .inl ⟨m, rest, _, rfl, hlow, units_ofNat_pair hhigh hlow, rfl⟩
      · exact .inr rfl
  · exact .inr rfl

/-- A surrogate gives no ordinary character. -/
theorem exists_decode_surrogate (h : isHighSurrogate n ∨ isLowSurrogate n)
    (items : List StringItem) : ∃ c cs, decode (unit n :: items) = c :: cs ∧ ¬ Ordinary c := by
  obtain hhigh | hlow := h
  · obtain ⟨m, rest, c, -, -, hunits, heq⟩ | heq := decode_high hhigh items
    · exact ⟨c, decode rest, heq, by simp [Ordinary, hunits]⟩
    · exact ⟨_, _, heq, by simp [Ordinary]⟩
  · exact ⟨_, _, decode_low hlow items, by simp [Ordinary]⟩

theorem decode_unit (hhigh : ¬ isHighSurrogate n) (hlow : ¬ isLowSurrogate n)
    (items : List StringItem) : decode (unit n :: items) = Char.ofNat n :: decode items := by
  rw [decode.eq_def]
  simp [hhigh, hlow]

/-- What follows a unit counts for itself. -/
theorem decode_unit_cancel (h : decode (unit n :: items) = decode (unit n :: items')) :
    decode items = decode items' := by
  by_cases hhigh : isHighSurrogate n
  · have hne {c : Char} {m : Nat} (hunits : Utf16.units c = [n, m]) : c ≠ replacement := by
      rintro rfl
      simp [Utf16.units, replacement] at hunits
    obtain ⟨m, rest, c, rfl, hm, hunits, heq⟩ | heq := decode_high hhigh items <;>
      obtain ⟨m', rest', c', rfl, hm', hunits', heq'⟩ | heq' := decode_high hhigh items' <;>
      rw [heq, heq'] at h <;> obtain ⟨hc, h⟩ := List.cons.inj h
    · rw [decode_low hm, decode_low hm', h]
    · exact absurd hc (hne hunits)
    · exact absurd hc.symm (hne hunits')
    · exact h
  · by_cases hlow : isLowSurrogate n
    · rw [decode_low hlow, decode_low hlow] at h
      exact (List.cons.inj h).2
    · rw [decode_unit hhigh hlow, decode_unit hhigh hlow] at h
      exact (List.cons.inj h).2

instance (c : Char) : Decidable (Ordinary c) := inferInstanceAs (Decidable (_ ∧ _))

/-- What an escape makes ordinary has been so. -/
theorem Ordinary.of_escaped {c : Char} (h : Ordinary (escaped c)) : Ordinary c := by
  unfold escaped at h
  split at h <;> first | exact h | decide

theorem ordinary_of_isSome_hexDigit? {c : Char} (h : (hexDigit? c).isSome) : Ordinary c := by
  obtain ⟨v, hv⟩ := Option.isSome_iff_exists.mp h
  have hdigits : ∀ v < 16, Ordinary v.digitChar ∧ Ordinary v.digitChar.toUpper := by decide
  obtain ⟨hlt, rfl | rfl⟩ := hexDigit_of_hexDigit? hv
  · exact (hdigits v hlt).1
  · exact (hdigits v hlt).2

end StringItem

/-! ## Two readings of a string -/

namespace Alias

open StringItem

variable {before cs text : List Char} {c quote : Char}

/-- No alias counts in a text up to the quote that stands before `rest`. -/
def StaysWhole (quote : Char) (before text rest : List Char) : Prop :=
  ∃ body, text = body ++ quote :: rest ∧ clear before body = body

/-- Of a text behind an opening quote: if the string is closed in the text and in the text without
the alias, and the first value is the second but for a queue of ordinary letters in front, then the
queue is empty and the string holds no alias. -/
def InStep (quote : Char) (text : List Char) : Prop :=
  ∀ {before queue rest rest' : List Char} {items items' : List StringItem},
    Finishes quote text items rest → Finishes quote (clear before text) items' rest' →
    (∀ c ∈ queue, Ordinary c) → queue ++ decode items = decode items' →
      queue = [] ∧ StaysWhole quote before text rest

variable {queue values values' : List Char} {rest rest' : List Char}
  {items items' : List StringItem}

/-- A character that both readings give leaves the front of the queue and comes to its end. -/
theorem exists_queue_of_same (h : queue ++ c :: values = c :: values')
    (hqueue : ∀ c ∈ queue, Ordinary c) :
    ∃ queue', queue' ++ values = values' ∧ (∀ c ∈ queue', Ordinary c) ∧
      (queue' = [] → queue = []) := by
  cases queue with
  | nil => exact ⟨[], (List.cons.inj h).2, by simp, fun _ => rfl⟩
  | cons d queue =>
      obtain ⟨rfl, h⟩ := List.cons.inj h
      exact ⟨queue ++ [d], by simpa using h, by simpa [or_imp, forall_and, and_comm] using hqueue,
        by simp⟩

/-- A code unit on both sides leaves a queue of ordinary characters. -/
theorem exists_queue_of_unit {n : Nat}
    (h : queue ++ decode (unit n :: items) = decode (unit n :: items'))
    (hqueue : ∀ c ∈ queue, Ordinary c) :
    ∃ queue', queue' ++ decode items = decode items' ∧ (∀ c ∈ queue', Ordinary c) ∧
      (queue' = [] → queue = []) := by
  by_cases hsurrogate : isHighSurrogate n ∨ isLowSurrogate n
  · -- no letter of a queue is given by a surrogate, so there is none
    obtain ⟨c, cs, hdecode, hc⟩ := exists_decode_surrogate hsurrogate items'
    cases queue with
    | nil => exact ⟨[], decode_unit_cancel h, by simp, fun _ => rfl⟩
    | cons d queue =>
        rw [hdecode] at h
        obtain ⟨rfl, -⟩ := List.cons.inj h
        exact absurd (hqueue d (by simp)) hc
  · rw [not_or] at hsurrogate
    rw [decode_unit hsurrogate.1 hsurrogate.2, decode_unit hsurrogate.1 hsurrogate.2] at h
    exact exists_queue_of_same h hqueue

/-- The second reading gives the front of the queue. -/
theorem ordinary_of_front (hne : queue ≠ []) (h : queue ++ values = c :: values')
    (hqueue : ∀ c ∈ queue, Ordinary c) : Ordinary c := by
  cases queue with
  | nil => contradiction
  | cons d queue =>
      obtain ⟨rfl, -⟩ := List.cons.inj h
      exact hqueue d (by simp)

theorem forall_ordinary_append {letters : List Char} (hqueue : ∀ c ∈ queue, Ordinary c)
    (hletters : ∀ c ∈ letters, Ordinary c) : ∀ c ∈ queue ++ letters, Ordinary c :=
  fun c hc => (List.mem_append.mp hc).elim (hqueue c) (hletters c)

/-- A queue of more than one letter does not run empty at once. -/
theorem false_of_inStep (queue : List Char) (hlength : 1 < queue.length) (hstep : InStep quote text)
    (h : Finishes quote text items rest) (hout : Finishes quote (clear before text) items' rest')
    (hqueue : ∀ c ∈ queue, Ordinary c) (heq : queue ++ decode items = c :: decode items') :
    False := by
  cases queue with
  | nil => contradiction
  | cons d queue =>
      have hrest := (List.cons.inj heq).2
      obtain ⟨rfl, -⟩ := hstep h hout (fun c hc => hqueue c (List.mem_cons_of_mem d hc)) hrest
      contradiction

theorem continuesName_of_isSome_hexDigit? (h : (hexDigit? c).isSome) : continuesName c := by
  obtain ⟨v, hv⟩ := Option.isSome_iff_exists.mp h
  have hdigits : ∀ v < 16, continuesName v.digitChar ∧ continuesName v.digitChar.toUpper := by
    decide
  obtain ⟨hlt, rfl | rfl⟩ := hexDigit_of_hexDigit? hv
  · exact (hdigits v hlt).1
  · exact (hdigits v hlt).2

/-- Digits that are left have been there. -/
theorem exists_eq_digits_append {digits : List Char}
    (hdigits : ∀ c ∈ digits, (hexDigit? c).isSome) (hbefore : standsAfter before = false)
    (h : clear before text = digits ++ cs) :
    ∃ text', text = digits ++ text' ∧ cs = clear (digits.reverse ++ before) text' := by
  induction digits generalizing before text with
  | nil => exact ⟨text, rfl, h.symm⟩
  | cons d digits ih =>
      obtain ⟨hd, hmore⟩ := List.forall_mem_cons.mp hdigits
      cases text with
      | nil =>
          rw [clear] at h
          contradiction
      | cons c text =>
          rw [clear_cons_of_not_standsAfter hbefore] at h
          obtain ⟨rfl, hrest⟩ := List.cons.inj h
          have hafter := not_standsAfter_cons (continuesName_of_isSome_hexDigit? hd) before
          obtain ⟨text', rfl, rfl⟩ := ih hmore hafter hrest
          exact ⟨text', rfl, by simp⟩

/-- Digits of a string stand for themselves. -/
theorem exists_finishes_of_digits {digits : List Char} (hquote : isQuote quote)
    (hdigits : ∀ c ∈ digits, (hexDigit? c).isSome)
    (h : Finishes quote (digits ++ text) items rest) :
    ∃ items', decode items = digits ++ decode items' ∧ Finishes quote text items' rest := by
  induction digits generalizing items with
  | nil => exact ⟨items, rfl, h⟩
  | cons d digits ih =>
      obtain ⟨hd, hdigits⟩ := List.forall_mem_cons.mp hdigits
      obtain ⟨more, rfl, hmore⟩ := h.exists_of_plain (ne_quote_of_isSome_hexDigit? hquote hd)
        (ne_backslash_of_isSome_hexDigit? hd)
      obtain ⟨items', heq, hitems⟩ := ih hdigits hmore
      exact ⟨items', by rw [decode, heq]; rfl, hitems⟩

/-- The letters of the alias in a string stand for themselves. -/
theorem exists_finishes_of_letters (hquote : isQuote quote)
    (h : Finishes quote ('m' :: '.' :: text) items rest) :
    ∃ items', decode items = 'm' :: '.' :: decode items' ∧ Finishes quote text items' rest := by
  have hne := notMem_word_of_isQuote hquote
  simp only [word, List.mem_cons, List.not_mem_nil, or_false, not_or] at hne
  obtain ⟨more, rfl, hmore⟩ := h.exists_of_plain (Ne.symm hne.2.1) (by decide)
  obtain ⟨items', rfl, hitems⟩ := hmore.exists_of_plain (Ne.symm hne.2.2) (by decide)
  exact ⟨items', by rw [decode, decode], hitems⟩

/-- An alias between a backslash and the letter `u`: what is left has an escape of four digits,
which gives one letter for five. -/
theorem false_of_escaped_unit (hquote : isQuote quote)
    (hstep : ∀ text', text'.length < text.length → InStep quote text')
    (h : Finishes quote text items rest)
    (hout : Finishes quote ('\\' :: 'u' :: clear ('u' :: before) text) items' rest')
    (hne : queue ≠ []) (hqueue : ∀ c ∈ queue, Ordinary c)
    (heq : queue ++ 'u' :: decode items = decode items') : False := by
  obtain ⟨w, x, y, z, n, text', more, hclear, hunit, rfl, hout⟩ := hout.exists_of_unit hquote
  have hdigits := isSome_hexDigit?_of_unit? hunit
  obtain ⟨text, rfl, rfl⟩ := exists_eq_digits_append hdigits (not_standsAfter_cons rfl _) hclear
  obtain ⟨items, hitems, h⟩ := exists_finishes_of_digits hquote hdigits h
  rw [hitems] at heq
  by_cases hsurrogate : isHighSurrogate n ∨ isLowSurrogate n
  · obtain ⟨c, cs, hdecode, hc⟩ := exists_decode_surrogate hsurrogate more
    rw [hdecode] at heq
    exact hc (ordinary_of_front hne heq hqueue)
  · rw [not_or] at hsurrogate
    rw [decode_unit hsurrogate.1 hsurrogate.2] at heq
    have hall := forall_ordinary_append hqueue (List.forall_mem_cons.mpr
      ⟨(by decide : Ordinary 'u'), fun c hc => ordinary_of_isSome_hexDigit? (hdigits c hc)⟩)
    have hlength : 1 < (queue ++ 'u' :: [w, x, y, z]).length := by
      simp only [List.length_append, List.length_cons]
      omega
    have hvalues : queue ++ 'u' :: [w, x, y, z] ++ decode items = Char.ofNat n :: decode more := by
      simpa using heq
    have hshorter : text.length < ([w, x, y, z] ++ text).length := by
      simp only [List.length_append, List.length_cons]
      omega
    exact false_of_inStep _ hlength (hstep text hshorter) h hout hall hvalues

/-- **An alias behind a backslash.**  The backslash escapes what follows the alias, and no value
comes of that which the string has had before. -/
theorem false_of_escaped_alias (hquote : isQuote quote)
    (hstep : ∀ text', text'.length < text.length → InStep quote text')
    (h : Finishes quote text items rest)
    (hout : Finishes quote ('\\' :: clear (word.reverse ++ before) text) items' rest')
    (hne : queue ≠ []) (hqueue : ∀ c ∈ queue, Ordinary c)
    (heq : queue ++ decode items = decode items') : False := by
  have hafter := not_standsAfter_word before
  -- the first letter of the second reading is an ordinary one
  have hfirst {c : Char} {more : List StringItem} (hmore : items' = character (escaped c) :: more) :
      Ordinary c := by
    rw [hmore] at heq
    exact (ordinary_of_front hne heq hqueue).of_escaped
  cases h with
  | close =>
      rw [clear_cons_of_not_standsAfter hafter] at hout
      obtain ⟨more, hmore, -⟩ :=
        hout.exists_of_escape hquote fun hu => by simp [hu, isQuote] at hquote
      exact (hfirst hmore).2.1 hquote
  | escape =>
      rw [clear_cons_of_not_standsAfter hafter] at hout
      obtain ⟨more, hmore, -⟩ := hout.exists_of_escape hquote (by decide)
      exact (hfirst hmore).1 rfl
  | unit =>
      rw [clear_cons_of_not_standsAfter hafter] at hout
      obtain ⟨more, hmore, -⟩ := hout.exists_of_escape hquote (by decide)
      exact (hfirst hmore).1 rfl
  | @plain c text _ items _ _ h =>
      rw [clear_cons_of_not_standsAfter hafter] at hout
      rw [decode] at heq
      by_cases hu : c = 'u'
      · subst hu
        refine false_of_escaped_unit hquote (fun text' hshorter => ?_) h hout hne hqueue heq
        exact hstep text' (Nat.lt_succ_of_lt hshorter)
      · obtain ⟨more, hmore, hrest⟩ := hout.exists_of_escape hquote hu
        have hall := forall_ordinary_append hqueue
          (List.forall_mem_singleton.mpr (hfirst hmore))
        have hlength : 1 < (queue ++ [c]).length := by
          have hpos := List.length_pos_of_ne_nil hne
          rw [List.length_append, List.length_singleton]
          omega
        have hvalues : queue ++ [c] ++ decode items = escaped c :: decode more := by
          rw [hmore] at heq
          simpa [decode] using heq
        exact false_of_inStep _ hlength (hstep text (by simp)) h hrest hall hvalues

theorem clear_unit {digits : List Char} (hdigits : ∀ c ∈ digits, (hexDigit? c).isSome)
    (before text : List Char) :
    clear before ('\\' :: 'u' :: (digits ++ text)) =
      '\\' :: 'u' :: (digits ++ clear (digits.reverse ++ 'u' :: '\\' :: before) text) := by
  have hcontinues : ∀ c ∈ digits, continuesName c :=
    fun c hc => continuesName_of_isSome_hexDigit? (hdigits c hc)
  rw [clear_cons_of_ne (by decide), clear_cons_of_ne (by decide),
    clear_append_of_continuesName hcontinues (not_standsAfter_cons rfl _)]

/-- A character that is kept leaves a string whole if the rest of it stays whole. -/
theorem StaysWhole.cons (hquote : isQuote quote)
    (halias : (word.isPrefixOf (c :: text) && standsAfter before) = false)
    (h : StaysWhole quote (c :: before) text rest) : StaysWhole quote before (c :: text) rest := by
  obtain ⟨body, rfl, hbody⟩ := h
  rw [← List.cons_append, isPrefixOf_word_append (notMem_word_of_isQuote hquote)] at halias
  exact ⟨c :: body, rfl, by rw [clear_cons halias, hbody]⟩

theorem StaysWhole.cons_of_ne (hc : c ≠ 'v') (h : StaysWhole quote (c :: before) text rest) :
    StaysWhole quote before (c :: text) rest := by
  obtain ⟨body, rfl, hbody⟩ := h
  exact ⟨c :: body, rfl, by rw [clear_cons_of_ne hc, hbody]⟩

/-! One step of both readings, for each form of item. -/

/-- In step: a plain character. -/
theorem inStep_plain (hquote : isQuote quote)
    (hstep : ∀ text', text'.length < (c :: text).length → InStep quote text')
    (hne : c ≠ quote) (hescape : c ≠ '\\') (h : Finishes quote text items rest)
    (hout : Finishes quote (clear before (c :: text)) items' rest')
    (hqueue : ∀ c ∈ queue, Ordinary c)
    (heq : queue ++ decode (character c :: items) = decode items') :
    queue = [] ∧ StaysWhole quote before (c :: text) rest := by
  rw [decode] at heq
  cases halias : word.isPrefixOf (c :: text) && standsAfter before with
  | true =>
      -- the letters of the alias come to the queue
      obtain ⟨text', rfl, rfl, hclear⟩ := exists_of_alias halias
      rw [hclear] at hout
      obtain ⟨more, hvalues, hmore⟩ := exists_finishes_of_letters hquote h
      have hletters : ∀ c ∈ word, Ordinary c := by
        simp [word, Ordinary, isQuote, replacement, Utf16.units]
      have hall := forall_ordinary_append hqueue hletters
      rw [hvalues] at heq
      have hshorter : text'.length < ('v' :: 'm' :: '.' :: text').length := by
        simp only [List.length_cons]
        omega
      have hnil := (hstep text' hshorter hmore hout hall (by simpa [word])).1
      simp [word] at hnil
  | false =>
      rw [clear_cons halias] at hout
      obtain ⟨more, rfl, hmore⟩ := hout.exists_of_plain hne hescape
      rw [decode] at heq
      obtain ⟨queue', hvalues, hqueue', hempty⟩ := exists_queue_of_same heq hqueue
      obtain ⟨hnil, hwhole⟩ := hstep text (by simp) h hmore hqueue' hvalues
      exact ⟨hempty hnil, hwhole.cons hquote halias⟩

/-- In step: a backslash and a letter. -/
theorem inStep_escape (hquote : isQuote quote)
    (hstep : ∀ text', text'.length < ('\\' :: c :: text).length → InStep quote text')
    (hunit : c ≠ 'u') (h : Finishes quote text items rest)
    (hout : Finishes quote (clear before ('\\' :: c :: text)) items' rest')
    (hqueue : ∀ c ∈ queue, Ordinary c)
    (heq : queue ++ decode (character (escaped c) :: items) = decode items') :
    queue = [] ∧ StaysWhole quote before ('\\' :: c :: text) rest := by
  rw [clear_cons_of_ne (by decide)] at hout
  rw [decode] at heq
  cases halias : word.isPrefixOf (c :: text) && standsAfter ('\\' :: before) with
  | true =>
      -- the escaped letter, a vertical tab, comes to the queue with the other two
      obtain ⟨text', rfl, rfl, hclear⟩ := exists_of_alias halias
      rw [hclear] at hout
      obtain ⟨more, hvalues, hmore⟩ := exists_finishes_of_letters hquote h
      have hletters : ∀ c ∈ ['\x0b', 'm', '.'], Ordinary c := by
        simp [Ordinary, isQuote, replacement, Utf16.units]
      have hall := forall_ordinary_append hqueue hletters
      rw [hvalues] at heq
      refine (false_of_escaped_alias hquote (fun text hshorter => hstep text ?_) hmore hout
        (by simp) hall (by simpa [escaped] using heq)).elim
      simp only [List.length_cons]
      omega
  | false =>
      rw [clear_cons halias] at hout
      obtain ⟨more, rfl, hmore⟩ := hout.exists_of_escape hquote hunit
      rw [decode] at heq
      obtain ⟨queue', hvalues, hqueue', hempty⟩ := exists_queue_of_same heq hqueue
      have hshorter : text.length < ('\\' :: c :: text).length := by
        simp only [List.length_cons]
        omega
      obtain ⟨hnil, hwhole⟩ := hstep text hshorter h hmore hqueue' hvalues
      exact ⟨hempty hnil, (hwhole.cons hquote halias).cons_of_ne (by decide)⟩

/-- In step: a `\u` escape. -/
theorem inStep_unit {w x y z : Char} {n : Nat} (hquote : isQuote quote)
    (hstep : ∀ text', text'.length < ('\\' :: 'u' :: w :: x :: y :: z :: text).length →
      InStep quote text')
    (hunit : unit? w x y z = some n) (h : Finishes quote text items rest)
    (hout : Finishes quote (clear before ('\\' :: 'u' :: w :: x :: y :: z :: text)) items' rest')
    (hqueue : ∀ c ∈ queue, Ordinary c)
    (heq : queue ++ decode (unit n :: items) = decode items') :
    queue = [] ∧ StaysWhole quote before ('\\' :: 'u' :: w :: x :: y :: z :: text) rest := by
  have hclear (text : List Char) := clear_unit (isSome_hexDigit?_of_unit? hunit) before text
  simp only [List.cons_append, List.nil_append] at hclear
  rw [hclear] at hout
  obtain ⟨_, _, _, _, n', _, more, hdigits, hunit', rfl, hmore⟩ := hout.exists_of_unit hquote
  cases hdigits
  cases hunit.symm.trans hunit'
  obtain ⟨queue', hvalues, hqueue', hempty⟩ := exists_queue_of_unit heq hqueue
  have hshorter : text.length < ('\\' :: 'u' :: w :: x :: y :: z :: text).length := by
    simp only [List.length_cons]
    omega
  obtain ⟨hnil, body, rfl, hbody⟩ := hstep text hshorter h hmore hqueue' hvalues
  exact ⟨hempty hnil, '\\' :: 'u' :: w :: x :: y :: z :: body, rfl, by rw [hclear, hbody]⟩

/-- **Both readings stay in step.** -/
theorem inStep (hquote : isQuote quote) (text : List Char) : InStep quote text := by
  induction hn : text.length using Nat.strong_induction_on generalizing text with
  | _ n ih =>
      subst hn
      have hstep (text' : List Char) (hshorter : text'.length < text.length) :
          InStep quote text' := ih _ hshorter text' rfl
      intro before queue rest rest' items items' h hout hqueue heq
      cases h with
      | close =>
          rw [clear_cons_of_ne fun hv => by simp [hv, isQuote] at hquote] at hout
          obtain ⟨rfl, -⟩ := hout.eq_of_quote hquote
          exact ⟨by simpa using heq, [], rfl, by rw [clear]⟩
      | plain hne hescape h => exact inStep_plain hquote hstep hne hescape h hout hqueue heq
      | escape hunit h => exact inStep_escape hquote hstep hunit h hout hqueue heq
      | unit hunit h => exact inStep_unit hquote hstep hunit h hout hqueue heq

/-- **The value of a string.**  It stays exactly if there is no alias in the string. -/
theorem decode_eq_iff_clear_eq {body : List Char} (hquote : isQuote quote)
    (h : Finishes quote (body ++ quote :: rest) items rest)
    (hout : Finishes quote (clear before (body ++ quote :: rest)) items' rest') :
    decode items' = decode items ↔ clear before body = body := by
  constructor
  · intro heq
    have hvalues : [] ++ decode items = decode items' := heq.symm
    obtain ⟨-, body', hbody, hfree⟩ := inStep hquote _ h hout (by simp) hvalues
    rwa [← List.append_cancel_right hbody] at hfree
  · intro hfree
    rw [clear_append_cons (notMem_word_of_isQuote hquote), hfree] at hout
    rw [((h.of_body hquote _).unique hquote hout).1]

end Alias

end TemplateMigration
