import TemplateMigration.Command.Outcome

/-!
# TemplateMigration.Proofs.Command.JsonReport

What the JSON of a check says.

Two values are never written alike: a written value, with anything behind it that does not go on
with a number, is the text of that value alone (`determines_text`).  So the text of a check
determines what a reader finds in it, and a reader finds the templates that would change
(`changedFiles_checkJson`).
-/

namespace TemplateMigration

namespace JsonText

/-- Induction over a JSON text, with a hypothesis for every item and every field. -/
theorem induction {motive : JsonText → Prop} (boolean : ∀ value, motive (.boolean value))
    (number : ∀ value, motive (.number value)) (string : ∀ value, motive (.string value))
    (array : ∀ items : List JsonText, (∀ item ∈ items, motive item) → motive (.array items))
    (object : ∀ fields : List (String × JsonText), (∀ field ∈ fields, motive field.2) →
      motive (.object fields))
    (json : JsonText) : motive json := by
  refine @JsonText.rec motive (fun items => ∀ item ∈ items, motive item)
    (fun fields => ∀ field ∈ fields, motive field.2) (fun field => motive field.2)
    boolean number string array object ?_ ?_ ?_ ?_ ?_ json
  · simp
  · exact fun item items hitem hitems => List.forall_mem_cons.mpr ⟨hitem, hitems⟩
  · simp
  · exact fun field fields hfield hfields => List.forall_mem_cons.mpr ⟨hfield, hfields⟩
  · exact fun _ _ h => h

/-! ## Strings -/

/-- The value of a digit of base sixteen. -/
def hexValue (c : Char) : Nat := if c.isDigit then c.toNat - '0'.toNat else c.toNat - 'a'.toNat + 10

/-- A hexadecimal digit can be told from its letter. -/
theorem hexValue_hexDigit (n : Nat) : hexValue (hexDigit n) = n % 16 := by
  have hdigits : ∀ d : Fin 16, hexValue ((Nat.toDigits 16 d).headD '0') = d := by decide
  exact hdigits ⟨n % 16, Nat.mod_lt n (by decide)⟩

/-- The character that a letter stands for behind a backslash. -/
def named (c : Char) : Char :=
  if c = 'n' then '\n' else if c = 'r' then '\r' else if c = 't' then '\t'
  else if c = 'b' then '\x08' else if c = 'f' then '\x0c' else c

/-- Read what stands behind a backslash. -/
def escaped? : List Char → Option (Char × List Char)
  | 'u' :: _ :: _ :: high :: low :: rest =>
      some (Char.ofNat (16 * hexValue high + hexValue low), rest)
  | c :: rest => some (named c, rest)
  | [] => none

/-- Read a character inside of a string. -/
def unescape? : List Char → Option (Char × List Char)
  | c :: rest => if c = '\\' then escaped? rest else some (c, rest)
  | [] => none

/-- An escaped character can be read back. -/
theorem unescape?_escape (c : Char) (rest : List Char) :
    unescape? (escape c ++ rest) = some (c, rest) := by
  unfold escape
  split
  case h_8 hquote hbackslash _ _ _ _ _ =>
    by_cases hcontrol : c.toNat < 32
    · have hvalue :
          16 * hexValue (hexDigit (c.toNat / 16)) + hexValue (hexDigit c.toNat) = c.toNat := by
        rw [hexValue_hexDigit, hexValue_hexDigit]
        omega
      simp [hcontrol, unescape?, escaped?, hvalue]
    · simp [hcontrol, unescape?, show ¬ c = '\\' from hbackslash]
  all_goals simp [unescape?, escaped?, named]

/-- Escaped characters can be told apart, whatever follows. -/
theorem escape_append_inj {c d : Char} {rest rest' : List Char}
    (h : escape c ++ rest = escape d ++ rest') : c = d ∧ rest = rest' := by
  have hread := congrArg unescape? h
  simpa [unescape?_escape] using hread

/-- A quote that is not escaped starts no character. -/
theorem quote_cons_ne (c : Char) (rest rest' : List Char) : '"' :: rest ≠ escape c ++ rest' := by
  intro h
  have hread := congrArg unescape? h
  rw [unescape?_escape] at hread
  have hc : '"' = c := by simpa [unescape?] using congrArg (Option.map Prod.fst) hread
  simp [← hc, escape] at h

/-- Escaped characters up to a quote can be told apart, and the rest with them. -/
theorem flatMap_escape_append_inj {cs ds rest rest' : List Char}
    (h : cs.flatMap escape ++ '"' :: rest = ds.flatMap escape ++ '"' :: rest') :
    cs = ds ∧ rest = rest' := by
  induction cs generalizing ds with
  | nil =>
      cases ds with
      | nil => simpa using h
      | cons d ds =>
          rw [List.flatMap_cons, List.append_assoc] at h
          exact absurd h (quote_cons_ne d rest _)
  | cons c cs ih =>
      cases ds with
      | nil =>
          rw [List.flatMap_cons, List.append_assoc] at h
          exact absurd h.symm (quote_cons_ne c rest' _)
      | cons d ds =>
          rw [List.flatMap_cons, List.flatMap_cons, List.append_assoc, List.append_assoc] at h
          obtain ⟨hcd, htail⟩ := escape_append_inj h
          obtain ⟨hcs, hrest⟩ := ih htail
          exact ⟨by rw [hcd, hcs], hrest⟩

/-- A quoted string tells its string, and where it ends. -/
theorem quote_append_inj {s t : String} {rest rest' : List Char}
    (h : (quote s).toList ++ rest = (quote t).toList ++ rest') : s = t ∧ rest = rest' := by
  simp only [quote, String.toList_ofList, List.cons_append, List.append_assoc, List.cons.injEq,
    true_and, List.nil_append] at h
  obtain ⟨hst, hrest⟩ := flatMap_escape_append_inj h
  exact ⟨String.toList_inj.mp hst, hrest⟩

/-! ## Numbers -/

/-- Whether a text does not go on with a digit. -/
def EndsNumber (rest : List Char) : Prop := ∀ c cs, rest = c :: cs → c.isDigit = false

/-- The digits of a number end where no digit follows. -/
theorem takeWhile_append_of_endsNumber {n : Nat} {rest : List Char} (h : EndsNumber rest) :
    (Nat.toDigits 10 n ++ rest).takeWhile Char.isDigit = Nat.toDigits 10 n := by
  have hdigits : ∀ c ∈ Nat.toDigits 10 n, c.isDigit = true := fun c hc =>
    Nat.isDigit_of_mem_toDigits (by decide) (by decide) hc
  have hrest : rest.takeWhile Char.isDigit = [] := by
    cases rest with
    | nil => rfl
    | cons c cs => simp [h c cs rfl]
  rw [List.takeWhile_append_of_pos hdigits, hrest, List.append_nil]

/-- A number can be told from its digits, if no digit follows. -/
theorem number_append_inj {m n : Nat} {rest rest' : List Char} (hrest : EndsNumber rest)
    (hrest' : EndsNumber rest') (h : (toString m).toList ++ rest = (toString n).toList ++ rest') :
    m = n ∧ rest = rest' := by
  rw [Nat.toString_eq_ofList_toDigits, Nat.toString_eq_ofList_toDigits, String.toList_ofList,
    String.toList_ofList] at h
  have hdigits := congrArg (List.takeWhile Char.isDigit) h
  rw [takeWhile_append_of_endsNumber hrest, takeWhile_append_of_endsNumber hrest'] at hdigits
  have hmn : m = n := by
    simpa [Nat.ofDigitChars_ten_toDigits] using congrArg (Nat.ofDigitChars 10 · 0) hdigits
  rw [hdigits] at h
  exact ⟨hmn, List.append_cancel_left h⟩

/-! ## Sequences -/

section Sequences

variable {α : Type} {code : α → List Char} {close : Char} {xs ys : List α} {rest rest' : List Char}

/-- Whether the text of something tells it from everything else, and ends where it ends. -/
def Determines (code : α → List Char) (x : α) : Prop :=
  ∀ y rest rest', EndsNumber rest → EndsNumber rest' → code x ++ rest = code y ++ rest' →
    x = y ∧ rest = rest'

/-- Items behind the first one, each with a comma in front. -/
def others (code : α → List Char) (xs : List α) : List Char := xs.flatMap fun x => ',' :: code x

theorem intercalate_cons (x : α) (xs : List α) :
    [','].intercalate ((x :: xs).map code) = code x ++ others code xs := by
  induction xs generalizing x with
  | nil => simp [others]
  | cons y ys ih =>
      rw [List.map_cons, List.map_cons, List.intercalate_cons_cons, ← List.map_cons, ih y]
      simp [others]

theorem endsNumber_others (hclose : close.isDigit = false) (xs : List α) (rest : List Char) :
    EndsNumber (others code xs ++ close :: rest) := by
  cases xs with
  | nil =>
      intro c cs h
      simp only [others, List.flatMap_nil, List.nil_append, List.cons.injEq] at h
      rw [← h.1, hclose]
  | cons x xs =>
      intro c cs h
      simp only [others, List.flatMap_cons, List.cons_append, List.cons.injEq] at h
      rw [← h.1]
      rfl

/-- Items up to a closing bracket can be told apart, if each item tells itself. -/
theorem others_append_inj (hclose : close.isDigit = false) (hcomma : close ≠ ',')
    (hxs : ∀ x ∈ xs, Determines code x)
    (h : others code xs ++ close :: rest = others code ys ++ close :: rest') :
    xs = ys ∧ rest = rest' := by
  induction xs generalizing ys with
  | nil =>
      cases ys with
      | nil => simpa [others] using h
      | cons y ys => simp [others, hcomma] at h
  | cons x xs ih =>
      obtain ⟨hx, hxs⟩ := List.forall_mem_cons.mp hxs
      cases ys with
      | nil => simp [others, hcomma.symm] at h
      | cons y ys =>
          have hitems : code x ++ (others code xs ++ close :: rest) =
              code y ++ (others code ys ++ close :: rest') := by
            simpa [others] using h
          obtain ⟨hxy, htail⟩ := hx y _ _ (endsNumber_others hclose xs rest)
            (endsNumber_others hclose ys rest') hitems
          obtain ⟨hxsys, hrest⟩ := ih hxs htail
          exact ⟨by rw [hxy, hxsys], hrest⟩

/-- A sequence whose items do not begin with the character that closes it. -/
theorem intercalate_append_inj (hclose : close.isDigit = false) (hcomma : close ≠ ',')
    (hopen : ∀ x rest rest', code x ++ rest ≠ close :: rest')
    (hxs : ∀ x ∈ xs, Determines code x)
    (h : [','].intercalate (xs.map code) ++ close :: rest =
      [','].intercalate (ys.map code) ++ close :: rest') :
    xs = ys ∧ rest = rest' := by
  cases xs with
  | nil =>
      cases ys with
      | nil => simpa using h
      | cons y ys =>
          rw [intercalate_cons, List.append_assoc] at h
          exact absurd h.symm (hopen y _ _)
  | cons x xs =>
      rw [intercalate_cons, List.append_assoc] at h
      cases ys with
      | nil => exact absurd h (hopen x _ _)
      | cons y ys =>
          rw [intercalate_cons, List.append_assoc] at h
          obtain ⟨hx, hxs⟩ := List.forall_mem_cons.mp hxs
          obtain ⟨hxy, htail⟩ := hx y _ _ (endsNumber_others hclose xs rest)
            (endsNumber_others hclose ys rest') h
          obtain ⟨hxsys, hrest⟩ := others_append_inj hclose hcomma hxs htail
          exact ⟨by rw [hxy, hxsys], hrest⟩

end Sequences

/-! ## Values -/

/-- The text of a value. -/
def text (json : JsonText) : List Char := json.render.toList

/-- The text of a field. -/
def fieldText (field : String × JsonText) : List Char :=
  (quote field.1).toList ++ ':' :: field.2.text

/-- The text of an array. -/
theorem text_array (items : List JsonText) :
    (array items).text = '[' :: ([','].intercalate (items.map text) ++ [']']) := by
  have hitems : (renderItems items).map String.toList = items.map text := by
    induction items with
    | nil => rfl
    | cons item items ih => simp [renderItems, text, ih]
  simp [text, render, String.toList_intercalate, hitems]

/-- The text of an object. -/
theorem text_object (fields : List (String × JsonText)) :
    (object fields).text = '\x7b' :: ([','].intercalate (fields.map fieldText) ++ ['\x7d']) := by
  have hfields : (renderFields fields).map String.toList = fields.map fieldText := by
    induction fields with
    | nil => rfl
    | cons field fields ih => simp [renderFields, fieldText, text, ih]
  simp [text, render, String.toList_intercalate, hfields]

/-- The sorts of values. -/
inductive Kind where
  | boolean
  | number
  | string
  | array
  | object
  deriving DecidableEq

/-- The sort of a value. -/
def kind : JsonText → Kind
  | boolean _ => .boolean
  | number _ => .number
  | string _ => .string
  | array _ => .array
  | object _ => .object

/-- The sort of the values that begin with a character. -/
def Kind.ofFirst? (c : Char) : Option Kind :=
  if c.isDigit then some .number
  else if c = '"' then some .string
  else if c = '[' then some .array
  else if c = '\x7b' then some .object
  else if c = 't' ∨ c = 'f' then some .boolean
  else none

/-- The first character of a text tells the kind of its value. -/
theorem exists_text_eq_cons (json : JsonText) :
    ∃ c cs, json.text = c :: cs ∧ Kind.ofFirst? c = some json.kind := by
  cases json with
  | boolean value => cases value <;> exact ⟨_, _, rfl, rfl⟩
  | number value =>
      have htext : (number value).text = Nat.toDigits 10 value := by
        rw [text, render, Nat.toString_eq_ofList_toDigits, String.toList_ofList]
      obtain ⟨c, cs, hdigits⟩ :=
        List.exists_cons_of_ne_nil (Nat.toDigits_ne_nil (n := value) (b := 10))
      have hmem : c ∈ Nat.toDigits 10 value := by simp [hdigits]
      have hc : c.isDigit := Nat.isDigit_of_mem_toDigits (by decide) (by decide) hmem
      exact ⟨c, cs, htext.trans hdigits, by simp [Kind.ofFirst?, hc, kind]⟩
  | string value =>
      exact ⟨'"', value.toList.flatMap escape ++ ['"'], by simp [text, render, quote], rfl⟩
  | array items => exact ⟨'[', _, text_array items, rfl⟩
  | object fields => exact ⟨'\x7b', _, text_object fields, rfl⟩

/-- Two values whose texts begin alike are of one kind. -/
theorem kind_eq_of_append_eq {json other : JsonText} {rest rest' : List Char}
    (h : json.text ++ rest = other.text ++ rest') : json.kind = other.kind := by
  obtain ⟨c, cs, hc, hkind⟩ := exists_text_eq_cons json
  obtain ⟨d, ds, hd, hkind'⟩ := exists_text_eq_cons other
  rw [hc, hd, List.cons_append, List.cons_append, List.cons.injEq] at h
  rw [← Option.some.injEq, ← hkind, ← hkind', h.1]

theorem text_append_ne_bracket (json : JsonText) (rest rest' : List Char) :
    json.text ++ rest ≠ ']' :: rest' := by
  obtain ⟨c, cs, hc, hkind⟩ := exists_text_eq_cons json
  intro h
  rw [hc, List.cons_append, List.cons.injEq] at h
  rw [h.1] at hkind
  contradiction

theorem fieldText_append_ne_brace (field : String × JsonText) (rest rest' : List Char) :
    fieldText field ++ rest ≠ '\x7d' :: rest' := by
  simp [fieldText, quote]

/-- A field tells itself if its value does. -/
theorem determines_fieldText {field : String × JsonText} (h : Determines text field.2) :
    Determines fieldText field := by
  intro other rest rest' hrest hrest' heq
  obtain ⟨name, value⟩ := field
  obtain ⟨name', value'⟩ := other
  simp only [fieldText, List.append_assoc, List.cons_append] at heq
  obtain ⟨rfl, hvalues⟩ := quote_append_inj heq
  rw [List.cons_inj_right] at hvalues
  obtain ⟨rfl, htail⟩ := h value' rest rest' hrest hrest' hvalues
  exact ⟨rfl, htail⟩

/-- The text of a value determines it, and ends where it ends. -/
theorem determines_text (json : JsonText) : Determines text json := by
  -- The first character tells the sort of both values, so they are taken apart together.
  induction json using JsonText.induction with
  | boolean value =>
      intro other rest rest' _ _ h
      cases other with
      | boolean value' => cases value <;> cases value' <;> simp_all [text, render]
      | _ => exact absurd (kind_eq_of_append_eq h) (by simp [kind])
  | number value =>
      intro other rest rest' hrest hrest' h
      cases other with
      | number value' =>
          obtain ⟨hvalue, htail⟩ := number_append_inj hrest hrest' (by simpa [text, render] using h)
          exact ⟨by rw [hvalue], htail⟩
      | _ => exact absurd (kind_eq_of_append_eq h) (by simp [kind])
  | string value =>
      intro other rest rest' _ _ h
      cases other with
      | string value' =>
          obtain ⟨hvalue, htail⟩ := quote_append_inj (by simpa [text, render] using h)
          exact ⟨by rw [hvalue], htail⟩
      | _ => exact absurd (kind_eq_of_append_eq h) (by simp [kind])
  | array items ih =>
      intro other rest rest' _ _ h
      cases other with
      | array items' =>
          rw [text_array, text_array] at h
          obtain ⟨hitems, htail⟩ := intercalate_append_inj (by decide) (by decide)
            text_append_ne_bracket ih (by simpa using h)
          exact ⟨by rw [hitems], htail⟩
      | _ => exact absurd (kind_eq_of_append_eq h) (by simp [kind])
  | object fields ih =>
      intro other rest rest' _ _ h
      cases other with
      | object fields' =>
          rw [text_object, text_object] at h
          obtain ⟨hfields, htail⟩ := intercalate_append_inj (by decide) (by decide)
            fieldText_append_ne_brace (fun field hfield => determines_fieldText (ih field hfield))
            (by simpa using h)
          exact ⟨by rw [hfields], htail⟩
      | _ => exact absurd (kind_eq_of_append_eq h) (by simp [kind])

/-- **JSON is unambiguous.**  Different values have different texts. -/
theorem render_injective : Function.Injective render := by
  intro json other h
  have hends : EndsNumber [] := fun _ _ h => nomatch h
  exact (determines_text json other [] [] hends hends (by rw [text, text, h])).1

/-! ## Reading -/

/-- A field of an object. -/
def field? (name : String) : JsonText → Option JsonText
  | object fields => fields.lookup name
  | _ => none

/-- The items of an array. -/
def items : JsonText → List JsonText
  | array items => items
  | _ => []

/-- Whether a value is the truth value. -/
def isTrue : JsonText → Bool
  | boolean value => value
  | _ => false

/-- A value that is a text. -/
def string? : JsonText → Option String
  | string value => some value
  | _ => none

/-- The file of a template that is marked as changed. -/
def changedFile? (template : JsonText) : Option String :=
  if (template.field? "changed").any isTrue then (template.field? "file").bind string? else none

/-- The files that the JSON of a check marks as changed. -/
def changedFiles (json : JsonText) : List String :=
  ((json.field? "templates").elim [] items).filterMap changedFile?

end JsonText

/-! ## Checks -/

/-- A report names its file among the changed ones exactly if there are changes. -/
theorem changedFile?_toJson (r : TemplateReport) :
    r.toJson.changedFile? = if r.migration.hasChanges then some r.path.render else none := rfl

/-- A check marks the templates that would change, and no others of those it tells about. -/
theorem changedFiles_checkJson (reports : List TemplateReport) :
    (checkJson reports).changedFiles =
      (reports.filter (·.migration.hasChanges)).map (·.path.render) := by
  have htemplates : (checkJson reports).changedFiles =
      ((reports.filter (!·.migration.isUnchanged)).map (·.toJson)).filterMap
        JsonText.changedFile? := rfl
  rw [htemplates, List.filterMap_map]
  clear htemplates
  induction reports with
  | nil => rfl
  | cons r reports ih =>
      by_cases hchanges : r.migration.hasChanges
      · have hunchanged : r.migration.isUnchanged = false := by
          simp [Migration.isUnchanged, hchanges]
        simp [hunchanged, hchanges, changedFile?_toJson, ih]
      · by_cases hunchanged : r.migration.isUnchanged <;>
          simp [hunchanged, hchanges, changedFile?_toJson, ih]

/-- The field `ok` says whether the check has passed. -/
theorem field?_ok_checkJson (reports : List TemplateReport) :
    (checkJson reports).field? "ok" = some (.boolean (!reports.any (·.failsCheck))) := rfl

end TemplateMigration
