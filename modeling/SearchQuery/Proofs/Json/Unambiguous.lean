import SearchQuery.Json.Text
import SearchQuery.Text.Hex

/-!
# The compact text determines the value

The compact texts of JSON are prefix-free: a text that starts with one determines the value and what
follows (`Json.compact_inj`). Two things need care. A number is over where no digit follows, so
that is asked of the text behind a value; commas and closing brackets meet it. And within a string
a quotation mark is always escaped, so that the first one on its own closes the string.
-/

namespace SearchQuery.Json

/-! ## Numbers -/

/-- The text does not start with a digit, so a number in front of it ends there. -/
def EndsNumber (rest : List Char) : Prop := ∀ c ∈ rest.head?, c.isDigit = false

/-- The end of the text ends a number. -/
theorem endsNumber_nil : EndsNumber [] := by
  rintro _ ⟨⟩

/-- A character that is no digit ends a number. -/
theorem endsNumber_cons {c : Char} (hc : c.isDigit = false) (rest : List Char) :
    EndsNumber (c :: rest) := by
  rintro _ ⟨⟩
  exact hc

/-- The digits of a number are the digits that a text starts with. -/
theorem takeWhile_isDigit_toDigits (n : Nat) {rest : List Char} (hrest : EndsNumber rest) :
    (Nat.toDigits 10 n ++ rest).takeWhile Char.isDigit = Nat.toDigits 10 n := by
  have hall : ∀ c ∈ Nat.toDigits 10 n, c.isDigit = true := fun c hc =>
    Nat.isDigit_of_mem_toDigits (by decide) (by decide) hc
  have hstop : rest.takeWhile Char.isDigit = [] := by
    cases rest with
    | nil => rfl
    | cons c rest => exact List.takeWhile_cons_of_neg (by simp [hrest c rfl])
  rw [List.takeWhile_append_of_pos hall, hstop, List.append_nil]

/-- A text that starts with a natural number, and goes on with something else, determines it. -/
theorem toDigits_append_inj {m n : Nat} {rest rest' : List Char} (hrest : EndsNumber rest)
    (hrest' : EndsNumber rest') (h : Nat.toDigits 10 m ++ rest = Nat.toDigits 10 n ++ rest') :
    m = n ∧ rest = rest' := by
  have hdigits : Nat.toDigits 10 m = Nat.toDigits 10 n := by
    rw [← takeWhile_isDigit_toDigits m hrest, h, takeWhile_isDigit_toDigits n hrest']
  have hvalue : m = n := by
    have hread := congrArg (Nat.ofDigitChars 10 · 0) hdigits
    simpa using hread
  subst hvalue
  exact ⟨rfl, List.append_cancel_left h⟩

/-- A natural number starts with a digit. -/
theorem exists_toDigits_eq_cons (n : Nat) :
    ∃ c cs, Nat.toDigits 10 n = c :: cs ∧ c.isDigit = true := by
  have hne : Nat.toDigits 10 n ≠ [] := Nat.toDigits_ne_nil
  obtain ⟨c, cs, hn⟩ := List.exists_cons_of_ne_nil hne
  have hc : c ∈ Nat.toDigits 10 n := hn ▸ List.mem_cons_self
  exact ⟨c, cs, hn, Nat.isDigit_of_mem_toDigits (by decide) (by decide) hc⟩

/-- No natural number starts with a sign. -/
theorem toDigits_append_ne (n : Nat) (rest cs : List Char) :
    Nat.toDigits 10 n ++ rest ≠ '-' :: cs := by
  obtain ⟨c, ds, hn, hc⟩ := exists_toDigits_eq_cons n
  rw [hn]
  rintro ⟨⟩
  cases hc

/-- A text that starts with a whole number, and goes on with something else, determines it. -/
theorem digits_append_inj {m n : Int} {rest rest' : List Char} (hrest : EndsNumber rest)
    (hrest' : EndsNumber rest') (h : digits m ++ rest = digits n ++ rest') :
    m = n ∧ rest = rest' := by
  cases m with
  | ofNat m =>
    cases n with
    | ofNat n =>
      obtain ⟨rfl, rfl⟩ := toDigits_append_inj hrest hrest' h
      exact ⟨rfl, rfl⟩
    | negSucc n => exact absurd h (toDigits_append_ne m rest _)
  | negSucc m =>
    cases n with
    | ofNat n => exact absurd h.symm (toDigits_append_ne n rest' _)
    | negSucc n =>
      obtain ⟨hvalue, rfl⟩ := toDigits_append_inj hrest hrest' (List.cons.inj h).2
      obtain rfl := Nat.succ.inj hvalue
      exact ⟨rfl, rfl⟩

/-! ## Strings -/

/-- The character that the text of a string starts with, and what is left of the text. -/
def unescape? : List Char → Option (Char × List Char)
  | '\\' :: 'u' :: a :: b :: c :: d :: rest => some (Text.scalarOfHex [a, b, c, d], rest)
  | '\\' :: 'b' :: rest => some ('\x08', rest)
  | '\\' :: 'f' :: rest => some ('\x0c', rest)
  | '\\' :: 'n' :: rest => some ('\n', rest)
  | '\\' :: 'r' :: rest => some ('\r', rest)
  | '\\' :: 't' :: rest => some ('\t', rest)
  | '\\' :: c :: rest => some (c, rest)
  | c :: rest => some (c, rest)
  | [] => none

/-- The numbers of the control characters are written with two digits that name them. -/
theorem scalarOfHex_control : ∀ n < 0x20,
    Text.scalarOfHex ['0', '0', Nat.digitChar (n / 16), Nat.digitChar (n % 16)] = Char.ofNat n := by
  decide

/-- What is written for a character is read as the character. -/
theorem unescape?_escape (c : Char) (rest : List Char) :
    unescape? (escape c ++ rest) = some (c, rest) := by
  unfold escape
  split
  iterate 7 rfl
  split
  · next hlt =>
    have hread := scalarOfHex_control c.toNat hlt
    rw [Char.ofNat_toNat] at hread
    simp only [List.cons_append, List.nil_append, unescape?, hread]
  · simp_all [unescape?]

/-- What is written for a character does not start with a quotation mark. -/
theorem escape_append_ne (c : Char) (rest cs : List Char) : escape c ++ rest ≠ '"' :: cs := by
  unfold escape
  split
  iterate 7 simp
  split <;> simp_all

/-- The text of a string, up to the quotation mark behind it, determines the string. -/
theorem escapes_inj : ∀ (xs ys : List Char) {rest rest' : List Char},
    xs.flatMap escape ++ '"' :: rest = ys.flatMap escape ++ '"' :: rest' → xs = ys ∧ rest = rest'
  | [], [], _, _, h => ⟨rfl, (List.cons.inj h).2⟩
  | [], y :: ys, _, _, h => by
    rw [List.flatMap_cons, List.append_assoc] at h
    exact absurd h.symm (escape_append_ne _ _ _)
  | x :: xs, [], _, _, h => by
    rw [List.flatMap_cons, List.append_assoc] at h
    exact absurd h (escape_append_ne _ _ _)
  | x :: xs, y :: ys, _, _, h => by
    rw [List.flatMap_cons, List.flatMap_cons, List.append_assoc, List.append_assoc] at h
    have hread := congrArg unescape? h
    rw [unescape?_escape, unescape?_escape] at hread
    obtain ⟨rfl, hrest⟩ := Prod.mk.inj (Option.some.inj hread)
    obtain ⟨rfl, rfl⟩ := escapes_inj xs ys hrest
    exact ⟨rfl, rfl⟩

/-- A text that starts with a string in quotation marks determines it. -/
theorem quote_append_inj {s t : String} {rest rest' : List Char}
    (h : quote s ++ rest = quote t ++ rest') : s = t ∧ rest = rest' := by
  have hbody : s.toList.flatMap escape ++ '"' :: rest = t.toList.flatMap escape ++ '"' :: rest' := by
    simpa [quote] using h
  obtain ⟨htext, rfl⟩ := escapes_inj _ _ hbody
  exact ⟨String.toList_injective htext, rfl⟩

/-! ## Values -/

/-- The forms of values that their first characters tell apart. -/
inductive Form where
  | null
  | boolean (value : Bool)
  | number
  | text
  | array
  | object

/-- The form of a value. -/
def form : Json → Form
  | null => .null
  | boolean value => .boolean value
  | number _ => .number
  | text _ => .text
  | array _ => .array
  | object _ => .object

/-- The form of the values that start with a character. -/
def Form.ofChar? : Char → Option Form
  | 'n' => some .null
  | 't' => some (.boolean true)
  | 'f' => some (.boolean false)
  | '"' => some .text
  | '[' => some .array
  | '{' => some .object
  | c => if c.isDigit || c == '-' then some .number else none

/-- A digit starts a number. -/
theorem Form.ofChar?_of_isDigit {c : Char} (hc : c.isDigit = true) :
    ofChar? c = some .number := by
  unfold ofChar?
  split
  iterate 6 cases hc
  rw [hc]
  rfl

/-- The first character of a text tells the form of the value. -/
theorem head?_compact (v : Json) (rest : List Char) :
    (v.compact rest).head?.bind Form.ofChar? = some v.form := by
  cases v with
  | number n =>
    cases n with
    | ofNat n =>
      obtain ⟨c, cs, hn, hc⟩ := exists_toDigits_eq_cons n
      rw [compact, digits, hn]
      exact Form.ofChar?_of_isDigit hc
    | negSucc n => rfl
  | boolean b => cases b <;> rfl
  | _ => rfl

/-- Values with the same text are of the same form. -/
theorem form_eq_of_compact_eq {v w : Json} {rest rest' : List Char}
    (h : v.compact rest = w.compact rest') : v.form = w.form := by
  have hhead := head?_compact v rest
  rw [h, head?_compact] at hhead
  exact (Option.some.inj hhead).symm

/-- No value starts with the bracket that closes an array. -/
theorem compact_ne_bracket (v : Json) (rest cs : List Char) : v.compact rest ≠ ']' :: cs := by
  intro h
  have hhead := head?_compact v rest
  rw [h] at hhead
  cases hhead

/-- The items behind the first one, each with a comma in front. -/
def moreItems : List Json → List Char → List Char
  | [], rest => rest
  | item :: items, rest => ',' :: compactItems (item :: items) rest

/-- The fields behind the first one, each with a comma in front. -/
def moreFields : List (String × Json) → List Char → List Char
  | [], rest => rest
  | field :: fields, rest => ',' :: compactFields (field :: fields) rest

theorem compactItems_cons (item : Json) (items : List Json) (rest : List Char) :
    compactItems (item :: items) rest = item.compact (moreItems items rest) := by
  cases items <;> rw [compactItems, moreItems]

theorem compactFields_cons (name : String) (value : Json) (fields : List (String × Json))
    (rest : List Char) : compactFields ((name, value) :: fields) rest =
      quote name ++ ':' :: value.compact (moreFields fields rest) := by
  cases fields <;> rw [compactFields, moreFields]

/-- A number in an array ends in front of whatever follows it. -/
theorem endsNumber_moreItems (items : List Json) (rest : List Char) :
    EndsNumber (moreItems items (']' :: rest)) := by
  cases items <;> exact endsNumber_cons (by decide) _

/-- A number in an object ends in front of whatever follows it. -/
theorem endsNumber_moreFields (fields : List (String × Json)) (rest : List Char) :
    EndsNumber (moreFields fields ('}' :: rest)) := by
  cases fields <;> exact endsNumber_cons (by decide) _

mutual

/-- A text that starts with a value, and goes on with something other than a digit, determines the
value and what follows. -/
theorem compact_inj : ∀ (v w : Json) {rest rest' : List Char}, EndsNumber rest → EndsNumber rest' →
    v.compact rest = w.compact rest' → v = w ∧ rest = rest'
  | null, w, _, _, _, _, h => by
    cases w with
    | null => exact ⟨rfl, List.append_cancel_left h⟩
    | _ => cases form_eq_of_compact_eq h
  | boolean a, w, _, _, _, _, h => by
    cases w with
    | boolean b =>
      cases form_eq_of_compact_eq h
      cases a <;> exact ⟨rfl, List.append_cancel_left h⟩
    | _ => cases form_eq_of_compact_eq h
  | number m, w, _, _, hrest, hrest', h => by
    cases w with
    | number n =>
      obtain ⟨rfl, rfl⟩ := digits_append_inj hrest hrest' h
      exact ⟨rfl, rfl⟩
    | _ => cases form_eq_of_compact_eq h
  | text s, w, _, _, _, _, h => by
    cases w with
    | text t =>
      obtain ⟨rfl, rfl⟩ := quote_append_inj h
      exact ⟨rfl, rfl⟩
    | _ => cases form_eq_of_compact_eq h
  | array xs, w, _, _, _, _, h => by
    cases w with
    | array ys =>
      obtain ⟨rfl, rfl⟩ := compactItems_inj xs ys (List.cons.inj h).2
      exact ⟨rfl, rfl⟩
    | _ => cases form_eq_of_compact_eq h
  | object fs, w, _, _, _, _, h => by
    cases w with
    | object gs =>
      obtain ⟨rfl, rfl⟩ := compactFields_inj fs gs (List.cons.inj h).2
      exact ⟨rfl, rfl⟩
    | _ => cases form_eq_of_compact_eq h

/-- The items up to a closing bracket, and what follows it, are determined. -/
theorem compactItems_inj : ∀ (xs ys : List Json) {rest rest' : List Char},
    compactItems xs (']' :: rest) = compactItems ys (']' :: rest') → xs = ys ∧ rest = rest'
  | [], [], _, _, h => ⟨rfl, (List.cons.inj h).2⟩
  | [], _ :: _, _, _, h => absurd (h.trans (compactItems_cons _ _ _)).symm (compact_ne_bracket _ _ _)
  | _ :: _, [], _, _, h =>
    absurd (h.symm.trans (compactItems_cons _ _ _)).symm (compact_ne_bracket _ _ _)
  | x :: xs, y :: ys, _, _, h => by
    rw [compactItems_cons, compactItems_cons] at h
    obtain ⟨rfl, hmore⟩ := compact_inj x y (endsNumber_moreItems _ _) (endsNumber_moreItems _ _) h
    match xs, ys with
    | [], [] => exact ⟨rfl, (List.cons.inj hmore).2⟩
    | [], _ :: _ | _ :: _, [] => cases hmore
    | _ :: _, _ :: _ =>
      obtain ⟨htail, rfl⟩ := compactItems_inj _ _ (List.cons.inj hmore).2
      exact ⟨congrArg _ htail, rfl⟩

/-- The fields up to a closing brace, and what follows it, are determined. -/
theorem compactFields_inj : ∀ (fs gs : List (String × Json)) {rest rest' : List Char},
    compactFields fs ('}' :: rest) = compactFields gs ('}' :: rest') → fs = gs ∧ rest = rest'
  | [], [], _, _, h => ⟨rfl, (List.cons.inj h).2⟩
  | [], (_, _) :: _, _, _, h => by
    rw [compactFields_cons] at h
    cases h
  | (_, _) :: _, [], _, _, h => by
    rw [compactFields_cons] at h
    cases h
  | (name, v) :: fs, (name', w) :: gs, _, _, h => by
    rw [compactFields_cons, compactFields_cons] at h
    obtain ⟨rfl, hvalue⟩ := quote_append_inj h
    obtain ⟨rfl, hmore⟩ := compact_inj v w (endsNumber_moreFields _ _) (endsNumber_moreFields _ _)
      (List.cons.inj hvalue).2
    match fs, gs with
    | [], [] => exact ⟨rfl, (List.cons.inj hmore).2⟩
    | [], _ :: _ | _ :: _, [] => cases hmore
    | _ :: _, _ :: _ =>
      obtain ⟨htail, rfl⟩ := compactFields_inj _ _ (List.cons.inj hmore).2
      exact ⟨congrArg _ htail, rfl⟩

end

/-- A value is determined by its compact text. -/
theorem compactText_injective : Function.Injective compactText := by
  intro v w h
  have htext : v.compact [] = w.compact [] := String.ofList_injective h
  exact (compact_inj v w endsNumber_nil endsNumber_nil htext).1

end SearchQuery.Json
