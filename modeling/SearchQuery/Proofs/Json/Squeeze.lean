import SearchQuery.Json.Text

/-!
# Deleting the layout

`Json.squeeze` deletes the spaces and newlines of a JSON text that lie outside its strings. What is
left of the indented text of a value is its compact text (`Json.squeeze_pretty`): strings are left
as they are, since the quotation marks within them are escaped, and neither numbers nor brackets
contain anything that is deleted.
-/

namespace SearchQuery.Json

/-- Where a character of a JSON text stands with regard to strings. -/
inductive Place where
  | outside
  | inside
  /-- Within a string and behind a backslash. -/
  | escaped
deriving DecidableEq

/-- The place behind a character. -/
def Place.next : Place → Char → Place
  | outside, c => if c = '"' then inside else outside
  | inside, c => if c = '"' then outside else if c = '\\' then escaped else inside
  | escaped, _ => inside

/-- A text that starts in some place, without the spaces and newlines that lie outside strings. -/
def squeeze (place : Place) : List Char → List Char
  | [] => []
  | c :: cs =>
    if place = .outside ∧ (c = ' ' ∨ c = '\n') then squeeze place cs
    else c :: squeeze (place.next c) cs

/-! ## Strings -/

/-- A character that needs no backslash is kept, and the string goes on. -/
theorem squeeze_inside_cons {c : Char} (hquote : c ≠ '"') (hslash : c ≠ '\\') (cs : List Char) :
    squeeze .inside (c :: cs) = c :: squeeze .inside cs := by
  simp [squeeze, Place.next, hquote, hslash]

/-- What is written for a character of a string is kept, and the string goes on. -/
theorem squeeze_escape (c : Char) (rest : List Char) :
    squeeze .inside (escape c ++ rest) = escape c ++ squeeze .inside rest := by
  have hdigit : ∀ n, Nat.digitChar n ≠ '"' ∧ Nat.digitChar n ≠ '\\' := by simp
  unfold escape
  split
  iterate 7 rfl
  split
  · obtain ⟨hhigh, hhigh'⟩ := hdigit (c.toNat / 16)
    obtain ⟨hlow, hlow'⟩ := hdigit (c.toNat % 16)
    simp [squeeze, Place.next, hhigh, hhigh', hlow, hlow']
  · next hquote hslash _ _ _ _ _ _ => exact squeeze_inside_cons hquote hslash rest

/-- A string is kept. -/
theorem squeeze_quote (s : String) (rest : List Char) :
    squeeze .outside (quote s ++ rest) = quote s ++ squeeze .outside rest := by
  have hbody : ∀ cs : List Char, squeeze .inside (cs.flatMap escape ++ '"' :: rest) =
      cs.flatMap escape ++ '"' :: squeeze .outside rest := by
    intro cs
    induction cs with
    | nil => rfl
    | cons c cs ih =>
      rw [List.flatMap_cons, List.append_assoc, squeeze_escape, ih, List.append_assoc]
  simp only [quote, List.cons_append, List.append_assoc, List.nil_append, ← hbody]
  rfl

/-! ## Everything else -/

/-- Characters that are neither blank nor quotation marks are kept. -/
theorem squeeze_append_of_plain {cs : List Char}
    (h : ∀ c ∈ cs, c ≠ '"' ∧ c ≠ ' ' ∧ c ≠ '\n') (rest : List Char) :
    squeeze .outside (cs ++ rest) = cs ++ squeeze .outside rest := by
  induction cs with
  | nil => rfl
  | cons c cs ih =>
    obtain ⟨⟨hquote, hspace, hnewline⟩, hcs⟩ := List.forall_mem_cons.mp h
    simp [squeeze, Place.next, hquote, hspace, hnewline, ih hcs]

/-- A number consists of digits and a sign. -/
theorem isDigit_or_of_mem_digits {c : Char} {n : Int} (hc : c ∈ digits n) :
    c.isDigit = true ∨ c = '-' := by
  cases n with
  | ofNat n => exact .inl (Nat.isDigit_of_mem_toDigits (by decide) (by decide) hc)
  | negSucc n =>
    rcases List.mem_cons.mp hc with rfl | hc
    · exact .inr rfl
    · exact .inl (Nat.isDigit_of_mem_toDigits (by decide) (by decide) hc)

/-- A number is kept. -/
theorem squeeze_digits (n : Int) (rest : List Char) :
    squeeze .outside (digits n ++ rest) = digits n ++ squeeze .outside rest := by
  refine squeeze_append_of_plain (fun c hc => ?_) rest
  have hdigit := isDigit_or_of_mem_digits hc
  refine ⟨?_, ?_, ?_⟩
  all_goals
    rintro rfl
    revert hdigit
    decide

/-- The start of a line is deleted. -/
theorem squeeze_newline (depth : Nat) (rest : List Char) :
    squeeze .outside (newline depth ++ rest) = squeeze .outside rest := by
  have hspaces : ∀ n, squeeze .outside (List.replicate n ' ' ++ rest) = squeeze .outside rest := by
    intro n
    induction n with
    | zero => rfl
    | succ n ih => exact ih
  exact hspaces (2 * depth)

mutual

/-- The indented text of a value without its layout is the compact text. -/
theorem squeeze_pretty (depth : Nat) (rest : List Char) : ∀ value : Json,
    squeeze .outside (value.pretty depth rest) = value.compact (squeeze .outside rest)
  | null | boolean true | boolean false | array [] | object [] => rfl
  | number n => squeeze_digits n rest
  | text s => squeeze_quote s rest
  | array (item :: items) => by
    have hitems := squeeze_prettyItems (depth + 1) (newline depth ++ ']' :: rest) (item :: items)
    rw [squeeze_newline] at hitems
    exact congrArg ('[' :: ·) hitems
  | object (field :: fields) => by
    have hfields :=
      squeeze_prettyFields (depth + 1) (newline depth ++ '}' :: rest) (field :: fields)
    rw [squeeze_newline] at hfields
    exact congrArg ('{' :: ·) hfields

/-- The indented text of some items without its layout is the compact text. -/
theorem squeeze_prettyItems (depth : Nat) (rest : List Char) : ∀ items : List Json,
    squeeze .outside (prettyItems depth items rest) = compactItems items (squeeze .outside rest)
  | [] => by rw [prettyItems, compactItems]
  | [item] => by rw [prettyItems, compactItems, squeeze_newline, squeeze_pretty]
  | item :: next :: items => by
    have hmore := squeeze_prettyItems depth rest (next :: items)
    rw [prettyItems, compactItems, squeeze_newline, squeeze_pretty, ← hmore]
    rfl

/-- The indented text of some fields without its layout is the compact text. -/
theorem squeeze_prettyFields (depth : Nat) (rest : List Char) : ∀ fields : List (String × Json),
    squeeze .outside (prettyFields depth fields rest) = compactFields fields (squeeze .outside rest)
  | [] => by rw [prettyFields, compactFields]
  | [(name, value)] => by
    have hvalue := squeeze_pretty depth rest value
    rw [prettyFields, compactFields, List.append_assoc, squeeze_newline, squeeze_quote, ← hvalue]
    rfl
  | (name, value) :: next :: fields => by
    have hmore := squeeze_prettyFields depth rest (next :: fields)
    have hvalue := squeeze_pretty depth (',' :: prettyFields depth (next :: fields) rest) value
    rw [prettyFields, compactFields, List.append_assoc, squeeze_newline, squeeze_quote, ← hmore]
    exact congrArg (quote name ++ ':' :: ·) hvalue

end

/-- The blanks of a string stay, also those behind a quotation mark that belongs to it. -/
example :
    let value := array [text "a \" b", array [], number 1]
    value.pretty 0 [] = "[\n  \"a \\\" b\",\n  [],\n  1\n]".toList ∧
      squeeze .outside (value.pretty 0 []) = "[\"a \\\" b\",[],1]".toList := by
  decide

end SearchQuery.Json
