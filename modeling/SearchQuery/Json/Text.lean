import SearchQuery.Json.Basic

/-!
# The text of JSON

A JSON value has two texts. The compact one has no blanks outside strings. The indented one puts
every item and field on a line of its own, two spaces further in than the brackets around it, and
a space behind the colon of a field; empty brackets stay together. Within strings only what has to
be escaped is escaped: the quotation mark, the backslash and the control characters below U+0020.

The text of a value is written in front of the text that follows it, so that no part of it is
written twice. `compact_append` and `pretty_append` say that what follows makes no difference.
-/

namespace SearchQuery.Json

/-- A character as it is written within a string. -/
def escape (c : Char) : List Char :=
  match c with
  | '"' => ['\\', '"']
  | '\\' => ['\\', '\\']
  | '\x08' => ['\\', 'b']
  | '\x0c' => ['\\', 'f']
  | '\n' => ['\\', 'n']
  | '\r' => ['\\', 'r']
  | '\t' => ['\\', 't']
  | c =>
    if c.toNat < 0x20 then
      ['\\', 'u', '0', '0', Nat.digitChar (c.toNat / 16), Nat.digitChar (c.toNat % 16)]
    else [c]

/-- A string with its quotation marks. -/
def quote (text : String) : List Char := '"' :: (text.toList.flatMap escape ++ ['"'])

/-- A whole number in decimal digits. -/
def digits : Int → List Char
  | .ofNat n => Nat.toDigits 10 n
  | .negSucc n => '-' :: Nat.toDigits 10 (n + 1)

/-! ## Compact -/

mutual

/-- The text of a value without blanks, in front of the text that follows. -/
def compact : Json → List Char → List Char
  | null, rest => "null".toList ++ rest
  | boolean true, rest => "true".toList ++ rest
  | boolean false, rest => "false".toList ++ rest
  | number n, rest => digits n ++ rest
  | text s, rest => quote s ++ rest
  | array items, rest => '[' :: compactItems items (']' :: rest)
  | object fields, rest => '{' :: compactFields fields ('}' :: rest)

/-- The items of an array with commas between them. -/
def compactItems : List Json → List Char → List Char
  | [], rest => rest
  | [item], rest => item.compact rest
  | item :: next :: items, rest => item.compact (',' :: compactItems (next :: items) rest)

/-- The fields of an object with commas between them. -/
def compactFields : List (String × Json) → List Char → List Char
  | [], rest => rest
  | [(name, value)], rest => quote name ++ ':' :: value.compact rest
  | (name, value) :: next :: fields, rest =>
    quote name ++ ':' :: value.compact (',' :: compactFields (next :: fields) rest)

end

/-! ## Indented -/

/-- The start of a line that lies some levels deep. -/
def newline (depth : Nat) : List Char := '\n' :: List.replicate (2 * depth) ' '

mutual

/-- The text of a value that lies some levels deep, its items and fields on lines of their own, in
front of the text that follows. -/
def pretty (depth : Nat) : Json → List Char → List Char
  | array (item :: items), rest =>
    '[' :: prettyItems (depth + 1) (item :: items) (newline depth ++ ']' :: rest)
  | object (field :: fields), rest =>
    '{' :: prettyFields (depth + 1) (field :: fields) (newline depth ++ '}' :: rest)
  | value, rest => value.compact rest

/-- The items of an array, each on a line of its own. -/
def prettyItems (depth : Nat) : List Json → List Char → List Char
  | [], rest => rest
  | [item], rest => newline depth ++ item.pretty depth rest
  | item :: next :: items, rest =>
    newline depth ++ item.pretty depth (',' :: prettyItems depth (next :: items) rest)

/-- The fields of an object, each on a line of its own. -/
def prettyFields (depth : Nat) : List (String × Json) → List Char → List Char
  | [], rest => rest
  | [(name, value)], rest => newline depth ++ quote name ++ ':' :: ' ' :: value.pretty depth rest
  | (name, value) :: next :: fields, rest =>
    newline depth ++ quote name ++
      ':' :: ' ' :: value.pretty depth (',' :: prettyFields depth (next :: fields) rest)

end

/-- The compact text of a value. -/
def compactText (value : Json) : String := String.ofList (value.compact [])

/-- The indented text of a value. -/
def prettyText (value : Json) : String := String.ofList (value.pretty 0 [])

/-! ## What follows makes no difference -/

mutual

/-- The compact text of a value does not depend on what follows. -/
theorem compact_append (xs ys : List Char) :
    ∀ value : Json, value.compact (xs ++ ys) = value.compact xs ++ ys
  | null | boolean true | boolean false | number _ | text _ => by simp [compact]
  | array items => by simp [compact, ← compactItems_append (']' :: xs) ys items]
  | object fields => by simp [compact, ← compactFields_append ('}' :: xs) ys fields]

/-- The compact text of some items does not depend on what follows. -/
theorem compactItems_append (xs ys : List Char) :
    ∀ items : List Json, compactItems items (xs ++ ys) = compactItems items xs ++ ys
  | [] => by simp [compactItems]
  | [item] => by simp [compactItems, compact_append xs ys item]
  | item :: next :: items => by
    simp [compactItems, compactItems_append xs ys (next :: items),
      ← compact_append (',' :: compactItems (next :: items) xs) ys item]

/-- The compact text of some fields does not depend on what follows. -/
theorem compactFields_append (xs ys : List Char) :
    ∀ fields : List (String × Json), compactFields fields (xs ++ ys) = compactFields fields xs ++ ys
  | [] => by simp [compactFields]
  | [(name, value)] => by simp [compactFields, compact_append xs ys value]
  | (name, value) :: next :: fields => by
    simp [compactFields, compactFields_append xs ys (next :: fields),
      ← compact_append (',' :: compactFields (next :: fields) xs) ys value]

end

mutual

/-- The indented text of a value does not depend on what follows. -/
theorem pretty_append (depth : Nat) (xs ys : List Char) :
    ∀ value : Json, value.pretty depth (xs ++ ys) = value.pretty depth xs ++ ys
  | null | boolean _ | number _ | text _ | array [] | object [] => by simp [pretty, compact_append]
  | array (item :: items) => by
    simp [pretty, ← prettyItems_append (depth + 1) (newline depth ++ ']' :: xs) ys (item :: items)]
  | object (field :: fields) => by
    simp [pretty,
      ← prettyFields_append (depth + 1) (newline depth ++ '}' :: xs) ys (field :: fields)]

/-- The indented text of some items does not depend on what follows. -/
theorem prettyItems_append (depth : Nat) (xs ys : List Char) :
    ∀ items : List Json, prettyItems depth items (xs ++ ys) = prettyItems depth items xs ++ ys
  | [] => by simp [prettyItems]
  | [item] => by simp [prettyItems, pretty_append depth xs ys item]
  | item :: next :: items => by
    simp [prettyItems, prettyItems_append depth xs ys (next :: items),
      ← pretty_append depth (',' :: prettyItems depth (next :: items) xs) ys item]

/-- The indented text of some fields does not depend on what follows. -/
theorem prettyFields_append (depth : Nat) (xs ys : List Char) :
    ∀ fields : List (String × Json),
      prettyFields depth fields (xs ++ ys) = prettyFields depth fields xs ++ ys
  | [] => by simp [prettyFields]
  | [(name, value)] => by simp [prettyFields, pretty_append depth xs ys value]
  | (name, value) :: next :: fields => by
    simp [prettyFields, prettyFields_append depth xs ys (next :: fields),
      ← pretty_append depth (',' :: prettyFields depth (next :: fields) xs) ys value]

end

end SearchQuery.Json
