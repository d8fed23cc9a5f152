import SearchQuery.Json.Text
import SearchQuery.Token.Basic

/-!
# The wire form of tokens

Tokens leave the program as JSON objects with the fields `index`, `pos`, `type` and `value`, and
with `isError` where a token is flagged. A position that is not known is written as `-1`. What the
value looks like depends on the kind: a text, the name of a comparator, `true` for a mark, an array
of tokens, or an object of the parts.

`Token.toJson` writes the form and `Token.ofJson?` reads it. The reader takes exactly what the
writer makes, with the fields in alphabetical order.
-/

namespace SearchQuery

/-! ## Writing -/

/-- A position, or `-1`. -/
def offsetToJson : Option Nat → Json
  | none => .number (-1)
  | some n => .number n

/-- The fields of a token, given the JSON of its payload. -/
def Token.fields (t : Token) (payload : Json) : List (String × Json) :=
  [("index", offsetToJson t.index)] ++
    (if t.flagged then [("isError", .boolean true)] else []) ++
    [("pos", .array [offsetToJson t.span.start, offsetToJson t.span.stop]),
      ("type", .text t.kind.name), ("value", payload)]

mutual

/-- The wire form of a token. -/
def Token.toJson : Token → Json
  | ⟨kind, index, span, flagged⟩ =>
    .object (Token.fields ⟨kind, index, span, flagged⟩ kind.toJson)

/-- The wire form of what a token of some kind holds. -/
def Kind.toJson : Kind Token → Json
  | .space text | .word text | .quoted text | .unclosedQuoted text => .text text
  | .comparator op => .text op.name
  | .pinMark | .colon | .dots | .comma | .wildcard | .anyChar | .and | .or | .not => .boolean true
  | .null | .unbounded => .null
  | .group items | .unclosedGroup items | .list items | .pattern items =>
    .array (forestToJson items)
  | .pin none | .danglingPin => .array []
  | .pin (some value) => .array [value.toJson]
  | .comparison op value => .object [("op", .text op.name), ("value", optionToJson value)]
  | .range lower upper => .object [("e", optionToJson upper), ("s", lower.toJson)]
  | .pair key value => .object [("key", key.toJson), ("value", value.toJson)]
  | .unfinishedPair key value =>
    .object [("key", optionToJson key), ("value", optionToJson value)]

/-- The wire form of a part that may be missing. -/
def optionToJson : Option Token → Json
  | none => .null
  | some t => t.toJson

/-- The wire forms of some tokens. -/
def forestToJson : List Token → List Json
  | [] => []
  | t :: ts => t.toJson :: forestToJson ts

end

/-- The compact text of a forest. -/
def compactText (forest : List Token) : String := (Json.array (forestToJson forest)).compactText

/-- The indented text of a forest. -/
def prettyText (forest : List Token) : String := (Json.array (forestToJson forest)).prettyText

/-! ## Reading -/

/-- Reads a position, or `-1` for none. -/
def offsetOfJson? : Json → Option (Option Nat)
  | .number (.ofNat n) => some (some n)
  | .number (.negSucc 0) => some none
  | _ => none

/-- The kind with this name that carries a text. -/
def Kind.ofText? {τ : Type} (name text : String) : Option (Kind τ) :=
  match name with
  | "space" => some (.space text)
  | "word" => some (.word text)
  | "quoted_string" => some (.quoted text)
  | "incomplete:quoted_string" => some (.unclosedQuoted text)
  | "cmp_op" => (Comparator.ofName? text).map .comparator
  | _ => none

/-- The kind with this name that is a mark. -/
def Kind.ofMark? {τ : Type} (name : String) : Option (Kind τ) :=
  [.pinMark, .colon, .dots, .comma, .wildcard, .anyChar, .and, .or, .not].find? fun kind =>
    kind.name = name

/-- The kind with this name that has nothing to hold. -/
def Kind.ofNothing? {τ : Type} (name : String) : Option (Kind τ) :=
  [.null, .unbounded].find? fun kind => kind.name = name

/-- The kind with this name that holds a row of tokens. -/
def Kind.ofItems? {τ : Type} (name : String) (items : List τ) : Option (Kind τ) :=
  match name, items with
  | "group", items => some (.group items)
  | "incomplete:group", items => some (.unclosedGroup items)
  | "list", items => some (.list items)
  | "partial", items => some (.pattern items)
  | "pin", [] => some (.pin none)
  | "pin", [value] => some (.pin (some value))
  | "incomplete:pin", [] => some .danglingPin
  | _, _ => none

/-- A part that may be missing, given what reading it as a token gives. -/
def optionOfJson? {τ : Type} (read? : Option τ) : Json → Option (Option τ)
  | .null => some none
  | _ => read?.map some

mutual

/-- The token with a wire form. -/
def Token.ofJson? : Json → Option Token
  | .object [("index", index), ("pos", .array [start, stop]), ("type", .text name),
      ("value", payload)] => do
    let span := ⟨← offsetOfJson? start, ← offsetOfJson? stop⟩
    return ⟨← Kind.ofJson? name payload, ← offsetOfJson? index, span, false⟩
  | .object [("index", index), ("isError", .boolean true), ("pos", .array [start, stop]),
      ("type", .text name), ("value", payload)] => do
    let span := ⟨← offsetOfJson? start, ← offsetOfJson? stop⟩
    return ⟨← Kind.ofJson? name payload, ← offsetOfJson? index, span, true⟩
  | _ => none

/-- The kind with this name that holds something with a wire form. -/
def Kind.ofJson? (name : String) : Json → Option (Kind Token)
  | .text text => Kind.ofText? name text
  | .boolean true => Kind.ofMark? name
  | .null => Kind.ofNothing? name
  | .array items => do Kind.ofItems? name (← forestOfJson? items)
  | .object [("op", .text op), ("value", value)] => do
    guard (name = "cmp")
    return .comparison (← Comparator.ofName? op) (← optionOfJson? (Token.ofJson? value) value)
  | .object [("e", upper), ("s", lower)] => do
    guard (name = "range")
    return .range (← Token.ofJson? lower) (← optionOfJson? (Token.ofJson? upper) upper)
  | .object [("key", key), ("value", value)] =>
    match name with
    | "pair" => do return .pair (← Token.ofJson? key) (← Token.ofJson? value)
    | "incomplete:pair" => do
      return .unfinishedPair (← optionOfJson? (Token.ofJson? key) key)
        (← optionOfJson? (Token.ofJson? value) value)
    | _ => none
  | _ => none

/-- The tokens with some wire forms. -/
def forestOfJson? : List Json → Option (List Token)
  | [] => some []
  | item :: items => do return (← Token.ofJson? item) :: (← forestOfJson? items)

end

end SearchQuery
