import Mathlib.Data.List.Flatten
import Mathlib.Data.List.Perm.Basic
import SearchQuery.Token.Preorder
import SearchQuery.Token.Wire

/-!
# The objects of the wire form

Two walks go down into a forest, and neither follows the other: the report of problems lists the
tokens by their parts (`Token.preorder`), and the wire form is written kind by kind. Both come to
the same tokens (`headings_perm`). The objects of a wire form (`Json.objects`) are those that every
token writes for itself, each once (`Token.objects_toJson`): its own, which has a member `type`, and
for a comparison, a range or a pair the one around its parts, which has none.

The order of the two walks is not the same. The members of an object are in alphabetical order, so
the upper bound of a range, `e`, is written before the lower one, `s`.
-/

namespace SearchQuery

/-! ## Objects and their members -/

namespace Json

mutual

/-- The objects in a value, each before those inside it. -/
def objects : Json → List (List (String × Json))
  | array items => objectsItems items
  | object fields => fields :: objectsFields fields
  | _ => []

/-- The objects in some items. -/
def objectsItems : List Json → List (List (String × Json))
  | [] => []
  | item :: items => item.objects ++ objectsItems items

/-- The objects in the values of some fields. -/
def objectsFields : List (String × Json) → List (List (String × Json))
  | [] => []
  | (_, value) :: fields => value.objects ++ objectsFields fields

end

/-- The fields of a value that is an object. -/
def fields? : Json → Option (List (String × Json))
  | object fields => some fields
  | _ => none

/-- `objectsItems` in the natural per-element form. -/
theorem objectsItems_eq_flatMap (items : List Json) :
    objectsItems items = items.flatMap objects := by
  induction items with
  | nil => rfl
  | cons item items ih => simp [objectsItems, ih]

/-- `objectsFields` in the natural per-element form. -/
theorem objectsFields_eq_flatMap (fields : List (String × Json)) :
    objectsFields fields = fields.flatMap fun field => field.2.objects := by
  induction fields with
  | nil => rfl
  | cons field fields ih => simp [objectsFields, ih]

@[simp] theorem objects_null : null.objects = [] := rfl
@[simp] theorem objects_boolean (value : Bool) : (boolean value).objects = [] := rfl
@[simp] theorem objects_number (value : Int) : (number value).objects = [] := rfl
@[simp] theorem objects_text (value : String) : (text value).objects = [] := rfl

@[simp] theorem objects_array (items : List Json) :
    (array items).objects = items.flatMap objects := by
  rw [objects, objectsItems_eq_flatMap]

@[simp] theorem objects_object (fields : List (String × Json)) :
    (object fields).objects = fields :: fields.flatMap fun field => field.2.objects := by
  rw [objects, objectsFields_eq_flatMap]

end Json

/-- Does an object say of what type it is? -/
def isTyped (fields : List (String × Json)) : Bool := (fields.lookup "type").isSome

/-- Does an object say that something is missing in it, by the start of its type, or that it was
written wrongly? -/
def AsksForCorrection (fields : List (String × Json)) : Prop :=
  (∃ name : String, fields.lookup "type" = some (.text name) ∧
    "incomplete:".toList <+: name.toList) ∨
  fields.lookup "isError" = some (.boolean true)

/-! ## Headings -/

/-- What is said of a token apart from what it holds. -/
structure Heading where
  name : String
  index : Option Nat
  span : Span
  flagged : Bool
deriving DecidableEq, Repr

/-- The heading of a token. -/
def Token.heading (t : Token) : Heading := ⟨t.kind.name, t.index, t.span, t.flagged⟩

/-- Reads a flag, which is only written where it is set. -/
def flagOfJson? : Option Json → Option Bool
  | none => some false
  | some (.boolean true) => some true
  | _ => none

/-- The heading that an object has by its members, wherever these stand in it. -/
def Heading.ofFields? (fields : List (String × Json)) : Option Heading :=
  match fields.lookup "type", fields.lookup "index", fields.lookup "pos" with
  | some (.text name), some index, some (.array [start, stop]) => do
    let span := ⟨← offsetOfJson? start, ← offsetOfJson? stop⟩
    return ⟨name, ← offsetOfJson? index, span, ← flagOfJson? (fields.lookup "isError")⟩
  | _, _, _ => none

/-! ## What one token writes -/

/-- The fields of the wire form of a token. -/
def Token.wireFields (t : Token) : List (String × Json) := t.fields t.kind.toJson

/-- The objects that a token writes without those of its parts. -/
def Token.ownObjects (t : Token) : List (List (String × Json)) :=
  t.wireFields :: t.kind.toJson.fields?.toList

theorem Token.toJson_eq_object (t : Token) : t.toJson = .object t.wireFields := by
  cases t
  rw [Token.toJson, Token.wireFields]

/-- `forestToJson` in the natural per-element form. -/
theorem forestToJson_eq_map (ts : List Token) : forestToJson ts = ts.map Token.toJson := by
  induction ts with
  | nil => rfl
  | cons t ts ih => rw [forestToJson, ih, List.map_cons]

@[simp] theorem objects_offsetToJson (o : Option Nat) : (offsetToJson o).objects = [] := by
  cases o <;> rfl

/-- The objects of a part that may be missing. -/
@[simp] theorem objects_optionToJson (o : Option Token) :
    (optionToJson o).objects = o.toList.flatMap fun t => t.toJson.objects := by
  cases o <;> simp [optionToJson]

/-- A token writes its own object, and behind it the objects of what it holds. -/
theorem Token.objects_toJson_eq (t : Token) :
    t.toJson.objects = t.wireFields :: t.kind.toJson.objects := by
  rw [toJson_eq_object, Json.objects_object, wireFields, Token.fields]
  cases t.flagged <;> simp

/-- What a token holds consists of the object around its parts, if there is one, and of the objects
of the parts. Only ranges have the parts in another order than the text. -/
theorem Kind.objects_toJson (kind : Kind Token) :
    kind.toJson.objects.Perm
      (kind.toJson.fields?.toList ++ kind.parts.flatMap fun p => p.toJson.objects) := by
  cases kind with
  | range lower upper =>
    simpa [Kind.toJson, Kind.parts, Json.fields?] using List.perm_append_comm
  | group items | unclosedGroup items | list items | pattern items =>
    simp [Kind.toJson, Kind.parts, Json.fields?, forestToJson_eq_map, List.flatMap_map]
  | pin value => cases value <;> simp [Kind.toJson, Kind.parts, Json.fields?]
  | _ => simp [Kind.toJson, Kind.parts, Json.fields?]

/-- The member `type` of a token is the name of its kind. -/
theorem Token.lookup_type (t : Token) : t.wireFields.lookup "type" = some (.text t.kind.name) := by
  rw [wireFields, Token.fields]
  cases t.flagged <;> rfl

/-- The member `isError` of a token is there where the token is flagged. -/
theorem Token.lookup_isError (t : Token) :
    t.wireFields.lookup "isError" = if t.flagged then some (.boolean true) else none := by
  rw [wireFields, Token.fields]
  cases t.flagged <;> rfl

/-- The object around the parts of a token has neither a type nor a flag. -/
theorem Kind.lookup_fields {kind : Kind Token} {fields : List (String × Json)}
    (h : fields ∈ kind.toJson.fields?.toList) :
    fields.lookup "type" = none ∧ fields.lookup "isError" = none := by
  cases kind with
  | comparison | range | pair | unfinishedPair =>
    obtain rfl := List.mem_singleton.mp h
    exact ⟨rfl, rfl⟩
  | pin value => cases value <;> cases h
  | _ => cases h

/-- Of the objects that a token writes for itself, the one with a type is its own. -/
theorem Token.filter_isTyped_ownObjects (t : Token) :
    t.ownObjects.filter isTyped = [t.wireFields] := by
  have hself : isTyped t.wireFields = true := by rw [isTyped, lookup_type]; rfl
  have hinside : t.kind.toJson.fields?.toList.filter isTyped = [] := by
    refine List.filter_eq_nil_iff.mpr fun fields hfields => ?_
    rw [isTyped, (Kind.lookup_fields hfields).1]
    exact Bool.false_ne_true
  rw [ownObjects, List.filter_cons_of_pos hself, hinside]

/-- A token is read off its own object, up to what it holds. -/
theorem Token.ofFields?_wireFields (t : Token) :
    Heading.ofFields? t.wireFields = some t.heading := by
  obtain ⟨kind, index, ⟨start, stop⟩, flagged⟩ := t
  cases flagged <;> cases index <;> cases start <;> cases stop <;> rfl

/-- The kinds that say that something is missing are those whose names start with it. -/
theorem Kind.isUnfinished_iff {τ : Type} (kind : Kind τ) :
    kind.isUnfinished = true ↔ "incomplete:".toList <+: kind.name.toList := by
  cases kind <;> simp only [Kind.isUnfinished, Kind.name] <;> decide

/-- One of the objects that a token writes for itself asks for a correction where the token does. -/
theorem Token.exists_asksForCorrection_iff (t : Token) :
    (∃ fields ∈ t.ownObjects, AsksForCorrection fields) ↔
      t.kind.isUnfinished = true ∨ t.flagged = true := by
  have hself : AsksForCorrection t.wireFields ↔
      t.kind.isUnfinished = true ∨ t.flagged = true := by
    rw [AsksForCorrection, lookup_type, lookup_isError, Kind.isUnfinished_iff]
    simp
  have hinside : ∀ fields ∈ t.kind.toJson.fields?.toList, ¬AsksForCorrection fields := by
    intro fields hfields
    obtain ⟨htype, hflag⟩ := Kind.lookup_fields hfields
    simp [AsksForCorrection, htype, hflag]
  rw [ownObjects, ← hself]
  constructor
  · rintro ⟨fields, hmem, hasks⟩
    rcases List.mem_cons.mp hmem with rfl | hmem
    · exact hasks
    · exact absurd hasks (hinside fields hmem)
  · exact fun hasks => ⟨_, .head _, hasks⟩

/-! ## What a forest writes -/

/-- The objects of a wire form are those that each of the tokens writes for itself. -/
theorem Token.objects_toJson (t : Token) :
    t.toJson.objects.Perm (t.preorder.flatMap Token.ownObjects) := by
  induction t using Token.induct with
  | step t ih =>
    rw [objects_toJson_eq, preorder_eq, List.flatMap_cons, List.flatMap_assoc, ownObjects]
    refine .cons _ (t.kind.objects_toJson.trans ?_)
    exact (List.Perm.flatMap_left _ ih).append_left _

/-- The objects of the wire form of a forest are those that each of its tokens writes for itself. -/
theorem objects_forestToJson (forest : List Token) :
    (Json.array (forestToJson forest)).objects.Perm
      ((preorderAll forest).flatMap Token.ownObjects) := by
  rw [Json.objects_array, forestToJson_eq_map, List.flatMap_map, preorderAll_eq_flatMap,
    List.flatMap_assoc]
  exact .flatMap_left _ fun t _ => t.objects_toJson

/-- The report of problems and the wire form see the same tokens. The objects of the wire form that
have a type have the headings of the tokens that are walked through, each as often: the name of the
kind, the position, both ends of the stretch of text, and the flag. In particular some token is
unfinished or flagged if and only if some object asks for a correction. Nothing is asked of the
tokens. -/
theorem headings_perm (forest : List Token) :
    (((Json.array (forestToJson forest)).objects.filter isTyped).map Heading.ofFields?).Perm
      ((preorderAll forest).map fun t => some t.heading) ∧
    ((∃ t ∈ preorderAll forest, t.kind.isUnfinished = true ∨ t.flagged = true) ↔
      ∃ fields ∈ (Json.array (forestToJson forest)).objects, AsksForCorrection fields) := by
  have hobjects := objects_forestToJson forest
  refine ⟨?_, ?_⟩
  · have htyped := (hobjects.filter isTyped).map Heading.ofFields?
    rw [List.filter_flatMap, List.map_flatMap] at htyped
    simpa only [Token.filter_isTyped_ownObjects, List.map_singleton, Token.ofFields?_wireFields,
      ← List.map_eq_flatMap] using htyped
  · simp only [hobjects.mem_iff, List.mem_flatMap, ← Token.exists_asksForCorrection_iff]
    constructor
    · rintro ⟨t, ht, fields, hfields, hasks⟩
      exact ⟨fields, ⟨t, ht, hfields⟩, hasks⟩
    · rintro ⟨fields, ⟨t, ht, hfields⟩, hasks⟩
      exact ⟨t, ht, fields, hfields, hasks⟩

/-- The order of the headings is not that of the tokens: of `a..b` the upper bound is written
first. -/
example :
    let forest := [⟨.range (.covering (.word "a") 0 1) (some (.covering (.word "b") 3 4)), some 0,
      ⟨some 0, some 4⟩, false⟩]
    (((Json.array (forestToJson forest)).objects.filter isTyped).map Heading.ofFields?).map
        (·.map Heading.index) = [some (some 0), some (some 3), some (some 0)] ∧
      (preorderAll forest).map Token.index = [some 0, some 0, some 3] := by
  constructor <;> rfl

end SearchQuery
