import Mathlib
import SearchQuery.Proofs.Json.Squeeze
import SearchQuery.Proofs.Json.Unambiguous
import SearchQuery.Token.Wire

/-!
# The wire form loses nothing

Reading the wire form of a token gives the token back (`Token.ofJson?_toJson`), whatever the token
is: none of the tokens has to be one that a query can consist of or stand for. Together with the
texts of JSON, which determine the value, no two forests leave the program as the same text, be it
compact or indented (`wireText_eq_iff`).
-/

namespace SearchQuery

/-! ## Reading what was written -/

/-- A position is read as it was written. -/
theorem offsetOfJson?_offsetToJson (o : Option Nat) :
    offsetOfJson? (offsetToJson o) = some o := by
  cases o <;> rfl

/-- Tokens are read as they were written, if each of them is. -/
theorem forestOfJson?_forestToJson {ts : List Token}
    (h : ∀ t ∈ ts, Token.ofJson? t.toJson = some t) :
    forestOfJson? (forestToJson ts) = some ts := by
  induction ts with
  | nil => rfl
  | cons t ts ih =>
    obtain ⟨ht, hts⟩ := List.forall_mem_cons.mp h
    simp [forestToJson, forestOfJson?, ht, ih hts]

/-- A part that may be missing is read as it was written, if the part is. -/
theorem optionOfJson?_optionToJson {o : Option Token}
    (h : ∀ t ∈ o.toList, Token.ofJson? t.toJson = some t) :
    optionOfJson? (Token.ofJson? (optionToJson o)) (optionToJson o) = some o := by
  cases o with
  | none => rfl
  | some t =>
    have ht := h t (List.mem_singleton.mpr rfl)
    rw [optionToJson, ht]
    cases t
    rw [Token.toJson, optionOfJson?]
    · rfl
    · nofun

/-- What a token holds is read as it was written, if its parts are. -/
theorem Kind.ofJson?_toJson (kind : Kind Token)
    (h : ∀ p ∈ kind.parts, Token.ofJson? p.toJson = some p) :
    Kind.ofJson? kind.name kind.toJson = some kind := by
  cases kind with
  | space | word | quoted | unclosedQuoted => rfl
  | comparator op => cases op <;> rfl
  | pinMark | colon | dots | comma | wildcard | anyChar | and | or | not => rfl
  | null | unbounded | danglingPin => rfl
  | group items | unclosedGroup items | list items | pattern items =>
    have hitems : forestOfJson? (forestToJson items) = some items := forestOfJson?_forestToJson h
    simp [Kind.name, Kind.toJson, Kind.ofJson?, hitems, Kind.ofItems?]
  | pin value =>
    cases value with
    | none => rfl
    | some value =>
      have hvalue := h value (List.mem_singleton.mpr rfl)
      simp [Kind.name, Kind.toJson, Kind.ofJson?, forestOfJson?, hvalue, Kind.ofItems?]
  | comparison op value =>
    have hop := Comparator.ofName?_eq_some_iff.mpr (rfl : op.name = op.name)
    have hvalue := optionOfJson?_optionToJson h
    simp [Kind.name, Kind.toJson, Kind.ofJson?, hop, hvalue]
  | range lower upper =>
    obtain ⟨hlower, hupper⟩ := List.forall_mem_cons.mp h
    simp [Kind.name, Kind.toJson, Kind.ofJson?, hlower, optionOfJson?_optionToJson hupper]
  | pair key value =>
    obtain ⟨hkey, hvalue⟩ := List.forall_mem_cons.mp h
    simp [Kind.name, Kind.toJson, Kind.ofJson?, hkey, hvalue value (List.mem_singleton.mpr rfl)]
  | unfinishedPair key value =>
    obtain ⟨hkey, hvalue⟩ := List.forall_mem_append.mp h
    simp [Kind.name, Kind.toJson, Kind.ofJson?, optionOfJson?_optionToJson hkey,
      optionOfJson?_optionToJson hvalue]

/-- A token is read as it was written. -/
theorem Token.ofJson?_toJson (t : Token) : Token.ofJson? t.toJson = some t := by
  induction t using Token.induct with
  | step t ih =>
    obtain ⟨kind, index, ⟨start, stop⟩, flagged⟩ := t
    have hkind := Kind.ofJson?_toJson kind ih
    cases flagged <;>
      simp [Token.toJson, Token.fields, Token.ofJson?, hkind, offsetOfJson?_offsetToJson]

/-! ## Texts -/

/-- Different forests have different wire forms. -/
theorem forestToJson_injective : Function.Injective forestToJson := by
  intro f g h
  have hread := congrArg forestOfJson? h
  rw [forestOfJson?_forestToJson fun t _ => t.ofJson?_toJson,
    forestOfJson?_forestToJson fun t _ => t.ofJson?_toJson] at hread
  exact Option.some.inj hread

/-- A value is determined by its indented text: without the layout that is the compact one. -/
theorem Json.prettyText_injective : Function.Injective Json.prettyText := by
  intro v w h
  have htext : v.pretty 0 [] = w.pretty 0 [] := String.ofList_injective h
  have hsqueeze := congrArg (squeeze .outside) htext
  rw [squeeze_pretty, squeeze_pretty] at hsqueeze
  exact (compact_inj v w endsNumber_nil endsNumber_nil hsqueeze).1

/-- The wire form loses nothing: two forests with the same compact text are the same, and so are
two forests with the same indented text. Nothing is asked of the tokens; in particular their
positions and texts may be any, and present or missing independently of each other. -/
theorem wireText_eq_iff (f g : List Token) :
    (compactText f = compactText g ↔ f = g) ∧ (prettyText f = prettyText g ↔ f = g) := by
  have harray : Function.Injective fun ts => Json.array (forestToJson ts) := fun _ _ h =>
    forestToJson_injective (Json.array.inj h)
  exact ⟨(Json.compactText_injective.comp harray).eq_iff,
    (Json.prettyText_injective.comp harray).eq_iff⟩

end SearchQuery
