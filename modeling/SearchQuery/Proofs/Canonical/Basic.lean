import Mathlib.Data.List.Chain
import SearchQuery.Lexeme
import SearchQuery.Proofs.Scan.Piece
import SearchQuery.Proofs.Token.Class
import SearchQuery.Token.Preorder

/-!
# Canonical forests

Every forest in which nothing is missing can be written down in one plain way. `Token.Canonical`
says which tokens such a forest consists of, `printForest` writes it, with single blanks between its
units and no blanks elsewhere, and `Token.bare` forgets where in a text the tokens of a forest were
found. How deeply groups and pairs are nested is the forest's `nestingAll`.
-/

namespace SearchQuery

open Text (isBlank)

/-- Does the word spell a keyword, in letters of either case? -/
def SpellsKeyword (word : String) : Prop :=
  word.toList.map Char.toUpper ∈ ["AND", "OR", "NOT", "NULL"].map String.toList

instance (word : String) : Decidable (SpellsKeyword word) :=
  inferInstanceAs (Decidable (_ ∈ _))

/-- A word consists of word characters, of at least one. -/
def IsWord (word : String) : Prop := word ≠ "" ∧ ∀ c ∈ word.toList, isWordChar c = true

/-- Is the token a bare word? -/
def Token.isWord (t : Token) : Bool :=
  match t.kind with
  | .word _ => true
  | _ => false

/-- What a token may be used as. -/
inductive Role where
  /-- A part of a pattern. -/
  | fragment
  | value
  /-- The lower bound of a range, which may be left out and is no group. -/
  | lower
  /-- The upper bound of a range, which may be left out. -/
  | upper
  | unit

/-- A token that can be written down and used in some role. Nothing is said about where it lies. -/
inductive Token.Canonical : Role → Token → Prop
  | word {word : String} {index : Option Nat} {span : Span} : IsWord word → ¬ SpellsKeyword word →
      Canonical .fragment ⟨.word word, index, span, false⟩
  | quoted {text : String} {index : Option Nat} {span : Span} :
      Canonical .fragment ⟨.quoted text, index, span, false⟩
  | wildcard {index : Option Nat} {span : Span} :
      Canonical .fragment ⟨.wildcard, index, span, false⟩
  | anyChar {index : Option Nat} {span : Span} :
      Canonical .fragment ⟨.anyChar, index, span, false⟩
  | fragment {t : Token} : Canonical .fragment t → Canonical .value t
  /-- At least two fragments. Two words side by side would be one. -/
  | pattern {fragments : List Token} {index : Option Nat} {span : Span} :
      2 ≤ fragments.length → (∀ t ∈ fragments, Canonical .fragment t) →
      fragments.IsChain (fun t u => t.isWord = false ∨ u.isWord = false) →
      Canonical .value ⟨.pattern fragments, index, span, false⟩
  | null {index : Option Nat} {span : Span} : Canonical .value ⟨.null, index, span, false⟩
  /-- A pinned word may spell a keyword. -/
  | pinnedWord {word : String} {index index' : Option Nat} {span span' : Span} : IsWord word →
      Canonical .value ⟨.pin (some ⟨.word word, index', span', false⟩), index, span, false⟩
  | pinnedQuoted {text : String} {index index' : Option Nat} {span span' : Span} :
      Canonical .value ⟨.pin (some ⟨.quoted text, index', span', false⟩), index, span, false⟩
  | group {units : List Token} {index : Option Nat} {span : Span} :
      (∀ t ∈ units, Canonical .unit t) → Canonical .value ⟨.group units, index, span, false⟩
  | noLower {index : Option Nat} {span : Span} :
      Canonical .lower ⟨.unbounded, index, span, false⟩
  | lower {t : Token} : Canonical .value t → t.isGroup = false → Canonical .lower t
  | noUpper {index : Option Nat} {span : Span} :
      Canonical .upper ⟨.unbounded, index, span, false⟩
  | upper {t : Token} : Canonical .value t → Canonical .upper t
  | value {t : Token} : Canonical .value t → Canonical .unit t
  | and {index : Option Nat} {span : Span} : Canonical .unit ⟨.and, index, span, false⟩
  | or {index : Option Nat} {span : Span} : Canonical .unit ⟨.or, index, span, false⟩
  | not {index : Option Nat} {span : Span} : Canonical .unit ⟨.not, index, span, false⟩
  | comparison {op : Comparator} {v : Token} {index : Option Nat} {span : Span} :
      Canonical .value v → Canonical .unit ⟨.comparison op (some v), index, span, false⟩
  | range {lower upper : Token} {index : Option Nat} {span : Span} : Canonical .lower lower →
      Canonical .upper upper →
      Canonical .unit ⟨.range lower (some upper), index, span, false⟩
  | list {values : List Token} {index : Option Nat} {span : Span} :
      (∀ v ∈ values, Canonical .value v) → Canonical .unit ⟨.list values, index, span, false⟩
  | pair {key value : Token} {index : Option Nat} {span : Span} : Canonical .fragment key →
      key.isPinnable = true → Canonical .unit value →
      Canonical .unit ⟨.pair key value, index, span, false⟩

/-! ## Writing a forest -/

/-- A text with a backslash in front of every quotation mark and every backslash. -/
def escape (text : List Char) : List Char :=
  text.flatMap fun c => if c = '"' ∨ c = '\\' then ['\\', c] else [c]

mutual

/-- What is written for a token; nothing, if it is none that can be written. -/
def Token.print : Token → List Char
  | ⟨.word word, _, _, _⟩ => word.toList
  | ⟨.quoted text, _, _, _⟩ => '"' :: (escape text.toList ++ ['"'])
  | ⟨.wildcard, _, _, _⟩ => ['*']
  | ⟨.anyChar, _, _, _⟩ => ['?']
  | ⟨.pattern fragments, _, _, _⟩ => printFragments fragments
  | ⟨.null, _, _, _⟩ => "NULL".toList
  | ⟨.pin (some value), _, _, _⟩ => '^' :: value.print
  | ⟨.group units, _, _, _⟩ => '(' :: (printForest units ++ [')'])
  | ⟨.and, _, _, _⟩ => "AND".toList
  | ⟨.or, _, _, _⟩ => "OR".toList
  | ⟨.not, _, _, _⟩ => "NOT".toList
  | ⟨.comparison op (some value), _, _, _⟩ => op.symbol.toList ++ value.print
  | ⟨.range lower (some upper), _, _, _⟩ => lower.print ++ '.' :: '.' :: upper.print
  | ⟨.list values, _, _, _⟩ => if values.isEmpty then [','] else printValues values
  | ⟨.pair key value, _, _, _⟩ => key.print ++ ':' :: value.print
  | _ => []

/-- What is written for the fragments of a pattern, side by side. -/
def printFragments : List Token → List Char
  | [] => []
  | t :: ts => t.print ++ printFragments ts

/-- What is written for the values of a list, each behind a comma. -/
def printValues : List Token → List Char
  | [] => []
  | v :: vs => ',' :: (v.print ++ printValues vs)

/-- What is written for the units of a forest, with a blank between each two. -/
def printForest : List Token → List Char
  | [] => []
  | [t] => t.print
  | t :: u :: ts => t.print ++ ' ' :: printForest (u :: ts)

end

/-! ## Forgetting positions -/

mutual

/-- A token without its positions and those of its parts. -/
def Token.bare : Token → Token
  | ⟨kind, _, _, flagged⟩ => ⟨kind.bare, none, ⟨none, none⟩, flagged⟩

/-- A kind without the positions of the parts. -/
def Kind.bare : Kind Token → Kind Token
  | .group items => .group (bareAll items)
  | .unclosedGroup items => .unclosedGroup (bareAll items)
  | .pin value => .pin (bareOption value)
  | .comparison op value => .comparison op (bareOption value)
  | .range lower upper => .range lower.bare (bareOption upper)
  | .pair key value => .pair key.bare value.bare
  | .unfinishedPair key value => .unfinishedPair (bareOption key) (bareOption value)
  | .list items => .list (bareAll items)
  | .pattern fragments => .pattern (bareAll fragments)
  | kind => kind

/-- A part that may be missing, without its positions. -/
def bareOption : Option Token → Option Token
  | none => none
  | some t => some t.bare

/-- A forest without positions. -/
def bareAll : List Token → List Token
  | [] => []
  | t :: ts => t.bare :: bareAll ts

end

/-! ## Nesting -/

mutual

/-- How deeply groups and pairs are nested in a token. -/
def Token.nesting : Token → Nat
  | ⟨kind, _, _, _⟩ => kind.nesting

/-- How deeply groups and pairs are nested in a token of some kind. -/
def Kind.nesting : Kind Token → Nat
  | .group items | .unclosedGroup items => nestingAll items + 1
  | .list items | .pattern items => nestingAll items
  | .pin value | .comparison _ value => nestingOption value
  | .range lower upper => max lower.nesting (nestingOption upper)
  | .pair key value => max key.nesting value.nesting + 1
  | .unfinishedPair key value => max (nestingOption key) (nestingOption value) + 1
  | _ => 0

/-- How deeply groups and pairs are nested in a part that may be missing. -/
def nestingOption : Option Token → Nat
  | none => 0
  | some t => t.nesting

/-- How deeply groups and pairs are nested in a forest. -/
def nestingAll : List Token → Nat
  | [] => 0
  | t :: ts => max t.nesting (nestingAll ts)

end

/-! ## Small facts -/

/-- A word that spells no keyword is promoted to none. -/
theorem keyword?_eq_none {τ : Type} {word : String} (h : ¬ SpellsKeyword word) :
    (keyword? word : Option (Kind τ)) = none := by
  unfold keyword?
  split
  all_goals first
  | rfl
  | next heq => exact absurd (by rw [SpellsKeyword, heq]; decide) h

theorem bareAll_eq_map (ts : List Token) : bareAll ts = ts.map Token.bare := by
  induction ts with
  | nil => rfl
  | cons t ts ih => rw [bareAll, ih, List.map_cons]

theorem bareOption_eq_map (t? : Option Token) : bareOption t? = t?.map Token.bare := by
  cases t? <;> rfl

/-- The parts of a bare token are the bare parts. -/
theorem Kind.parts_bare (kind : Kind Token) : kind.bare.parts = bareAll kind.parts := by
  cases kind <;>
    simp [Kind.bare, Kind.parts, bareAll_eq_map, bareOption_eq_map, Option.toList_map]

/-- Positions have no part in what asks for a correction. -/
theorem Token.isProblem_bare (t : Token) : t.bare.isProblem = t.isProblem := by
  obtain ⟨kind, index, span, flagged⟩ := t
  cases kind <;> rfl

/-- Nor have those of the parts. -/
theorem Token.any_isProblem_bare (t : Token) :
    t.bare.preorder.any isProblem = t.preorder.any isProblem := by
  induction t using Token.induct with
  | step t ih =>
    have hparts : t.bare.kind.parts = bareAll t.kind.parts := by
      rw [← Kind.parts_bare]
      cases t
      rfl
    rw [preorder_eq, preorder_eq t, List.any_cons, List.any_cons, isProblem_bare, hparts,
      bareAll_eq_map]
    congr 1
    rw [List.any_flatMap, List.any_flatMap, List.any_map, Bool.eq_iff_iff, List.any_eq_true,
      List.any_eq_true]
    constructor
    · rintro ⟨u, hu, h⟩
      exact ⟨u, hu, (ih u hu).symm.trans h⟩
    · rintro ⟨u, hu, h⟩
      exact ⟨u, hu, (ih u hu).trans h⟩

@[simp] theorem nestingAll_singleton (t : Token) : nestingAll [t] = t.nesting := by
  simp [nestingAll]

/-- `nestingOption` in terms of lists. -/
theorem nestingOption_eq (t? : Option Token) : nestingOption t? = nestingAll t?.toList := by
  cases t? with
  | none => rfl
  | some t => simp [nestingOption]

/-- A forest is nested no more deeply than a number says if none of its trees is. -/
theorem nestingAll_le_iff {ts : List Token} {n : Nat} :
    nestingAll ts ≤ n ↔ ∀ t ∈ ts, t.nesting ≤ n := by
  induction ts with
  | nil => simp [nestingAll]
  | cons t ts ih => rw [nestingAll, Nat.max_le, ih, List.forall_mem_cons]

/-- What holds of a token and of everything in its parts holds of all that it contains. -/
theorem Token.forall_mem_preorder {P : Token → Prop} {t : Token} (ht : P t)
    (hparts : ∀ u ∈ t.kind.parts, ∀ x ∈ u.preorder, P x) : ∀ x ∈ t.preorder, P x := by
  rw [preorder_eq, List.forall_mem_cons]
  refine ⟨ht, ?_⟩
  intro x hx
  obtain ⟨u, hu, hx⟩ := List.mem_flatMap.mp hx
  exact hparts u hu x hx

/-- Nothing in a canonical token asks for a correction. -/
theorem Token.Canonical.isProblem_eq_false {role : Role} {t : Token} (h : Canonical role t) :
    ∀ x ∈ t.preorder, x.isProblem = false := by
  induction h with
  | fragment _ ih | lower _ _ ih | upper _ ih | value _ ih => exact ih
  | pattern _ _ _ ih | group _ ih | list _ ih => exact Token.forall_mem_preorder rfl ih
  | comparison _ ih =>
    exact Token.forall_mem_preorder rfl (List.forall_mem_singleton.mpr ih)
  | range _ _ ih₁ ih₂ | pair _ _ _ ih₁ ih₂ =>
    exact Token.forall_mem_preorder rfl
      (List.forall_mem_cons.mpr ⟨ih₁, List.forall_mem_singleton.mpr ih₂⟩)
  | pinnedWord | pinnedQuoted =>
    refine Token.forall_mem_preorder rfl (List.forall_mem_singleton.mpr ?_)
    exact Token.forall_mem_preorder rfl nofun
  | _ => exact Token.forall_mem_preorder rfl nofun

/-! ## How canonical tokens start -/

/-- Some characters start with one that is not blank and that makes no comparator longer. -/
def StartsValue (cs : List Char) : Prop :=
  ∃ c ds, cs = c :: ds ∧ isBlank c = false ∧ c ≠ '=' ∧ c ≠ '~'

/-- Some characters start with one that is not blank. -/
def StartsUnit (cs : List Char) : Prop := ∃ c ds, cs = c :: ds ∧ isBlank c = false

theorem StartsValue.append {cs : List Char} (h : StartsValue cs) (ds : List Char) :
    StartsValue (cs ++ ds) := by
  obtain ⟨c, es, rfl, hc⟩ := h
  exact ⟨c, es ++ ds, rfl, hc⟩

theorem StartsValue.unit {cs : List Char} (h : StartsValue cs) : StartsUnit cs := by
  obtain ⟨c, ds, rfl, hc, -⟩ := h
  exact ⟨c, ds, rfl, hc⟩

theorem StartsUnit.append {cs : List Char} (h : StartsUnit cs) (ds : List Char) :
    StartsUnit (cs ++ ds) := by
  obtain ⟨c, es, rfl, hc⟩ := h
  exact ⟨c, es ++ ds, rfl, hc⟩

/-- Whether a text is a word can be computed. -/
theorem IsWord.of_all {word : String} (hne : word ≠ "")
    (h : word.toList.all isWordChar = true) : IsWord word := ⟨hne, List.all_eq_true.mp h⟩

/-- Words start like values. -/
theorem IsWord.startsValue {word : String} (h : IsWord word) : StartsValue word.toList := by
  obtain ⟨hne, hall⟩ := h
  cases hword : word.toList with
  | nil => exact absurd (String.toList_eq_nil_iff.mp hword) hne
  | cons c ds =>
    have hc := hall c (by rw [hword]; exact .head _)
    refine ⟨c, ds, rfl, isBlank_of_isWordChar hc, ?_, ?_⟩
    · rintro rfl
      cases hc
    · rintro rfl
      cases hc

/-- What is written for a token that is used in some role. -/
def Role.Starts : Role → List Char → Prop
  | fragment, cs | value, cs => StartsValue cs
  | lower, cs | upper, cs => cs = [] ∨ StartsValue cs
  | unit, cs => StartsUnit cs

/-- What is written for a canonical token starts as its role demands. -/
theorem Token.Canonical.starts {role : Role} {t : Token} (h : Canonical role t) :
    role.Starts t.print := by
  induction h with
  | word hword =>
    rw [print]
    exact hword.startsValue
  | quoted | wildcard | anyChar | null | pinnedWord | pinnedQuoted | group =>
    rw [print]
    exact ⟨_, _, rfl, rfl, by decide, by decide⟩
  | fragment _ ih => exact ih
  | @pattern fragments _ _ hlen _ _ ih =>
    cases fragments with
    | nil => cases hlen
    | cons t ts =>
      rw [print, printFragments]
      exact (ih t (.head _)).append _
  | noLower | noUpper =>
    rw [print]
    · exact .inl rfl
    all_goals exact nofun
  | lower _ _ ih | upper _ ih => exact .inr ih
  | value _ ih => exact ih.unit
  | and | or | not =>
    rw [print]
    exact ⟨_, _, rfl, rfl⟩
  | @comparison op _ _ _ _ ih =>
    rw [print]
    have hop : StartsUnit op.symbol.toList := by cases op <;> exact ⟨_, _, rfl, rfl⟩
    exact hop.append _
  | range _ _ ih =>
    rw [print]
    rcases ih with h | h
    · rw [h]
      exact ⟨_, _, rfl, rfl⟩
    · exact h.unit.append _
  | @list values _ _ _ _ =>
    rw [print]
    cases values with
    | nil => exact ⟨_, _, rfl, rfl⟩
    | cons v vs => exact ⟨_, _, rfl, rfl⟩
  | pair _ _ _ ih =>
    rw [print]
    exact ih.unit.append _

end SearchQuery
