import SearchQuery.Forest.Unit
import SearchQuery.Keyword

/-!
# Classes of tokens

What the readers ask of a token, by its kind: whether it is an operator, a comparator, dots, a group
or a value as it is, and whether a value or a unit can start with it. A token is in one class at
most, so that the lemmas here mostly say of a token in one class that it is in no other.
-/

namespace SearchQuery

namespace Token

/-- Is the token one of the three operators between units? -/
def isOperator (t : Token) : Bool :=
  match t.kind with
  | .and | .or | .not => true
  | _ => false

/-- Is the token a comparator on its own? -/
def isComparator (t : Token) : Bool :=
  match t.kind with
  | .comparator _ => true
  | _ => false

/-- Are the tokens the two dots of a range? -/
def isDots (t : Token) : Bool :=
  match t.kind with
  | .dots => true
  | _ => false

/-- Is the token a group, closed or not? -/
def isGroup (t : Token) : Bool :=
  match t.kind with
  | .group _ | .unclosedGroup _ => true
  | _ => false

/-- Is the token a value that is taken as it is? -/
def isWhole (t : Token) : Bool :=
  match t.kind with
  | .null | .range _ _ | .comparison _ _ | .pin _ | .danglingPin => true
  | _ => false

/-- Can a value start with the token? -/
def startsValue (t : Token) : Bool := t.isFragment || t.isWhole || t.isGroup

/-- Can a unit start with the token? -/
def startsUnit (t : Token) : Bool :=
  t.startsValue || t.isOperator || t.isComparator || t.isDots || t.isColon || t.isComma

theorem exists_of_isComparator {t : Token} (h : t.isComparator = true) :
    ∃ op, t.kind = .comparator op := by
  unfold isComparator at h
  split at h
  · next op hkind => exact ⟨op, hkind⟩
  · cases h

theorem isDots_iff {t : Token} : t.isDots = true ↔ t.kind = .dots := by
  unfold isDots
  split <;> simp_all

theorem isColon_iff {t : Token} : t.isColon = true ↔ t.kind = .colon := by
  unfold isColon
  split <;> simp_all

theorem isComma_iff {t : Token} : t.isComma = true ↔ t.kind = .comma := by
  unfold isComma
  split <;> simp_all

/-- What can be pinned is a fragment. -/
theorem isFragment_of_isPinnable {t : Token} (h : t.isPinnable = true) : t.isFragment = true := by
  unfold isPinnable at h
  unfold isFragment
  split at h <;> simp_all

/-- Fragments, values that are taken as they are and operators are no groups. -/
theorem isGroup_eq_false {t : Token}
    (h : t.isFragment = true ∨ t.isWhole = true ∨ t.isOperator = true) : t.isGroup = false := by
  obtain ⟨kind, index, span, flagged⟩ := t
  cases kind with
  | group | unclosedGroup => rcases h with h | h | h <;> cases h
  | _ => rfl

/-- A pin mark is no group. -/
theorem isGroup_of_isPinMark {t : Token} (h : t.isPinMark = true) : t.isGroup = false := by
  obtain ⟨kind, index, span, flagged⟩ := t
  cases kind <;> first | rfl | cases h

/-- A keyword is no group and no blank. -/
theorem isGroup_keyword {text : String} {index : Option Nat} {span : Span} {flagged : Bool} :
    (⟨(keyword? text).getD (.word text), index, span, flagged⟩ : Token).isGroup = false ∧
      (⟨(keyword? text).getD (.word text), index, span, flagged⟩ : Token).isSpace = false := by
  unfold keyword?
  split <;> exact ⟨rfl, rfl⟩

/-- A run of blanks is no group. -/
theorem isGroup_of_isSpace {t : Token} (h : t.isSpace = true) : t.isGroup = false := by
  obtain ⟨kind, index, span, flagged⟩ := t
  cases kind <;> first | rfl | cases h

/-- A comma is no group. -/
theorem isGroup_of_isComma {t : Token} (h : t.isComma = true) : t.isGroup = false := by
  simp [isGroup, isComma_iff.mp h]

/-- Dots are no group. -/
theorem isGroup_of_isDots {t : Token} (h : t.isDots = true) : t.isGroup = false := by
  simp [isGroup, isDots_iff.mp h]

/-- A group is a kind of group with items. -/
theorem exists_of_isGroup {t : Token} (h : t.isGroup = true) :
    ∃ (kind : List Token → Kind Token) (items : List Token),
      (kind = .group ∨ kind = .unclosedGroup) ∧ t = ⟨kind items, t.index, t.span, t.flagged⟩ := by
  obtain ⟨kind, index, span, flagged⟩ := t
  cases kind with
  | group items => exact ⟨.group, items, .inl rfl, rfl⟩
  | unclosedGroup items => exact ⟨.unclosedGroup, items, .inr rfl, rfl⟩
  | _ => cases h

/-- Blanks are nothing else. -/
theorem of_isSpace {t : Token} (h : t.isSpace = true) :
    t.isFragment = false ∧ t.startsValue = false ∧ t.isDots = false ∧ t.isComma = false ∧
      t.isColon = false := by
  obtain ⟨kind, index, span, flagged⟩ := t
  cases kind with
  | space => exact ⟨rfl, rfl, rfl, rfl, rfl⟩
  | _ => cases h

/-- A value does not start with a blank. -/
theorem isSpace_of_startsValue {t : Token} (h : t.startsValue = true) : t.isSpace = false := by
  cases hspace : t.isSpace with
  | false => rfl
  | true =>
    rw [(of_isSpace hspace).2.1] at h
    cases h

/-- A value does not start with a comma. -/
theorem isComma_of_startsValue {t : Token} (h : t.startsValue = true) : t.isComma = false := by
  obtain ⟨kind, index, span, flagged⟩ := t
  cases kind <;> first | rfl | cases h

/-- A unit does not start with a blank. -/
theorem startsUnit_of_isSpace {t : Token} (h : t.isSpace = true) : t.startsUnit = false := by
  obtain ⟨kind, index, span, flagged⟩ := t
  cases kind <;> first | rfl | cases h

/-- Fragments and operators are no blanks. -/
theorem isSpace_eq_false {t : Token} (h : t.isFragment = true ∨ t.isOperator = true) :
    t.isSpace = false := by
  obtain ⟨kind, index, span, flagged⟩ := t
  cases kind with
  | space => rcases h with h | h <;> cases h
  | _ => rfl

end Token

end SearchQuery
