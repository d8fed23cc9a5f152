import SearchQuery.Proofs.Token.Class
import SearchQuery.Token.Preorder

/-!
# Tokens at other positions and with other blanks

`Token.recast f b` puts a token, with everything inside it, at the positions that `f` gives for its
own ones, and replaces the text of each run of blanks by what `b` makes of it. Where `f` gives no
position, it is forgotten. Nothing else about the token changes, so that it stays in the classes
that the readers tell apart (`Token.class_recast`). `Token.outline` forgets all positions and all
that blanks consist of.
-/

namespace SearchQuery

/-- A span at other positions. -/
def Span.relabel (f : Nat → Option Nat) (span : Span) : Span :=
  ⟨span.start.bind f, span.stop.bind f⟩

mutual

/-- A token at other positions and with other blanks, with its parts. -/
def Token.recast (f : Nat → Option Nat) (b : String → String) : Token → Token
  | ⟨kind, index, span, flagged⟩ => ⟨kind.recast f b, index.bind f, span.relabel f, flagged⟩

/-- A kind with its parts at other positions and with other blanks. -/
def Kind.recast (f : Nat → Option Nat) (b : String → String) : Kind Token → Kind Token
  | .space text => .space (b text)
  | .group items => .group (recastAll f b items)
  | .unclosedGroup items => .unclosedGroup (recastAll f b items)
  | .pin value => .pin (recastOption f b value)
  | .comparison op value => .comparison op (recastOption f b value)
  | .range lower upper => .range (lower.recast f b) (recastOption f b upper)
  | .pair key value => .pair (key.recast f b) (value.recast f b)
  | .unfinishedPair key value => .unfinishedPair (recastOption f b key) (recastOption f b value)
  | .list items => .list (recastAll f b items)
  | .pattern fragments => .pattern (recastAll f b fragments)
  | kind => kind

/-- A part that may be missing, at other positions and with other blanks. -/
def recastOption (f : Nat → Option Nat) (b : String → String) : Option Token → Option Token
  | none => none
  | some t => some (t.recast f b)

/-- A forest at other positions and with other blanks. -/
def recastAll (f : Nat → Option Nat) (b : String → String) : List Token → List Token
  | [] => []
  | t :: ts => t.recast f b :: recastAll f b ts

end

/-- What is left of a token when it is forgotten where it lies and what its blanks consist of. -/
def Token.outline (t : Token) : Token := t.recast (fun _ => none) fun _ => ""

section

variable {f : Nat → Option Nat} {b : String → String}

/-- `recastAll` in the natural per-element form. -/
@[simp] theorem recastAll_eq_map (ts : List Token) :
    recastAll f b ts = ts.map (Token.recast f b) := by
  induction ts with
  | nil => rfl
  | cons t ts ih => rw [recastAll, ih, List.map_cons]

/-- `recastOption` in the natural form. -/
@[simp] theorem recastOption_eq_map (t? : Option Token) :
    recastOption f b t? = t?.map (Token.recast f b) := by
  cases t? <;> rfl

@[simp] theorem Token.index_recast (t : Token) : (t.recast f b).index = t.index.bind f := by
  cases t
  rfl

@[simp] theorem Token.span_recast (t : Token) : (t.recast f b).span = t.span.relabel f := by
  cases t
  rfl

@[simp] theorem Token.kind_recast (t : Token) : (t.recast f b).kind = t.kind.recast f b := by
  cases t
  rfl

/-- The class of a token depends neither on where it lies nor on what blanks consist of. -/
@[simp] theorem Token.class_recast (t : Token) :
    (t.recast f b).isSpace = t.isSpace ∧ (t.recast f b).isFragment = t.isFragment ∧
      (t.recast f b).isWhole = t.isWhole ∧ (t.recast f b).isGroup = t.isGroup ∧
      (t.recast f b).isOperator = t.isOperator ∧ (t.recast f b).isComparator = t.isComparator ∧
      (t.recast f b).isDots = t.isDots ∧ (t.recast f b).isColon = t.isColon ∧
      (t.recast f b).isComma = t.isComma ∧ (t.recast f b).startsValue = t.startsValue ∧
      (t.recast f b).startsUnit = t.startsUnit ∧ (t.recast f b).isPinnable = t.isPinnable ∧
      (t.recast f b).isPinMark = t.isPinMark := by
  obtain ⟨kind, index, span, flagged⟩ := t
  cases kind <;>
    exact ⟨rfl, rfl, rfl, rfl, rfl, rfl, rfl, rfl, rfl, rfl, rfl, rfl, rfl⟩

/-- Nor does its name. -/
@[simp] theorem Kind.name_recast (kind : Kind Token) : (kind.recast f b).name = kind.name := by
  cases kind <;> rfl

/-- A group is a group of its items at other positions and with other blanks. -/
theorem Kind.recast_group {kind : List Token → Kind Token} {items : List Token}
    (hkind : kind = .group ∨ kind = .unclosedGroup) :
    (kind items).recast f b = kind (items.map (Token.recast f b)) := by
  rcases hkind with rfl | rfl <;> rw [Kind.recast, recastAll_eq_map]

end

/-! ## One change after another -/

section

variable {f f' : Nat → Option Nat} {b b' : String → String}

mutual

/-- Two changes are made in one. -/
theorem Token.recast_recast : ∀ t : Token,
    (t.recast f b).recast f' b' = t.recast (fun p => (f p).bind f') (b' ∘ b)
  | ⟨kind, index, span, flagged⟩ => by
    simp only [Token.recast, Kind.recast_recast kind, Span.relabel, Option.bind_assoc]

/-- Two changes of the parts are made in one. -/
theorem Kind.recast_recast : ∀ kind : Kind Token,
    (kind.recast f b).recast f' b' = kind.recast (fun p => (f p).bind f') (b' ∘ b)
  | .group items | .unclosedGroup items | .list items | .pattern items => by
    simp only [Kind.recast, recastAll_recastAll items]
  | .pin value | .comparison _ value => by simp only [Kind.recast, recastOption_recastOption value]
  | .range lower upper => by
    simp only [Kind.recast, Token.recast_recast lower, recastOption_recastOption upper]
  | .pair key value => by
    simp only [Kind.recast, Token.recast_recast key, Token.recast_recast value]
  | .unfinishedPair key value => by
    simp only [Kind.recast, recastOption_recastOption key, recastOption_recastOption value]
  | .space _ | .word _ | .quoted _ | .unclosedQuoted _ | .pinMark | .comparator _ | .colon | .dots
  | .comma | .wildcard | .anyChar | .and | .or | .not | .null | .danglingPin | .unbounded => rfl

/-- Two changes of a part that may be missing are made in one. -/
theorem recastOption_recastOption : ∀ t? : Option Token,
    recastOption f' b' (recastOption f b t?) = recastOption (fun p => (f p).bind f') (b' ∘ b) t?
  | none => rfl
  | some t => by simp only [recastOption, Token.recast_recast t]

/-- Two changes of a forest are made in one. -/
theorem recastAll_recastAll : ∀ ts : List Token,
    recastAll f' b' (recastAll f b ts) = recastAll (fun p => (f p).bind f') (b' ∘ b) ts
  | [] => rfl
  | t :: ts => by simp only [recastAll, Token.recast_recast t, recastAll_recastAll ts]

end

/-- An outline depends neither on positions nor on what blanks consist of. -/
theorem Token.outline_recast (t : Token) : (t.recast f b).outline = t.outline := by
  have hnone : (fun p => (f p).bind fun _ => (none : Option Nat)) = fun _ => none := by
    funext p
    cases f p <;> rfl
  rw [outline, recast_recast, hnone]
  rfl

end

end SearchQuery
