import SearchQuery.Proofs.Token.Recast

/-!
# Tokens at other positions

`Token.relabel f` puts a token, with everything inside it, at the positions that `f` gives for its
own ones; where `f` gives none, the position is forgotten. Nothing else about the token changes, not
even what blanks consist of, so that this is a case of `Token.recast` (`Token.relabel_eq_recast`).
The case that the text of a token moves as a whole is `Token.shift`.
-/

namespace SearchQuery

mutual

/-- A token at other positions, with its parts. -/
def Token.relabel (f : Nat → Option Nat) : Token → Token
  | ⟨kind, index, span, flagged⟩ => ⟨kind.relabel f, index.bind f, span.relabel f, flagged⟩

/-- A kind with its parts at other positions. -/
def Kind.relabel (f : Nat → Option Nat) : Kind Token → Kind Token
  | .group items => .group (relabelAll f items)
  | .unclosedGroup items => .unclosedGroup (relabelAll f items)
  | .pin value => .pin (relabelOption f value)
  | .comparison op value => .comparison op (relabelOption f value)
  | .range lower upper => .range (lower.relabel f) (relabelOption f upper)
  | .pair key value => .pair (key.relabel f) (value.relabel f)
  | .unfinishedPair key value => .unfinishedPair (relabelOption f key) (relabelOption f value)
  | .list items => .list (relabelAll f items)
  | .pattern fragments => .pattern (relabelAll f fragments)
  | kind => kind

/-- A part that may be missing, at other positions. -/
def relabelOption (f : Nat → Option Nat) : Option Token → Option Token
  | none => none
  | some t => some (t.relabel f)

/-- A forest at other positions. -/
def relabelAll (f : Nat → Option Nat) : List Token → List Token
  | [] => []
  | t :: ts => t.relabel f :: relabelAll f ts

end

/-- A token whose text stands `n` bytes further on. -/
def Token.shift (n : Nat) (t : Token) : Token := t.relabel fun p => some (p + n)

section

variable {f : Nat → Option Nat}

mutual

/-- Positions change, and nothing else does. -/
theorem Token.relabel_eq_recast : ∀ t : Token, t.relabel f = t.recast f id
  | ⟨kind, index, span, flagged⟩ => by rw [Token.relabel, Token.recast, Kind.relabel_eq_recast kind]

theorem Kind.relabel_eq_recast : ∀ kind : Kind Token, kind.relabel f = kind.recast f id
  | .group items | .unclosedGroup items | .list items | .pattern items => by
    rw [Kind.relabel, Kind.recast, relabelAll_eq_recastAll items]
  | .pin value | .comparison _ value => by
    rw [Kind.relabel, Kind.recast, relabelOption_eq_recastOption value]
  | .range lower upper => by
    rw [Kind.relabel, Kind.recast, Token.relabel_eq_recast lower,
      relabelOption_eq_recastOption upper]
  | .pair key value => by
    rw [Kind.relabel, Kind.recast, Token.relabel_eq_recast key, Token.relabel_eq_recast value]
  | .unfinishedPair key value => by
    rw [Kind.relabel, Kind.recast, relabelOption_eq_recastOption key,
      relabelOption_eq_recastOption value]
  | .space _ | .word _ | .quoted _ | .unclosedQuoted _ | .pinMark | .comparator _ | .colon | .dots
  | .comma | .wildcard | .anyChar | .and | .or | .not | .null | .danglingPin | .unbounded => rfl

theorem relabelOption_eq_recastOption : ∀ t? : Option Token,
    relabelOption f t? = recastOption f id t?
  | none => rfl
  | some t => by rw [relabelOption, recastOption, Token.relabel_eq_recast t]

theorem relabelAll_eq_recastAll : ∀ ts : List Token, relabelAll f ts = recastAll f id ts
  | [] => rfl
  | t :: ts => by
    rw [relabelAll, recastAll, Token.relabel_eq_recast t, relabelAll_eq_recastAll ts]

end

/-- Positions change throughout a forest, and nothing else does. -/
theorem map_relabel_eq_map_recast (ts : List Token) :
    ts.map (Token.relabel f) = ts.map (Token.recast f id) :=
  List.map_congr_left fun t _ => t.relabel_eq_recast

/-- A group is a group of its items at other positions. -/
theorem Kind.relabel_group {kind : List Token → Kind Token} {items : List Token}
    (hkind : kind = .group ∨ kind = .unclosedGroup) :
    (kind items).relabel f = kind (items.map (Token.relabel f)) := by
  rw [relabel_eq_recast, recast_group hkind, map_relabel_eq_map_recast]

end

end SearchQuery
