import SearchQuery.Token.Basic

/-!
# The tokens of a forest

`Token.preorder` lists a token and everything inside it, each token before its parts and the parts
in the order of the text. The recursion follows the kinds one by one; `Token.preorder_eq` restates
it through the parts of a token. The tokens of a forest that ask for a correction are its
`problems`.
-/

namespace SearchQuery

mutual

/-- A token and all the tokens inside it, each before its parts. -/
def Token.preorder : Token → List Token
  | ⟨kind, index, span, flagged⟩ => ⟨kind, index, span, flagged⟩ :: kind.preorder

/-- The tokens inside a token of some kind. -/
def Kind.preorder : Kind Token → List Token
  | .group items | .unclosedGroup items | .list items | .pattern items => preorderAll items
  | .pin value | .comparison _ value => preorderOption value
  | .range lower upper => lower.preorder ++ preorderOption upper
  | .pair key value => key.preorder ++ value.preorder
  | .unfinishedPair key value => preorderOption key ++ preorderOption value
  | _ => []

/-- The tokens of a part that may be missing. -/
def preorderOption : Option Token → List Token
  | none => []
  | some t => t.preorder

/-- The tokens of a forest. -/
def preorderAll : List Token → List Token
  | [] => []
  | t :: ts => t.preorder ++ preorderAll ts

end

/-- The tokens of a forest that ask for a correction. -/
def problems (forest : List Token) : List Token := (preorderAll forest).filter Token.isProblem

/-! ## The same through the parts of a token -/

/-- `preorderAll` in the natural per-element form. -/
theorem preorderAll_eq_flatMap (ts : List Token) : preorderAll ts = ts.flatMap Token.preorder := by
  induction ts with
  | nil => rfl
  | cons t ts ih => simp [preorderAll, ih]

/-- `preorderOption` in the natural per-element form. -/
theorem preorderOption_eq_flatMap (o : Option Token) :
    preorderOption o = o.toList.flatMap Token.preorder := by
  cases o <;> simp [preorderOption]

/-- The tokens inside a token are those of its parts. -/
theorem Kind.preorder_eq_flatMap (k : Kind Token) :
    k.preorder = k.parts.flatMap Token.preorder := by
  cases k <;>
    simp [Kind.preorder, Kind.parts, preorderAll_eq_flatMap, preorderOption_eq_flatMap,
      List.flatMap_append]

/-- A token comes before the tokens of its parts. -/
theorem Token.preorder_eq (t : Token) :
    t.preorder = t :: t.kind.parts.flatMap Token.preorder := by
  rw [← Kind.preorder_eq_flatMap]
  cases t
  rw [Token.preorder]

@[simp] theorem preorderAll_nil : preorderAll [] = [] := rfl

/-- The first token of a forest comes before its parts, and these before the other trees. -/
theorem preorderAll_cons (t : Token) (ts : List Token) :
    preorderAll (t :: ts) = t :: (preorderAll t.kind.parts ++ preorderAll ts) := by
  rw [preorderAll, Token.preorder_eq, ← preorderAll_eq_flatMap, List.cons_append]

/-- A token is one of its own tokens. -/
theorem Token.mem_preorder_self (t : Token) : t ∈ t.preorder := by
  rw [preorder_eq]
  exact .head _

/-- The tokens of a part are among those of the whole. -/
theorem Token.mem_preorder_of_part {x p t : Token} (hp : p ∈ t.kind.parts) (hx : x ∈ p.preorder) :
    x ∈ t.preorder := by
  rw [preorder_eq]
  exact .tail _ (List.mem_flatMap.mpr ⟨p, hp, hx⟩)

/-- The tokens of a forest are those of its trees. -/
theorem mem_preorderAll_iff {x : Token} {ts : List Token} :
    x ∈ preorderAll ts ↔ ∃ t ∈ ts, x ∈ t.preorder := by
  rw [preorderAll_eq_flatMap, List.mem_flatMap]

/-- The trees of a forest are among its tokens. -/
theorem mem_preorderAll {t : Token} {ts : List Token} (h : t ∈ ts) : t ∈ preorderAll ts :=
  mem_preorderAll_iff.mpr ⟨t, h, t.mem_preorder_self⟩

/-- What holds of all tokens of a forest holds of its first tree, of the parts of that, and of the
tokens of the other trees. -/
theorem forall_mem_preorderAll_cons {P : Token → Prop} {t : Token} {ts : List Token} :
    (∀ x ∈ preorderAll (t :: ts), P x) ↔
      P t ∧ (∀ x ∈ preorderAll t.kind.parts, P x) ∧ ∀ x ∈ preorderAll ts, P x := by
  rw [preorderAll_cons, List.forall_mem_cons, List.forall_mem_append]

@[simp] theorem preorderAll_append (ts us : List Token) :
    preorderAll (ts ++ us) = preorderAll ts ++ preorderAll us := by
  simp [preorderAll_eq_flatMap]

/-- What holds of all tokens of two forests together holds of those of both. -/
theorem forall_mem_preorderAll_append {P : Token → Prop} {ts us : List Token} :
    (∀ x ∈ preorderAll (ts ++ us), P x) ↔
      (∀ x ∈ preorderAll ts, P x) ∧ ∀ x ∈ preorderAll us, P x := by
  rw [preorderAll_append, List.forall_mem_append]

end SearchQuery
