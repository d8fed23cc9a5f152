import SearchQuery.Proofs.Composition
import SearchQuery.Proofs.Grammar
import SearchQuery.Proofs.Token.Reached

/-!
# The normal form that promotion gives

Promoted tokens are in normal form: wherever promotion comes, at the top and inside groups, no pin
mark is left and no word that spells a keyword (`normal_promote`). The normal forms are just the
tokens that promotion does not change (`promote_eq_self_iff`), whatever tokens they are, so that
promoting twice is promoting once. `promote_normalizes` adds that promotion goes piece by piece:
only a pin mark looks at what stands behind it, so that tokens may be cut behind any other one.
-/

namespace SearchQuery

/-- Tokens in normal form: there is nothing in them for promotion to recognise. -/
def Normal (ts : List Token) : Prop :=
  ∀ t, Reached ts t → t.isPinMark = false ∧ t.AvoidsKeyword

/-- Tokens are in normal form if the first one is, with the items that it holds as a group, and if
the others are. -/
theorem normal_cons {t : Token} {ts : List Token} :
    Normal (t :: ts) ↔ (t.isPinMark = false ∧ t.AvoidsKeyword) ∧
      (t.isGroup = true → Normal t.kind.parts) ∧ Normal ts :=
  forall_reached_cons

/-- No tokens are in normal form. -/
theorem normal_nil : Normal [] := by
  rintro t (hmem | hmem) <;> cases hmem

/-- A keyword is in normal form, and so is a word that spells none. -/
theorem keyword_avoidsKeyword {text : String} {index : Option Nat} {span : Span} {flagged : Bool} :
    (⟨(keyword? text).getD (.word text), index, span, flagged⟩ : Token).isPinMark = false ∧
      (⟨(keyword? text).getD (.word text), index, span, flagged⟩ : Token).AvoidsKeyword := by
  refine ⟨?_, fun _ => not_spellsKeyword⟩
  unfold keyword?
  split <;> rfl

/-- Whatever tokens are promoted to is in normal form. -/
theorem Promotes.normal {ts us : List Token} (h : Promotes ts us) : Normal us := by
  induction h with
  | nil => exact normal_nil
  | dangling => exact normal_cons.mpr ⟨⟨rfl, nofun⟩, nofun, normal_nil⟩
  | pinning _ _ _ ih | pinningNothing _ _ _ ih => exact normal_cons.mpr ⟨⟨rfl, nofun⟩, nofun, ih⟩
  | word _ ih =>
    refine normal_cons.mpr ⟨keyword_avoidsKeyword, ?_, ih⟩
    simp [Token.isGroup_keyword.1]
  | group hkind _ _ ih₁ ih₂ =>
    rcases hkind with rfl | rfl <;> exact normal_cons.mpr ⟨⟨rfl, nofun⟩, fun _ => ih₁, ih₂⟩
  | @settled t _ _ ht _ ih =>
    obtain ⟨kind, index, span, flagged⟩ := t
    cases kind with
    | word | pinMark | group | unclosedGroup => cases ht
    | _ => exact normal_cons.mpr ⟨⟨rfl, nofun⟩, nofun, ih⟩

/-- Tokens in normal form are promoted to themselves. -/
theorem Promotes.eq_of_normal {ts us : List Token} (h : Promotes ts us) (hnormal : Normal ts) :
    us = ts := by
  induction h with
  | nil => rfl
  | dangling hmark | pinning hmark | pinningNothing hmark =>
    rw [(normal_cons.mp hnormal).1.1] at hmark
    cases hmark
  | @word text _ _ _ _ _ _ ih =>
    obtain ⟨⟨-, hword⟩, -, hrest⟩ := normal_cons.mp hnormal
    rw [keyword?_eq_none (hword text rfl), Option.getD_none, ih hrest]
  | group hkind _ _ ih₁ ih₂ =>
    obtain ⟨-, hitems, hrest⟩ := normal_cons.mp hnormal
    rcases hkind with rfl | rfl <;> rw [ih₁ (hitems rfl), ih₂ hrest]
  | settled _ _ ih => rw [ih (normal_cons.mp hnormal).2.2]

/-- Promotion gives a normal form. -/
theorem normal_promote (ts : List Token) : Normal (promote ts) := (promotes ts).normal

/-- The normal forms are the tokens that promotion does not change. -/
theorem promote_eq_self_iff {ts : List Token} : promote ts = ts ↔ Normal ts := by
  constructor
  · intro h
    rw [← h]
    exact normal_promote ts
  · exact (promotes ts).eq_of_normal

/-- Promotion gives a normal form, piece by piece. What it gives it does not change again; wherever
it comes in what it gives, at the top and inside groups, there is neither a pin mark nor a word that
spells a keyword; and tokens that do not end in a pin mark are promoted by themselves, whatever
stands behind them. -/
theorem promote_normalizes (xs : List Token) :
    promote (promote xs) = promote xs ∧
      (∀ t, Reached (promote xs) t → t.isPinMark = false ∧ t.AvoidsKeyword) ∧
      ∀ ys, (∀ t ∈ xs.getLast?, t.isPinMark = false) →
        promote (xs ++ ys) = promote xs ++ promote ys :=
  ⟨promote_eq_self_iff.mpr (normal_promote xs), normal_promote xs, fun ys => promote_append ys⟩

/-- A group that ends in a pin mark, a pinned keyword, and a range that holds a pin mark. -/
def pinnedTokens : List Token :=
  [.covering (.group [.covering (.word "Or") 1 3, .covering .pinMark 3 4]) 0 5,
    .covering .pinMark 5 6, .covering (.word "and") 6 9,
    .covering (.range (.covering .pinMark 9 10) none) 9 12]

/-- The law for these tokens in front of another pin mark. -/
theorem promote_normalizes_pinned :
    promote (promote pinnedTokens) = promote pinnedTokens ∧
      (∀ t ∈ pinnedTokens.getLast?, t.isPinMark = false) ∧
      promote (pinnedTokens ++ [.covering .pinMark 12 13]) =
        [.covering (.group [.covering .or 1 3, .covering .danglingPin 3 4]) 0 5,
          .covering (.pin (some (.covering (.word "and") 6 9))) 5 9,
          .covering (.range (.covering .pinMark 9 10) none) 9 12,
          .covering .danglingPin 12 13] := by
  have hlast : ∀ t ∈ pinnedTokens.getLast?, t.isPinMark = false := by
    rintro t ⟨⟩
    rfl
  obtain ⟨htwice, -, happend⟩ := promote_normalizes pinnedTokens
  refine ⟨htwice, hlast, ?_⟩
  rw [happend _ hlast]
  cbv

end SearchQuery
