import SearchQuery.Proofs.Token.Class
import SearchQuery.Token.Preorder

/-!
# Tokens that are reached through groups

Promotion and reading go down into groups, and into no other tokens that hold parts. `Reached` says
which tokens they come across on the way: those of a sequence itself, and those that are reached
among the items of its groups. What a token other than a group holds is not reached.
-/

namespace SearchQuery

/-- A token is one of the tokens `ts`, or is reached from one of them through groups. -/
inductive Reached : List Token → Token → Prop
  | here {ts : List Token} {t : Token} : t ∈ ts → Reached ts t
  | inside {ts : List Token} {g t : Token} : g ∈ ts → g.isGroup = true → Reached g.kind.parts t →
      Reached ts t

/-- What is reached from some tokens is reached from more of them. -/
theorem Reached.mono {ts us : List Token} {t : Token} (h : Reached ts t) (hsub : ts ⊆ us) :
    Reached us t := by
  cases h with
  | here hmem => exact .here (hsub hmem)
  | inside hmem hgroup hinside => exact .inside (hsub hmem) hgroup hinside

/-- What is reached from some tokens is one of the tokens of their forest. -/
theorem Reached.mem_preorderAll {ts : List Token} {t : Token} (h : Reached ts t) :
    t ∈ preorderAll ts := by
  induction h with
  | here hmem => exact SearchQuery.mem_preorderAll hmem
  | inside hmem _ _ ih =>
    obtain ⟨p, hp, ht⟩ := mem_preorderAll_iff.mp ih
    exact mem_preorderAll_iff.mpr ⟨_, hmem, Token.mem_preorder_of_part hp ht⟩

/-- What holds of all that is reached from some tokens holds of the first one, of all that is
reached from its items if it is a group, and of all that is reached from the others. -/
theorem forall_reached_cons {P : Token → Prop} {t : Token} {ts : List Token} :
    (∀ u, Reached (t :: ts) u → P u) ↔
      P t ∧ (t.isGroup = true → ∀ u, Reached t.kind.parts u → P u) ∧ ∀ u, Reached ts u → P u := by
  constructor
  · intro h
    refine ⟨h t (.here (.head _)), ?_, ?_⟩
    · exact fun hgroup u hu => h u (.inside (.head _) hgroup hu)
    · exact fun u hu => h u (hu.mono (List.subset_cons_self t ts))
  · rintro ⟨hself, hinside, hrest⟩ u hu
    cases hu with
    | here hmem =>
      rcases List.mem_cons.mp hmem with rfl | hmem
      · exact hself
      · exact hrest u (.here hmem)
    | inside hmem hgroup hu =>
      rcases List.mem_cons.mp hmem with rfl | hmem
      · exact hinside hgroup u hu
      · exact hrest u (.inside hmem hgroup hu)

end SearchQuery
