import SearchQuery.Proofs.Forest.Cursor
import SearchQuery.Proofs.Forest.Recast

/-!
# Positions follow, and decide nothing

Tokens may carry any positions, or none: what they are promoted to and read as does not depend on
them. `Token.renumber f` replaces every position in a token by what `f` makes of it. Whatever is
made of some tokens is made of the renumbered ones too, renumbered itself; and where tokens cannot
be read, the renumbered ones fail for the same reason with the same token to blame, so that the
fault names the position that token was given (`IgnoresPositions`). This holds for all ways to
promote and to read, at every cursor (`renumber_invariant`).
-/

namespace SearchQuery

/-- A token with everything inside it, each known position of which is replaced by what `f` makes of
it. -/
def Token.renumber (f : Nat → Nat) (t : Token) : Token := t.relabel fun p => some (f p)

/-- The same fault at some position. -/
def Fault.moveTo (position : Nat) : Fault → Fault
  | unterminatedList kind _ => .unterminatedList kind position
  | nothingToRead kind _ => .nothingToRead kind position
  | tooDeep _ limit => .tooDeep position limit

/-- What was read at a cursor, changed in some way. -/
def Advance.map {α β : Type} (g : α → β) (a : Advance α) : Advance β := ⟨g a.value, a.cursor⟩

/-- Positions decide nothing about what `run` makes of some tokens. Where it succeeds, it makes the
same of the renumbered tokens, with everything in it changed as `change` says. Where it fails, one
of the tokens that it came across is to blame, and for the renumbered tokens it reports the fault at
the position that this token was given, or at 0 if it has none. -/
structure IgnoresPositions {α : Type} (limit : Nat) (ts : List Token)
    (run : List Token → Except Fault α) (change : (Token → Token) → α → α) : Prop where
  ok : ∀ a, run ts = .ok a →
    ∀ f : Nat → Nat, run (ts.map (Token.renumber f)) = .ok (change (Token.renumber f) a)
  error : ∀ fault, run ts = .error fault →
    ∃ (reason : Reason) (t : Token), Reached ts t ∧ fault = reason.fault limit t ∧
      ∀ f : Nat → Nat, run (ts.map (Token.renumber f)) =
        .error (fault.moveTo ((t.index.map f).getD 0))

/-- Renumbering changes positions and nothing else. -/
theorem Token.renumber_eq_recast (f : Nat → Nat) :
    renumber f = recast (fun p => some (f p)) id :=
  funext relabel_eq_recast

/-- The fault that a renumbered token causes. -/
theorem Reason.fault_renumber {reason : Reason} {limit : Nat} {t : Token} {f : Nat → Nat} :
    reason.fault limit (t.renumber f) =
      (reason.fault limit t).moveTo ((t.index.map f).getD 0) := by
  have hindex : (t.renumber f).offset = (t.index.map f).getD 0 := by
    rw [Token.renumber_eq_recast, Token.offset, Token.index_recast]
    cases t.index <;> rfl
  have hname : (t.renumber f).kind.name = t.kind.name := by
    rw [Token.renumber_eq_recast, Token.kind_recast, Kind.name_recast]
  cases reason <;> simp only [fault, Fault.moveTo, hindex, hname]

/-- Whatever reads a phrase at a cursor ignores positions, if its answers change with the tokens
that they consist of. -/
theorem ReadsAt.ignoresPositions {α : Type} {limit cursor : Nat} {phrase : Phrase}
    {answer : List Token → Nat → α} {run : List Token → Except Fault α}
    {change : (Token → Token) → α → α} (h : ReadsAt limit cursor phrase answer run)
    (hchange : ∀ g out next, answer (out.map g) next = change g (answer out next))
    (ts : List Token) : IgnoresPositions limit ts run change where
  ok a hrun f := by
    obtain ⟨raw, out, rest, hdrop, hstands, rfl⟩ := h.eq_ok_iff.mp hrun
    have hdrop' : (ts.map (Token.renumber f)).drop cursor =
        raw.map (Token.renumber f) ++ rest.map (Token.renumber f) := by
      rw [← List.map_drop, hdrop, List.map_append]
    have hstands' : Stands limit phrase (raw.map (Token.renumber f))
        (out.map (Token.renumber f)) (rest.map (Token.renumber f)) := hstands.relabel
    rw [h.of_stands hdrop' hstands', List.length_map, hchange]
  error fault hrun := by
    obtain ⟨reason, t, hfails, rfl⟩ := h.eq_error_iff.mp hrun
    refine ⟨reason, t, hfails.reached.mono (List.drop_subset cursor ts), rfl, fun f => ?_⟩
    have hfails' : Fails limit phrase ((ts.map (Token.renumber f)).drop cursor) reason
        (t.renumber f) := by
      rw [← List.map_drop, Token.renumber_eq_recast]
      exact hfails.recast
    rw [h.of_fails hfails', Reason.fault_renumber]

/-- Positions decide nothing. Renumbered tokens are promoted to the renumbered ones; and they are
read as a forest, and at every cursor as a unit, a value or a list, just as the tokens are that were
renumbered, up to the same next cursor, or refused just as these are. -/
theorem renumber_invariant (limit : Nat) (ts : List Token) :
    (∀ f : Nat → Nat,
      promote (ts.map (Token.renumber f)) = (promote ts).map (Token.renumber f)) ∧
      IgnoresPositions limit ts (forestOf limit) List.map ∧
      ∀ cursor,
        IgnoresPositions limit ts (unitAt limit · cursor) (fun g => Advance.map (Option.map g)) ∧
        IgnoresPositions limit ts (valueAt limit · cursor) (fun g => Advance.map (Option.map g)) ∧
        IgnoresPositions limit ts (itemsAt limit · cursor) (fun g => Advance.map (List.map g)) := by
  have hhead : ∀ (g : Token → Token) (out : List Token) next, Advance.mk (out.map g).head? next =
      Advance.map (Option.map g) ⟨out.head?, next⟩ := by
    intro g out next
    rw [List.head?_map]
    rfl
  refine ⟨fun f => ?_, ?_, fun cursor => ⟨?_, ?_, ?_⟩⟩
  · rw [Token.renumber_eq_recast, promote_recast]
  · exact (forestOf_readsAt limit).ignoresPositions (fun _ _ _ => rfl) ts
  · exact (unitAt_readsAt limit cursor).ignoresPositions hhead ts
  · exact (valueAt_readsAt limit cursor).ignoresPositions hhead ts
  · exact (itemsAt_readsAt limit cursor).ignoresPositions (fun _ _ _ => rfl) ts

/-- A range and a list that a colon breaks off, at positions that no text gives them. -/
def scatteredTokens : List Token :=
  [⟨.word "a", none, ⟨some 9, none⟩, false⟩, .covering .dots 7 2, .covering .comma 4 4,
    ⟨.word "b", some 1, ⟨none, some 3⟩, false⟩, .covering .colon 5 6]

/-- The law for these tokens with their positions counted backwards. -/
theorem renumber_invariant_scattered :
    unitAt 1 (scatteredTokens.map (Token.renumber (12 - ·))) 0 =
        .ok ⟨some ⟨.range ⟨.word "a", none, ⟨some 3, none⟩, false⟩ none, none, ⟨some 3, none⟩,
          false⟩, 2⟩ ∧
      forestOf 1 scatteredTokens = .error (.unterminatedList "pair_op" 5) ∧
      forestOf 1 (scatteredTokens.map (Token.renumber (12 - ·))) =
        .error (.unterminatedList "pair_op" 7) := by
  obtain ⟨-, hforest, hat⟩ := renumber_invariant 1 scatteredTokens
  have hunit : unitAt 1 scatteredTokens 0 =
      .ok ⟨some ⟨.range ⟨.word "a", none, ⟨some 9, none⟩, false⟩ none, none, ⟨some 9, none⟩,
        false⟩, 2⟩ := by cbv
  have hfault : forestOf 1 scatteredTokens = .error (.unterminatedList "pair_op" 5) := by cbv
  refine ⟨(hat 0).1.ok _ hunit (12 - ·), hfault, ?_⟩
  obtain ⟨reason, t, -, heq, hmoved⟩ := hforest.error _ hfault
  have hoffset : t.index.getD 0 = 5 := by
    cases reason with
    | unterminatedList => exact (Fault.unterminatedList.inj heq).2.symm
    | nothingToRead | tooDeep => cases heq
  have hindex : t.index = some 5 := by
    cases hi : t.index with
    | none => simp [hi] at hoffset
    | some p => simpa [hi] using hoffset
  rw [hmoved, hindex]
  rfl

end SearchQuery
