import SearchQuery.Proofs.Blame
import SearchQuery.Proofs.Forest.InBounds

/-!
# Cursors move on

What is read at a cursor takes up tokens if there is anything to read, and none otherwise; either
way the next cursor is in bounds. `Token.startsNothing` lists the kinds of tokens at which there is
no unit to read; only such a token, other than a blank, can be complained about for want of
something to read. `reading_progresses` puts this together with reading by index, which comes to an
end and never goes out of bounds.
-/

namespace SearchQuery

/-- Is the token of a kind that no unit starts with? -/
def Token.startsNothing (t : Token) : Bool :=
  match t.kind with
  | .space _ | .pinMark | .pair _ _ | .unfinishedPair _ _ | .list _ | .pattern _
  | .unbounded => true
  | _ => false

/-- A unit starts with a token of any other kind. -/
theorem Token.startsUnit_eq_not (t : Token) : t.startsUnit = !t.startsNothing := by
  obtain ⟨kind, index, span, flagged⟩ := t
  cases kind <;> rfl

/-- From a cursor on, reading stays where it is if there is nothing to read; else it moves on, and
at most to the end of the tokens. -/
def Advance.MovesOn (ts : List Token) (cursor : Nat) (a : Advance (Option Token)) : Prop :=
  match a.value with
  | none => a.cursor = cursor
  | some _ => cursor < a.cursor ∧ a.cursor ≤ ts.length

/-- Tokens are taken up for a value or a unit just where one is found. -/
theorem Stands.nil_iff {room : Nat} {phrase : Phrase} {raw out rest : List Token}
    (h : Stands room phrase raw out rest) (hphrase : phrase = .value ∨ phrase = .unit) :
    raw = [] ↔ out = [] := by
  rcases hphrase with rfl | rfl
  · constructor
    · rintro rfl
      cases h with
      | noValue => rfl
    · rintro rfl
      exact h.value_nil
  · exact h.unit_nil_iff

/-- What is taken up at a cursor is in bounds. -/
theorem le_of_drop_eq_append {ts raw rest : List Token} {cursor : Nat}
    (h : ts.drop cursor = raw ++ rest) : cursor + raw.length ≤ max cursor ts.length := by
  have := congrArg List.length h
  simp only [List.length_drop, List.length_append] at this
  omega

section

variable {limit cursor : Nat} {ts : List Token}

/-- Reading a value or a unit moves on where there is one. -/
theorem ReadsAt.movesOn {phrase : Phrase}
    {run : List Token → Except Fault (Advance (Option Token))}
    (h : ReadsAt limit cursor phrase (fun out => .mk out.head?) run)
    (hphrase : phrase = .value ∨ phrase = .unit) {a : Advance (Option Token)}
    (hrun : run ts = .ok a) : a.MovesOn ts cursor := by
  obtain ⟨raw, out, rest, hdrop, hstands, rfl⟩ := h.eq_ok_iff.mp hrun
  have hnil := hstands.nil_iff hphrase
  have hle := le_of_drop_eq_append hdrop
  cases raw with
  | nil =>
    rw [hnil.mp rfl]
    rfl
  | cons t raw =>
    cases out with
    | nil => cases hnil.mpr rfl
    | cons u out =>
      rw [List.length_cons] at hle ⊢
      refine ⟨?_, ?_⟩ <;> dsimp only <;> omega

/-- There is no unit at a cursor beyond the tokens, or at a token that starts nothing. -/
theorem unitAt_none_iff :
    (∃ next, unitAt limit ts cursor = .ok ⟨none, next⟩) ↔
      ts.length ≤ cursor ∨ ∃ t, ts[cursor]? = some t ∧ t.startsNothing = true := by
  have hread := unitAt_readsAt limit cursor
  have hhead : (∀ u ∈ (ts.drop cursor).head?, u.startsUnit = false) ↔
      ts.length ≤ cursor ∨ ∃ t, ts[cursor]? = some t ∧ t.startsNothing = true := by
    rw [List.head?_drop]
    cases ht : ts[cursor]? with
    | none => simpa using ht
    | some t =>
      have : ¬ ts.length ≤ cursor := by
        rw [← List.getElem?_eq_none_iff, ht]
        exact nofun
      simp [this, Token.startsUnit_eq_not]
  rw [← hhead]
  constructor
  · rintro ⟨next, h⟩
    obtain ⟨raw, out, rest, hdrop, hstands, heq⟩ := hread.eq_ok_iff.mp h
    have hout : out = [] := List.head?_eq_none_iff.mp (congrArg Advance.value heq)
    obtain rfl := hstands.unit_nil_iff.mpr hout
    rw [hdrop]
    exact hstands.startsUnit_eq_false rfl
  · exact fun h => ⟨cursor, hread.of_stands (List.nil_append _).symm (.noUnit h)⟩

/-- Where nothing can be read, a token that starts nothing is in the way. -/
theorem exists_startsNothing {kind : String} {offset : Nat}
    (h : forestOf limit ts = .error (.nothingToRead kind offset)) :
    ∃ t, Reached ts t ∧ t.startsNothing = true ∧ t.isSpace = false ∧ t.kind.name = kind ∧
      t.offset = offset := by
  obtain ⟨reason, t, hfails, heq⟩ := forestOf_eq_error_iff.mp h
  cases reason with
  | nothingToRead =>
    obtain ⟨hspace, hstarts⟩ := hfails.blames
    obtain ⟨hkind, hoffset⟩ := Fault.nothingToRead.inj heq
    rw [Token.startsUnit_eq_not, Bool.not_eq_false'] at hstarts
    exact ⟨t, hfails.reached, hstarts, hspace, hkind, hoffset⟩
  | unterminatedList | tooDeep => cases heq

/-- A list at a cursor does not go back, and ends in bounds. -/
theorem itemsAt_bounds {a : Advance (List Token)} (h : itemsAt limit ts cursor = .ok a) :
    cursor ≤ a.cursor ∧ a.cursor ≤ max cursor ts.length := by
  obtain ⟨raw, out, rest, hdrop, -, rfl⟩ := (itemsAt_readsAt limit cursor).eq_ok_iff.mp h
  exact ⟨Nat.le_add_right .., le_of_drop_eq_append hdrop⟩

end

/-- Cursors move on and stay in bounds, at any place of any tokens. A unit or a value that is read
moves the cursor on, at most to the end, and where there is none the cursor stays; the cursor behind
a list lies between where it was and the end. There is no unit beyond the end and at the tokens that
start nothing, and there is one, or a fault, everywhere else. A sequence is refused for want of
something to read only at such a token that is no blank. And all this reading comes to an end within
bounds: done by index, with look-ups and slices checked and with one round for each token in every
loop, it has the same outcome. -/
theorem reading_progresses (limit : Nat) (ts : List Token) :
    (∀ cursor,
        (∀ a, unitAt limit ts cursor = .ok a → a.MovesOn ts cursor) ∧
        (∀ a, valueAt limit ts cursor = .ok a → a.MovesOn ts cursor) ∧
        (∀ a, itemsAt limit ts cursor = .ok a →
          cursor ≤ a.cursor ∧ a.cursor ≤ max cursor ts.length) ∧
        ((∃ next, unitAt limit ts cursor = .ok ⟨none, next⟩) ↔
          ts.length ≤ cursor ∨ ∃ t, ts[cursor]? = some t ∧ t.startsNothing = true)) ∧
      (∀ kind offset, forestOf limit ts = .error (.nothingToRead kind offset) →
        ∃ t, Reached ts t ∧ t.startsNothing = true ∧ t.isSpace = false ∧ t.kind.name = kind ∧
          t.offset = offset) ∧
      sequenceAt (CursorLevel.outermost limit).unit ts ts.length 0 =
        (forestOf limit ts).mapError .fault ∧
      ∀ i,
        (CursorLevel.outermost limit).unit ts i = (unitAt limit ts i).mapError .fault ∧
        (CursorLevel.outermost limit).value ts i = (valueAt limit ts i).mapError .fault ∧
        (CursorLevel.outermost limit).items ts ts.length i =
          (itemsAt limit ts i).mapError .fault := by
  refine ⟨fun cursor => ⟨?_, ?_, ?_, unitAt_none_iff⟩, ?_, CursorLevel.outermost_reads limit ts⟩
  · exact fun _ => (unitAt_readsAt limit cursor).movesOn (.inr rfl)
  · exact fun _ => (valueAt_readsAt limit cursor).movesOn (.inl rfl)
  · exact fun _ => itemsAt_bounds
  · exact fun _ _ => exists_startsNothing

/-- A word without a position, and a group that holds a pair made by hand. -/
def handmadeTokens : List Token :=
  [⟨.word "a", none, ⟨none, none⟩, false⟩,
    .covering (.group [.covering .or 1 2,
      ⟨.pair (.covering (.word "k") 2 3) (.covering (.word "v") 4 5), none, ⟨some 2, none⟩, true⟩])
      1 6]

/-- The law for these tokens, from the start and from a cursor beyond the end. -/
theorem reading_progresses_handmade :
    (∃ t, Reached handmadeTokens t ∧ t.startsNothing = true ∧ t.isSpace = false ∧
        t.kind.name = "pair" ∧ t.offset = 0) ∧
      sequenceAt (CursorLevel.outermost 1).unit handmadeTokens 2 0 =
        .error (.fault (.nothingToRead "pair" 0)) ∧
      ∃ next, unitAt 1 handmadeTokens 7 = .ok ⟨none, next⟩ := by
  have hfault : forestOf 1 handmadeTokens = .error (.nothingToRead "pair" 0) := by cbv
  obtain ⟨hcursors, hnothing, hsequence, -⟩ := reading_progresses 1 handmadeTokens
  refine ⟨hnothing _ _ hfault, ?_, (hcursors 7).2.2.2.mpr (.inl (by decide))⟩
  rw [hfault] at hsequence
  exact hsequence

end SearchQuery
