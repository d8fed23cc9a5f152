import SearchQuery.Proofs.Forest.Failure

/-!
# What is read at a cursor

Whole forests, and units, values and lists at a cursor, are read by the same readers, from the
tokens behind the cursor. `ReadsAt` is what they have in common: where these tokens stand for
something, that is the answer, and where they fail, the token to blame is reported. As there is no
third case (`decided`), this decides what they answer to any tokens at any cursor
(`ReadsAt.eq_ok_iff`, `ReadsAt.eq_error_iff`).
-/

namespace SearchQuery

/-- Some first tokens of a sequence stand for a phrase, or the sequence fails to be one. -/
theorem decided (room : Nat) (phrase : Phrase) (ts : List Token) : Decided room phrase ts := by
  cases phrase with
  | value => exact value_stands_or_fails room ts
  | items => exact items_decided (fun r _ => unit_stands_or_fails r) ts
  | unit => exact unit_stands_or_fails room ts
  | forest =>
    rcases forest_stands_or_fails room ts with ⟨out, hstands⟩ | hfails
    · exact .inl ⟨ts, out, [], (List.append_nil ts).symm, hstands⟩
    · exact .inr hfails

/-- A function of a sequence of tokens reads a phrase at a cursor. It answers with what the tokens
there stand for and with the cursor behind them, or reports the fault of the token to blame. -/
structure ReadsAt {α : Type} (limit cursor : Nat) (phrase : Phrase)
    (answer : List Token → Nat → α) (run : List Token → Except Fault α) : Prop where
  of_stands {ts raw out rest : List Token} : ts.drop cursor = raw ++ rest →
    Stands limit phrase raw out rest → run ts = .ok (answer out (cursor + raw.length))
  of_fails {ts : List Token} {reason : Reason} {t : Token} :
    Fails limit phrase (ts.drop cursor) reason t → run ts = .error (reason.fault limit t)

namespace ReadsAt

variable {α : Type} {limit cursor : Nat} {phrase : Phrase} {answer : List Token → Nat → α}
  {run : List Token → Except Fault α} {ts : List Token}

/-- An answer is what the tokens at the cursor stand for. -/
theorem eq_ok_iff (h : ReadsAt limit cursor phrase answer run) {a : α} :
    run ts = .ok a ↔ ∃ raw out rest, ts.drop cursor = raw ++ rest ∧
      Stands limit phrase raw out rest ∧ answer out (cursor + raw.length) = a := by
  constructor
  · intro hrun
    rcases decided limit phrase (ts.drop cursor) with
      ⟨raw, out, rest, hdrop, hstands⟩ | ⟨reason, t, hfails⟩
    · rw [h.of_stands hdrop hstands] at hrun
      exact ⟨raw, out, rest, hdrop, hstands, Except.ok.inj hrun⟩
    · rw [h.of_fails hfails] at hrun
      cases hrun
  · rintro ⟨raw, out, rest, hdrop, hstands, rfl⟩
    exact h.of_stands hdrop hstands

/-- A fault is the one that the token to blame causes. -/
theorem eq_error_iff (h : ReadsAt limit cursor phrase answer run) {fault : Fault} :
    run ts = .error fault ↔
      ∃ reason t, Fails limit phrase (ts.drop cursor) reason t ∧ reason.fault limit t = fault := by
  constructor
  · intro hrun
    rcases decided limit phrase (ts.drop cursor) with
      ⟨raw, out, rest, hdrop, hstands⟩ | ⟨reason, t, hfails⟩
    · rw [h.of_stands hdrop hstands] at hrun
      cases hrun
    · rw [h.of_fails hfails] at hrun
      exact ⟨reason, t, hfails, Except.error.inj hrun⟩
  · rintro ⟨reason, t, hfails, rfl⟩
    exact h.of_fails hfails

end ReadsAt

/-- A forest takes up all tokens. -/
theorem Stands.rest_eq_nil {room : Nat} {raw out rest : List Token}
    (h : Stands room .forest raw out rest) : rest = [] := by
  cases h <;> rfl

/-- Forests are read at the beginning. -/
theorem forestOf_readsAt (limit : Nat) :
    ReadsAt limit 0 .forest (fun out _ => out) (forestOf limit) where
  of_stands {ts raw out rest} hdrop h := by
    obtain rfl := h.rest_eq_nil
    rw [List.drop_zero, List.append_nil] at hdrop
    rw [hdrop]
    exact h.finds
  of_fails h := h.refuses

variable (limit cursor : Nat)

/-- Lists are read at any cursor. -/
theorem itemsAt_readsAt :
    ReadsAt limit cursor .items Advance.mk fun ts => itemsAt limit ts cursor where
  of_stands {ts raw out rest} hdrop h := by
    have hfound : (Level.outermost limit).items (raw ++ rest) = .ok ⟨out, raw.length⟩ := h.finds
    simp only [itemsAt, hdrop, hfound, Except.map]
  of_fails {ts reason t} h := by
    have hrefused : (Level.outermost limit).items (ts.drop cursor) =
        .error (reason.fault limit t) := h.refuses
    simp only [itemsAt, hrefused, Except.map]

/-- A reader that finds what some tokens stand for, and refuses those that fail, may be used at any
cursor. -/
theorem readsAt_of_finds {phrase : Phrase} {read : Reader}
    (hphrase : phrase = .value ∨ phrase = .unit)
    (hfinds : ∀ {raw out rest}, Stands limit phrase raw out rest →
      read (raw ++ rest) = .ok (Found.of raw out))
    (hrefuses : ∀ {ts reason t}, Fails limit phrase ts reason t →
      read ts = .error (reason.fault limit t)) :
    ReadsAt limit cursor phrase (fun out => .mk out.head?)
      fun ts => (read (ts.drop cursor)).map (Advance.ofFound cursor) where
  of_stands {ts raw out rest} hdrop h := by
    obtain ⟨v?, rfl⟩ := h.exists_toList hphrase
    obtain ⟨hused, htoken⟩ : Found.used (Found.of raw v?.toList) = raw.length ∧
        Found.token? (Found.of raw v?.toList) = v? := by
      rcases hphrase with rfl | rfl
      · exact h.of_value
      · exact h.of_unit
    simp only [hdrop, hfinds h, Except.map, Advance.ofFound, hused, htoken, Option.head?_toList]
  of_fails {ts reason t} h := by simp only [hrefuses h, Except.map]

/-- Values are read at any cursor. -/
theorem valueAt_readsAt :
    ReadsAt limit cursor .value (fun out => .mk out.head?) fun ts => valueAt limit ts cursor :=
  readsAt_of_finds limit cursor (.inl rfl) (fun h => h.finds) fun h => h.refuses

/-- Units are read at any cursor. -/
theorem unitAt_readsAt :
    ReadsAt limit cursor .unit (fun out => .mk out.head?) fun ts => unitAt limit ts cursor :=
  readsAt_of_finds limit cursor (.inr rfl) (fun h => h.finds) fun h => h.refuses

end SearchQuery
