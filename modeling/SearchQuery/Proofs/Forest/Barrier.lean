import SearchQuery.Proofs.Forest.Lookahead

/-!
# Blanks part what tokens mean

No reader looks past a blank. What tokens stand for at the end of a sequence they stand for in front
of a blank (`Stands.before_blank`), and what they fail for at the end they fail for there too
(`Fails.append`). So the forest of some tokens, a blank and other tokens is that of both sides put
together, and the first side to fail is the one that is reported (`forestOf_append_blank`).
-/

namespace SearchQuery

section

variable {room : Nat} {blank : Token} (hblank : blank.isSpace = true)

include hblank

/-- What tokens stand for at the end of a sequence they stand for in front of a blank. -/
theorem Stands.before_blank {phrase : Phrase} {raw out rest : List Token} (us : List Token)
    (h : Stands room phrase raw out rest) (hphrase : phrase ≠ .forest) :
    Stands room phrase raw out (rest ++ blank :: us) :=
  h.of_ahead?_eq hphrase (ahead?_append_blank hblank rest us)

/-- Behind a sequence and a blank another sequence stands for its own units. -/
theorem Stands.append_blank {us forest' : List Token} (h' : Stands room .forest us forest' []) :
    ∀ {ts forest : List Token}, Stands room .forest ts forest [] →
      Stands room .forest (ts ++ blank :: us) (forest ++ forest') []
  | _, _, .done => .blank hblank h'
  | _, _, .blank ht hts => .blank ht (h'.append_blank hts)
  | _, _, .next hu ht hrest => by
    rw [List.cons_append, List.append_assoc]
    exact .next (hu.before_blank hblank us nofun) ht (h'.append_blank hrest)

/-- Behind a sequence and a blank another sequence fails for its own reason. -/
theorem Fails.append_blank {us : List Token} {reason : Reason} {t : Token}
    (h' : Fails room .forest us reason t) :
    ∀ {ts forest : List Token}, Stands room .forest ts forest [] →
      Fails room .forest (ts ++ blank :: us) reason t
  | _, _, .done => .blank hblank h'
  | _, _, .blank ht hts => .blank ht (h'.append_blank hts)
  | _, _, .next hu ht hrest => by
    rw [List.cons_append, List.append_assoc]
    exact .next (hu.before_blank hblank us nofun) ht (h'.append_blank hrest)

end

/-- The forest of two sequences with a blank in between is that of both, one behind the other; the
first of them to fail is the one that is reported. -/
theorem forestOf_append_blank (limit : Nat) {blank : Token} (hblank : blank.isSpace = true)
    (ts us : List Token) :
    forestOf limit (ts ++ blank :: us) = (do
      let forest ← forestOf limit ts
      let forest' ← forestOf limit us
      .ok (forest ++ forest')) := by
  cases hts : forestOf limit ts with
  | error fault =>
    obtain ⟨reason, t, hfails, rfl⟩ := forestOf_eq_error_iff.mp hts
    exact forestOf_eq_error_iff.mpr ⟨reason, t, hfails.append (blank :: us), rfl⟩
  | ok forest =>
    have hstands := forestOf_eq_ok_iff.mp hts
    cases hus : forestOf limit us with
    | error fault =>
      obtain ⟨reason, t, hfails, rfl⟩ := forestOf_eq_error_iff.mp hus
      exact forestOf_eq_error_iff.mpr ⟨reason, t, hfails.append_blank hblank hstands, rfl⟩
    | ok forest' =>
      exact forestOf_eq_ok_iff.mpr ((forestOf_eq_ok_iff.mp hus).append_blank hblank hstands)

/-- A blank is a full barrier, whatever stands on its two sides. If the tokens in front of it have
no forest, their fault is reported; otherwise, if the tokens behind it have none, theirs is; and if
both have one, the forest of all is the one followed by the other. -/
theorem forestOf_blank_between (limit : Nat) {blank : Token} (hblank : blank.isSpace = true)
    (xs ys : List Token) :
    forestOf limit (xs ++ [blank] ++ ys) =
      match forestOf limit xs, forestOf limit ys with
      | .error fault, _ => .error fault
      | .ok _, .error fault => .error fault
      | .ok forest, .ok forest' => .ok (forest ++ forest') := by
  rw [List.append_assoc, List.singleton_append, forestOf_append_blank limit hblank]
  cases forestOf limit xs with
  | error fault => rfl
  | ok forest => cases forestOf limit ys <;> rfl

/-- The law for dots with a blank behind them, which do not take the pair that follows as their
upper bound, and for faults on both sides, of which the first one counts. -/
theorem forestOf_blank_between_dots :
    forestOf 1 ([.covering (.word "a") 0 1, .covering .dots 1 3] ++ [.covering (.space " ") 3 4] ++
      [.covering (.word "b") 4 5, .covering .colon 5 6]) =
        .ok [.covering (.range (.covering (.word "a") 0 1) (some .unbounded)) 0 3,
          ⟨.unfinishedPair (some (.covering (.word "b") 4 5)) none, some 4, ⟨some 4, none⟩,
            false⟩] ∧
    forestOf 0 ([.covering (.word "a") 0 1, .covering .colon 1 2] ++ [.covering (.space " ") 2 3] ++
      [.covering .pinMark 3 4]) = .error (.tooDeep 1 0) := by
  have hblank : ∀ p q, (Token.covering (.space " ") p q).isSpace = true := fun _ _ => rfl
  rw [forestOf_blank_between 1 (hblank 3 4), forestOf_blank_between 0 (hblank 2 3)]
  exact ⟨by cbv, by cbv⟩

end SearchQuery
