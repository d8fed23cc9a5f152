import Mathlib
import SearchQuery.Proofs.Outcome

/-!
# What the limit on nesting does

The limit only ever cuts. A query that can be read at all is read in the same way under every limit,
as long as its forest is nested no more deeply than the limit says, and is refused for its nesting
under every lower one; any other fault is the same under all higher limits (`Query.read_limit`). A
forest needs no more room than it is nested (`Stands.of_nestingAll_le`), and it makes no difference
to any other failure how much room there is (`Fails.mono`).
-/

namespace SearchQuery

/-- There is room enough for a forest in the number of levels that it is nested. -/
theorem Stands.of_nestingAll_le {room room' : Nat} {phrase : Phrase} {raw out rest : List Token}
    (h : Stands room phrase raw out rest) (hle : nestingAll out ≤ room') :
    Stands room' phrase raw out rest := by
  induction h generalizing room' with
  | noValue hrest => exact .noValue hrest
  | fragment ht hrest => exact .fragment ht hrest
  | pattern ht hne hothers hrest => exact .pattern ht hne hothers hrest
  | whole ht => exact .whole ht
  | @group _ kind _ forest _ _ _ _ hkind _ ih =>
    have hgroup : (kind forest).nesting = nestingAll forest + 1 := by
      rcases hkind with rfl | rfl <;> rfl
    rw [nestingAll_singleton, Token.nesting, hgroup] at hle
    obtain ⟨r, rfl⟩ : ∃ r, room' = r + 1 := ⟨room' - 1, by omega⟩
    exact .group hkind (ih (Nat.le_of_succ_le_succ hle))
  | last _ hrest ih => exact .last (ih hle) hrest
  | more _ hcomma _ ih₁ ih₂ =>
    obtain ⟨hv, hvs⟩ := nestingAll_append_le_iff.mp hle
    exact .more (ih₁ hv) hcomma (ih₂ hvs)
  | noUnit hrest => exact .noUnit hrest
  | operator ht => exact .operator ht
  | ofValue _ hend ih => exact .ofValue (ih hle) hend
  | comparison hop _ ih =>
    rw [nestingAll_singleton, Token.nesting, Kind.nesting, nestingOption_eq] at hle
    exact .comparison hop (ih hle)
  | dots ht hrest => exact .dots ht hrest
  | rangeTo ht hnext _ ih =>
    rw [nestingAll_singleton, Token.nesting, Kind.nesting, nestingOption_eq] at hle
    exact .rangeTo ht hnext (ih (Nat.max_le.mp hle).2)
  | rangeFrom _ hgroup ht hrest ih =>
    rw [nestingAll_singleton, Token.nesting, Kind.nesting, ← nestingAll_singleton] at hle
    exact .rangeFrom (ih (Nat.max_le.mp hle).1) hgroup ht hrest
  | range _ hgroup ht hnext _ ih₁ ih₂ =>
    rw [nestingAll_singleton, Token.nesting, Kind.nesting, nestingOption_eq,
      ← nestingAll_singleton] at hle
    obtain ⟨hv, hw⟩ := Nat.max_le.mp hle
    exact .range (ih₁ hv) hgroup ht hnext (ih₂ hw)
  | pair hkey hcolon _ ih =>
    rw [nestingAll_singleton, Token.nesting, Kind.nesting_ofPair] at hle
    obtain ⟨r, rfl⟩ : ∃ r, room' = r + 1 := ⟨room' - 1, by omega⟩
    obtain ⟨-, hv⟩ := nestingAll_append_le_iff.mp (Nat.le_of_succ_le_succ hle)
    exact .pair hkey hcolon (ih hv)
  | list _ hgroup hcomma _ heq ih₁ ih₂ =>
    rw [nestingAll_singleton, Token.nesting, Kind.nesting] at hle
    obtain ⟨hv, hvs⟩ := nestingAll_append_le_iff.mp hle
    exact .list (ih₁ hv) hgroup hcomma (ih₂ hvs) heq
  | done => exact .done
  | blank ht _ ih => exact .blank ht (ih hle)
  | next _ ht _ ih₁ ih₂ =>
    rw [← List.singleton_append] at hle
    obtain ⟨hu, hus⟩ := nestingAll_append_le_iff.mp hle
    exact .next (ih₁ hu) ht (ih₂ hus)

/-- What fails for another reason than the lack of room fails for it with more room too. -/
theorem Fails.mono {room room' : Nat} {phrase : Phrase} {ts : List Token} {reason : Reason}
    {t : Token} (h : Fails room phrase ts reason t) (hreason : reason ≠ .tooDeep)
    (hle : room ≤ room') : Fails room' phrase ts reason t := by
  induction h generalizing room' with
  | groupTooDeep | pairTooDeep => exact absurd rfl hreason
  | group hkind _ ih =>
    obtain ⟨r, rfl⟩ : ∃ r, room' = r + 1 := ⟨room' - 1, by omega⟩
    exact .group hkind (ih hreason (Nat.le_of_succ_le_succ hle))
  | item _ ih => exact .item (ih hreason hle)
  | unterminated hv hspace hcomma => exact .unterminated (hv.mono hle) hspace hcomma
  | more hv hcomma _ ih => exact .more (hv.mono hle) hcomma (ih hreason hle)
  | ofValue _ ih => exact .ofValue (ih hreason hle)
  | comparison hop _ ih => exact .comparison hop (ih hreason hle)
  | rangeTo hdots _ ih => exact .rangeTo hdots (ih hreason hle)
  | range hv hgroup hdots _ ih => exact .range (hv.mono hle) hgroup hdots (ih hreason hle)
  | pair hkey hcolon _ ih =>
    obtain ⟨r, rfl⟩ : ∃ r, room' = r + 1 := ⟨room' - 1, by omega⟩
    exact .pair hkey hcolon (ih hreason (Nat.le_of_succ_le_succ hle))
  | list hv hgroup hcomma _ ih => exact .list (hv.mono hle) hgroup hcomma (ih hreason hle)
  | nothing hspace hunit => exact .nothing hspace hunit
  | blank hspace _ ih => exact .blank hspace (ih hreason hle)
  | unit _ ih => exact .unit (ih hreason hle)
  | next hu hspace _ ih => exact .next (hu.mono hle) hspace (ih hreason hle)

/-- Where there is room for some tokens, there is room for them under a higher limit. -/
theorem overflowAll?_mono {room room' : Nat} {ts : List Token} (h : overflowAll? room ts = none)
    (hle : room ≤ room') : overflowAll? room' ts = none := by
  rw [overflowAll?_eq_none_iff] at h ⊢
  intro t ht
  induction hle with
  | refl => exact h t ht
  | step _ ih => exact Token.overflow?_succ ih

/-- The limit only ever cuts. What is read under a limit is read in the same way under a higher one,
and its forest is nested no more deeply than the lower limit says; what is read under the higher
limit is read in the same way under the lower one, if its forest is nested no more deeply than that
says. A fault under the lower limit is one of nesting, or is the same under the higher limit. -/
theorem Query.read_limit {limit limit' : Nat} (hle : limit ≤ limit') (text : String) :
    (∀ query, Query.read limit text = .ok query →
        Query.read limit' text = .ok query ∧ nestingAll query.forest ≤ limit) ∧
      (∀ query, Query.read limit' text = .ok query → nestingAll query.forest ≤ limit →
        Query.read limit text = .ok query) ∧
      ∀ fault, Query.read limit text = .error fault →
        (∃ offset, fault = .tooDeep offset limit) ∨ Query.read limit' text = .error fault := by
  obtain ⟨ts, q, left, hs⟩ := exists_scans 0 text.toList
  refine ⟨?_, ?_, ?_⟩
  · intro query h
    obtain ⟨forest, hstands, rfl⟩ := (read_eq_ok_iff hs).mp h
    refine ⟨(read_eq_ok_iff hs).mpr ⟨forest, hstands.mono hle, rfl⟩, ?_⟩
    exact hstands.nestingAll_le ((promotes ts).isPromoted hs.isRaw)
  · intro query h hnesting
    obtain ⟨forest, hstands, rfl⟩ := (read_eq_ok_iff hs).mp h
    exact (read_eq_ok_iff hs).mpr ⟨forest, hstands.of_nestingAll_le hnesting, rfl⟩
  · intro fault h
    rcases (read_eq_error_iff hs).mp h with ⟨offset, -, rfl⟩ | ⟨hroom, reason, t, hfails, rfl⟩
    · exact .inl ⟨offset, rfl⟩
    by_cases hreason : reason = .tooDeep
    · subst hreason
      exact .inl ⟨t.offset, rfl⟩
    · refine .inr ((read_eq_error_iff hs).mpr (.inr ⟨overflowAll?_mono hroom hle, reason, t,
        hfails.mono hreason hle, ?_⟩))
      cases reason with
      | tooDeep => exact absurd rfl hreason
      | unterminatedList | nothingToRead => rfl

/-- The law for a pair in a group, which is read under a limit of two and not under one, and for a
list that goes over into a pair, which is refused under both for the same reason. -/
theorem Query.read_limit_two : 1 ≤ 2 ∧
    (∃ query, Query.read 2 "(a:..b)" = .ok query ∧ nestingAll query.forest = 2 ∧
      Query.read 3 "(a:..b)" = .ok query) ∧
    ¬ (∃ query, Query.read 1 "(a:..b)" = .ok query) ∧
    Query.read 1 "(x) a,b:c" = .error (.unterminatedList "pair_op" 7) ∧
    Query.read 2 "(x) a,b:c" = .error (.unterminatedList "pair_op" 7) := by
  have hread : Query.read 2 "(a:..b)" = .ok ⟨
      [.covering (.group [.covering (.word "a") 1 2, .covering .colon 2 3, .covering .dots 3 5,
        .covering (.word "b") 5 6]) 0 7],
      [.covering (.group [.covering (.pair (.covering (.word "a") 1 2)
        (.covering (.range .unbounded (some (.covering (.word "b") 5 6))) 3 6)) 1 6]) 0 7],
      0, 7, 7⟩ := by cbv
  have hfault : Query.read 1 "(x) a,b:c" = .error (.unterminatedList "pair_op" 7) := by cbv
  refine ⟨by decide, ⟨_, hread, by decide, ?_⟩, ?_, hfault, ?_⟩
  · exact ((Query.read_limit (by decide : 2 ≤ 3) "(a:..b)").1 _ hread).1
  · rintro ⟨query, hquery⟩
    obtain ⟨hsame, hnesting⟩ := (Query.read_limit (by decide : 1 ≤ 2) "(a:..b)").1 query hquery
    rw [hread] at hsame
    cases hsame
    exact absurd hnesting (by decide)
  · rcases (Query.read_limit (by decide : 1 ≤ 2) "(x) a,b:c").2.2 _ hfault with ⟨offset, h⟩ | h
    · cases h
    · exact h

end SearchQuery
