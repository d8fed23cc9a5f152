import Mathlib
import SearchQuery.Proofs.Outcome
import SearchQuery.Proofs.Scan.Lookahead
import SearchQuery.Request

/-!
# What is left unread of a query

Reading a query may stop in front of a character outside all groups. The text from there on is the
remainder that a verdict names, and it has no part in what was read: the query is read the same
without it (`Query.read_remainder`), although the last token was read with an eye on the character
behind it. A verdict on an incomplete query always names something: a token that asks for a
correction, or the remainder (`Request.check_remainder`).
-/

namespace SearchQuery

open Text (width suffixAt? width_eq_zero_iff)

/-- A query that is read consists of what was read and of what was left. The one is read to its end
as the same tokens and the same forest, and in the other nothing is found to read. -/
theorem Query.read_remainder {limit : Nat} {text : String} {query : Query}
    (h : Query.read limit text = .ok query) :
    ∃ front rest, text.toList = front ++ rest ∧ width front = query.stop ∧
      Query.read limit (String.ofList front) = .ok { query with length := query.stop } ∧
      ∀ limit', Scan.ofText limit' (String.ofList rest) = .ok ⟨0, 0, []⟩ := by
  obtain ⟨ts, q, rest, hs⟩ := exists_scans 0 text.toList
  obtain ⟨forest, hstands, rfl⟩ := (read_eq_ok_iff hs).mp h
  have hend : AtStop [] := trivial
  obtain ⟨front, htext, hfront⟩ := hs.replace hend nofun
  rw [List.append_nil] at hfront
  have hq : width front = q := by simpa using hfront.width_eq
  refine ⟨front, rest, htext, hq, ?_, ?_⟩
  · have hscans : Scans 0 (String.ofList front).toList ts q [] := by
      rwa [String.toList_ofList]
    refine (read_eq_ok_iff hscans).mpr ⟨forest, hstands, ?_⟩
    rw [String.toList_ofList, hq]
  · intro limit'
    rw [Scan.ofText_eq, String.toList_ofList]
    exact Scan.ofChars_of_scans (.stop hs.atStop) limit'

/-- A query that is read knows the length of its text. -/
theorem Query.length_eq {limit : Nat} {text : String} {query : Query}
    (h : Query.read limit text = .ok query) : query.length = width text.toList := by
  obtain ⟨ts, q, left, hs⟩ := exists_scans 0 text.toList
  obtain ⟨forest, -, rfl⟩ := (read_eq_ok_iff hs).mp h
  rfl

/-- What stands behind the beginning of a text is the rest from there on. -/
theorem Request.remainder_eq {text : String} {front rest : List Char} {n : Nat}
    (htext : text.toList = front ++ rest) (hn : width front = n) :
    remainder text n = some (String.ofList rest) := by
  rw [remainder, htext, ← hn, Text.suffixAt?_width, Option.map_some]

/-- Reading a request is reading its query. -/
theorem Request.read_eq {request : Request} {text : String} (htext : request.query = some text) :
    request.read = (Query.read request.limit text).mapError Refusal.fault := by
  rw [read, htext]

/-- The verdict on a query that is read. -/
theorem Request.check_eq {request : Request} {text : String} {query : Query}
    (htext : request.query = some text) (h : Query.read request.limit text = .ok query) :
    request.check = .ok (if query.isComplete then .complete else
      .incomplete (query.problems.map Problem.ofToken)
        (if query.isFullyRead then none else remainder text query.stop)) := by
  rw [check, read_eq htext, h]
  simp only [Except.mapError, bind, Except.bind, htext, Option.bind_some]
  split <;> rfl

/-- The verdict on a query that is read names what stands behind the stop, as its remainder, just
where reading stopped in front of the end. On an incomplete query it is never empty. -/
theorem Request.exists_verdict {request : Request} {text : String} {query : Query}
    {front rest : List Char} (htext : request.query = some text)
    (h : Query.read request.limit text = .ok query) (hsplit : text.toList = front ++ rest)
    (hstop : width front = query.stop) :
    ∃ verdict, request.check = .ok verdict ∧ verdict ≠ .incomplete [] none ∧
      ∀ r, (∃ problems, verdict = .incomplete problems (some r)) ↔
        query.stop < width text.toList ∧ r = String.ofList rest := by
  refine ⟨_, check_eq htext h, ?_⟩
  by_cases hshort : query.stop < width text.toList
  · have hfull : query.isFullyRead = false := by
      rw [Query.isFullyRead, Query.length_eq h]
      exact decide_eq_false (Nat.not_le_of_lt hshort)
    rw [Query.isComplete, hfull, remainder_eq hsplit hstop, Bool.false_and,
      if_neg Bool.false_ne_true, if_neg Bool.false_ne_true]
    refine ⟨?_, fun r => ⟨?_, ?_⟩⟩
    · intro hempty
      cases (Verdict.incomplete.inj hempty).2
    · rintro ⟨problems, hverdict⟩
      cases hverdict
      exact ⟨hshort, rfl⟩
    · rintro ⟨-, rfl⟩
      exact ⟨_, rfl⟩
  · have hfull : query.isFullyRead = true := by
      rw [Query.isFullyRead, Query.length_eq h]
      exact decide_eq_true (Nat.le_of_not_lt hshort)
    rw [Query.isComplete, hfull]
    cases query.problems <;>
      exact ⟨nofun, fun r => iff_of_false nofun fun hr => hshort hr.1⟩

/-- A query that is read falls into what was read, up to the stop, and what was left. What was read
is read to its end as the same tokens and the same forest when it stands alone, and nothing is found
to read in what was left. A verdict on the query names a remainder just where reading stopped in
front of the end, and it is what was left; a verdict on an incomplete query is never empty. -/
theorem Request.check_remainder {request : Request} {text : String} {query : Query}
    (htext : request.query = some text) (h : Query.read request.limit text = .ok query) :
    ∃ front rest, text.toList = front ++ rest ∧ width front = query.stop ∧
      (∃ query', Query.read request.limit (String.ofList front) = .ok query' ∧
        query'.isFullyRead = true ∧ query'.tokens = query.tokens ∧
        query'.forest = query.forest) ∧
      (∀ limit, Scan.ofText limit (String.ofList rest) = .ok ⟨0, 0, []⟩) ∧
      (query.stop < width text.toList ↔ rest ≠ []) ∧
      ∃ verdict, request.check = .ok verdict ∧ verdict ≠ .incomplete [] none ∧
        ∀ r, (∃ problems, verdict = .incomplete problems (some r)) ↔
          query.stop < width text.toList ∧ r = String.ofList rest := by
  obtain ⟨front, rest, hsplit, hstop, hfront, hrest⟩ := Query.read_remainder h
  have hfull : ({ query with length := query.stop } : Query).isFullyRead = true :=
    decide_eq_true (Nat.le_refl _)
  have hleft : query.stop < width text.toList ↔ rest ≠ [] := by
    rw [hsplit, Text.width_append, hstop, ne_eq, ← width_eq_zero_iff]
    omega
  exact ⟨front, rest, hsplit, hstop, ⟨_, hfront, hfull, rfl, rfl⟩, hrest, hleft,
    exists_verdict htext h hsplit hstop⟩

/-- The law where a group is left open by a character of two bytes, and reading stops behind a
comparator that the next character could have made longer. -/
theorem Request.check_remainder_dot : ∃ query front verdict,
    Query.read 2 "(>é a>.b" = .ok query ∧ query.stop = 7 ∧
    "(>é a>.b".toList = front ++ ".b".toList ∧
    (∃ query', Query.read 2 (String.ofList front) = .ok query' ∧ query'.isFullyRead = true ∧
      query'.tokens = query.tokens ∧ query'.forest = query.forest) ∧
    Scan.ofText 2 ".b" = .ok ⟨0, 0, []⟩ ∧
    (⟨some "(>é a>.b", 2, false, false⟩ : Request).check = .ok verdict ∧
    ∃ problems, verdict = .incomplete problems (some ".b") := by
  have hread : Query.read 2 "(>é a>.b" = .ok ⟨
      [.cutOff [.covering (.comparator .more) 1 2] 0, .covering (.space " ") 4 5,
        .covering (.word "a") 5 6, .covering (.comparator .more) 6 7],
      [⟨.unclosedGroup [⟨.comparison .more none, some 1, ⟨some 1, none⟩, false⟩], some 0,
          ⟨some 0, none⟩, false⟩,
        .covering (.word "a") 5 6, ⟨.comparison .more none, some 6, ⟨some 6, none⟩, false⟩],
      0, 7, 9⟩ := by cbv
  have htext : (⟨some "(>é a>.b", 2, false, false⟩ : Request).query = some "(>é a>.b" := rfl
  obtain ⟨front, rest, hsplit, hstop, hfront, hrest, -, verdict, hcheck, -, hverdict⟩ :=
    Request.check_remainder htext hread
  have hleft : suffixAt? 7 "(>é a>.b".toList = some rest := by
    rw [hsplit, show 7 = width front from hstop.symm, Text.suffixAt?_width]
  obtain rfl : ".b".toList = rest := Option.some.inj hleft
  rw [String.ofList_toList] at hrest
  refine ⟨_, front, verdict, hread, rfl, hsplit, hfront, hrest 2, hcheck, ?_⟩
  exact (hverdict ".b").mpr ⟨by decide, (String.ofList_toList).symm⟩

end SearchQuery
