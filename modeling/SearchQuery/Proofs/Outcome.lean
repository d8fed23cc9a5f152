import SearchQuery.Proofs.Forest.Failure
import SearchQuery.Proofs.Forest.Room
import SearchQuery.Query

/-!
# The outcome of reading a query

All that can come of reading a query follows from the run over its text (`Scans`) and from what the
promoted tokens of the run stand for (`Stands`) or fail for (`Fails`). A query is read just where
its tokens stand for a forest (`Query.read_eq_ok_iff`), because there is then room for its groups
too; it is refused where there is no room for its groups, or where its tokens fail
(`Query.read_eq_error_iff`).
-/

namespace SearchQuery

open Text (width)

variable {limit q : Nat} {text : String} {ts : List Token} {left : List Char}

/-- Reading a query goes over the tokens of the run over its text. -/
theorem Query.read_of_scans (hs : Scans 0 text.toList ts q left) :
    Query.read limit text =
      match overflowAll? limit ts with
      | some offset => .error (.tooDeep offset limit)
      | none => (forestOf limit (promote ts)).map fun forest =>
          ⟨ts, forest, 0, q, width text.toList⟩ := by
  rw [Query.read, Scan.ofText_eq, Scan.ofChars_of_scans hs]
  cases overflowAll? limit ts with
  | some offset => rfl
  | none =>
    simp only [bind, Except.bind]
    cases forestOf limit (promote ts) <;> rfl

/-- A query is read as the forest that its promoted tokens stand for. -/
theorem Query.read_eq_ok_iff (hs : Scans 0 text.toList ts q left) {query : Query} :
    Query.read limit text = .ok query ↔
      ∃ forest, Stands limit .forest (promote ts) forest [] ∧
        query = ⟨ts, forest, 0, q, width text.toList⟩ := by
  rw [read_of_scans hs]
  constructor
  · intro h
    cases ho : overflowAll? limit ts with
    | some offset =>
      rw [ho] at h
      cases h
    | none =>
      rw [ho] at h
      cases hforest : forestOf limit (promote ts) with
      | error fault =>
        rw [hforest] at h
        cases h
      | ok forest =>
        rw [hforest] at h
        cases h
        exact ⟨forest, forestOf_eq_ok_iff.mp hforest, rfl⟩
  · rintro ⟨forest, hstands, rfl⟩
    rw [(promotes ts).overflow, hstands.overflow, forestOf_eq_ok_iff.mpr hstands]
    rfl

/-- A query is refused where there is no room for its groups, or for what its promoted tokens fail
for. -/
theorem Query.read_eq_error_iff (hs : Scans 0 text.toList ts q left) {fault : Fault} :
    Query.read limit text = .error fault ↔
      (∃ offset, overflowAll? limit ts = some offset ∧ fault = .tooDeep offset limit) ∨
        overflowAll? limit ts = none ∧
          ∃ reason t, Fails limit .forest (promote ts) reason t ∧ reason.fault limit t = fault := by
  rw [read_of_scans hs, ← forestOf_eq_error_iff]
  cases overflowAll? limit ts with
  | some offset => simp [eq_comm]
  | none => cases forestOf limit (promote ts) <;> simp [Except.map]

end SearchQuery
