import SearchQuery.Proofs.Canonical.Recovery
import SearchQuery.Proofs.Forest.Room
import SearchQuery.Proofs.Forest.Soundness
import SearchQuery.Query

/-!
# Reading inverts writing

What is written for a canonical forest is read as that forest, as soon as the limit on nesting is
no lower than the forest's own nesting, and is refused otherwise (`Query.read_printForest`). Words,
keywords, quoted strings, pins, ranges, lists and pairs all come back as they were, only with the
positions at which they stand in the text.
-/

namespace SearchQuery

open Text (width)

mutual

/-- Positions have no part in how deeply a token is nested. -/
theorem Token.nesting_bare : ∀ t : Token, t.bare.nesting = t.nesting
  | ⟨kind, _, _, _⟩ => kind.nesting_bare

/-- Nor have they in how deeply a token of some kind is nested. -/
theorem Kind.nesting_bare : ∀ kind : Kind Token, kind.bare.nesting = kind.nesting
  | .group items | .unclosedGroup items => congrArg (· + 1) (nestingAll_bareAll items)
  | .list items | .pattern items => nestingAll_bareAll items
  | .pin value | .comparison _ value => nestingOption_bareOption value
  | .range lower upper => by
    rw [Kind.bare, Kind.nesting, Kind.nesting, lower.nesting_bare, nestingOption_bareOption upper]
  | .pair key value => by
    rw [Kind.bare, Kind.nesting, Kind.nesting, key.nesting_bare, value.nesting_bare]
  | .unfinishedPair key value => by
    rw [Kind.bare, Kind.nesting, Kind.nesting, nestingOption_bareOption key,
      nestingOption_bareOption value]
  | .space _ | .word _ | .quoted _ | .unclosedQuoted _ | .pinMark | .comparator _ | .colon | .dots
  | .comma | .wildcard | .anyChar | .and | .or | .not | .null | .danglingPin | .unbounded => rfl

/-- Nor in how deeply a part that may be missing is nested. -/
theorem nestingOption_bareOption : ∀ t? : Option Token,
    nestingOption (bareOption t?) = nestingOption t?
  | none => rfl
  | some t => t.nesting_bare

/-- Nor in how deeply a forest is nested. -/
theorem nestingAll_bareAll : ∀ ts : List Token, nestingAll (bareAll ts) = nestingAll ts
  | [] => rfl
  | t :: ts => by rw [bareAll, nestingAll, nestingAll, t.nesting_bare, nestingAll_bareAll ts]

end

/-- Forests that differ in positions only ask for the same corrections. -/
theorem any_isProblem_bareAll (ts : List Token) :
    (preorderAll (bareAll ts)).any Token.isProblem = (preorderAll ts).any Token.isProblem := by
  induction ts with
  | nil => rfl
  | cons t ts ih =>
    rw [bareAll, preorderAll, preorderAll, List.any_append, List.any_append, t.any_isProblem_bare,
      ih]

/-- A forest that differs from a canonical one in positions only asks for no correction. -/
theorem problems_eq_nil {ts us : List Token} (hus : ∀ u ∈ us, u.Canonical .unit)
    (h : bareAll ts = bareAll us) : problems ts = [] := by
  have hclean : (preorderAll us).any Token.isProblem = false := by
    rw [List.any_eq_false]
    intro x hx
    obtain ⟨u, hu, hx⟩ := mem_preorderAll_iff.mp hx
    simp [(hus u hu).isProblem_eq_false x hx]
  have hany : (preorderAll ts).any Token.isProblem = false := by
    rw [← any_isProblem_bareAll, h, any_isProblem_bareAll, hclean]
  rw [problems, List.filter_eq_nil_iff]
  exact List.any_eq_false.mp hany

/-- Characters that are scanned and promoted from the start of a text on make up a whole scan. -/
theorem Reads.scans {phrase : Phrase} {cs : List Char} {ts raw us out : List Token}
    (h : Reads phrase 0 cs ts raw us out) :
    Scans 0 cs raw (width cs) [] ∧ Promotes raw us := by
  have hscans := h.spells [] [] _ [] nofun (.stop trivial)
  rw [List.append_nil, List.append_nil, Nat.zero_add] at hscans
  have hpromotes := h.converts [] [] .nil
  rw [List.append_nil, List.append_nil] at hpromotes
  exact ⟨hscans, hpromotes⟩

/-- Where there is room for a forest, what is written for it is read to its end. -/
theorem Reads.read {limit : Nat} {cs : List Char} {ts raw us out : List Token}
    (h : Reads .forest 0 cs ts raw us out) (hlimit : nestingAll ts ≤ limit) :
    Query.read limit (String.ofList cs) = .ok ⟨raw, out, 0, width cs, width cs⟩ := by
  obtain ⟨hscans, hpromotes⟩ := h.scans
  have hstands := h.stands limit [] hlimit rfl
  have hforest : forestOf limit (promote raw) = .ok out := by
    rw [hpromotes.eq]
    exact forestOf_eq_ok_iff.mpr hstands
  have hscan : Scan.ofText limit (String.ofList cs) = .ok ⟨0, width cs, raw⟩ := by
    rw [Scan.ofText_eq, String.toList_ofList, Scan.ofChars_of_scans hscans, hpromotes.overflow,
      hstands.overflow]
  rw [Query.read, hscan]
  simp only [bind, Except.bind, hforest, String.toList_ofList]

/-- Where what is written for a forest is read at all, there is room for the forest. -/
theorem Reads.nestingAll_le {limit : Nat} {cs : List Char} {ts raw us out : List Token}
    {query : Query} (h : Reads .forest 0 cs ts raw us out)
    (hquery : Query.read limit (String.ofList cs) = .ok query) : nestingAll ts ≤ limit := by
  obtain ⟨hscans, hpromotes⟩ := h.scans
  obtain ⟨scan, hscan, hquery⟩ := exists_of_bind_eq_ok hquery
  obtain ⟨found, hfound, -⟩ := exists_of_bind_eq_ok hquery
  have hpromoted := Scan.isPromoted hscan
  rw [Scan.ofText_eq, String.toList_ofList] at hscan
  obtain ⟨left, hscans', -⟩ := Scan.exists_scans_of_ofChars hscan
  have htokens : scan.tokens = raw := hscans'.nested.1.symm.trans hscans.nested.1
  rw [htokens, hpromotes.eq] at hpromoted hfound
  have hstands := forestOf_eq_ok_iff.mp hfound
  -- With room for both, the forest that was found and the one that was written are the same.
  have hwide := hstands.mono (Nat.le_max_left limit (nestingAll ts))
  have hwide' := h.stands (max limit (nestingAll ts)) [] (Nat.le_max_right _ _) rfl
  have hsame : found = out := by
    have heq := (forestOf_eq_ok_iff.mpr hwide).symm.trans (forestOf_eq_ok_iff.mpr hwide')
    exact Except.ok.inj heq
  have hle := hstands.nestingAll_le hpromoted
  rw [hsame, ← nestingAll_bareAll, h.bare, nestingAll_bareAll] at hle
  exact hle

/-- Reading inverts writing. What is written for a canonical forest can be read if and only if the
forest is nested no more deeply than the limit allows. It is then read to its end as the same
forest, with other positions, and nothing in it asks for a correction. -/
theorem Query.read_printForest {limit : Nat} {forest : List Token}
    (h : ∀ t ∈ forest, t.Canonical .unit) :
    ((∃ query, Query.read limit (String.ofList (printForest forest)) = .ok query) ↔
        nestingAll forest ≤ limit) ∧
      ∀ query, Query.read limit (String.ofList (printForest forest)) = .ok query →
        bareAll query.forest = bareAll forest ∧ query.start = 0 ∧
          query.stop = width (printForest forest) ∧ query.isComplete = true := by
  have hunits : ∀ t ∈ forest, Recovers .unit t.print [t] ∧ StartsUnit t.print := by
    intro t ht
    exact ⟨(h t ht).recovers, (h t ht).starts⟩
  obtain ⟨raw, us, out, hreads⟩ := recovers_forest hunits 0
  refine ⟨⟨?_, ?_⟩, ?_⟩
  · rintro ⟨query, hquery⟩
    exact hreads.nestingAll_le hquery
  · intro hlimit
    exact ⟨_, hreads.read hlimit⟩
  · intro query hquery
    rw [hreads.read (hreads.nestingAll_le hquery)] at hquery
    cases hquery
    refine ⟨hreads.bare, rfl, rfl, ?_⟩
    rw [Query.isComplete, Query.problems, problems_eq_nil h hreads.bare]
    simp [Query.isFullyRead]

/-- A token that is known by its kind alone. -/
def Token.ofKind (kind : Kind Token) : Token := ⟨kind, none, ⟨none, none⟩, false⟩

/-- A pair whose value is a range up to a group, which holds a list, an operator and a comparison.
-/
def nestedForest : List Token :=
  [.ofKind (.pair (.ofKind (.word "k")) (.ofKind (.range (.ofKind .unbounded) (some
    (.ofKind (.group [
      .ofKind (.list [.ofKind (.pattern [.ofKind (.word "a"), .ofKind .wildcard]),
        .ofKind (.pin (some (.ofKind (.word "and"))))]),
      .ofKind .not,
      .ofKind (.comparison .unequal (some (.ofKind (.quoted "\"\\"))))]))))))]

/-- The law for a forest that is nested two levels deep: it comes back where two levels are allowed,
and is refused where one is. -/
theorem Query.read_printForest_nested :
    (∀ t ∈ nestedForest, t.Canonical .unit) ∧ nestingAll nestedForest = 2 ∧
      String.ofList (printForest nestedForest) = "k:..(,a*,^and NOT !\"\\\"\\\\\")" ∧
      (∃ query, Query.read 2 (String.ofList (printForest nestedForest)) = .ok query ∧
        bareAll query.forest = bareAll nestedForest ∧ query.isComplete = true) ∧
      ¬ ∃ query, Query.read 1 (String.ofList (printForest nestedForest)) = .ok query := by
  have hword : ∀ word : String, word = "k" ∨ word = "a" ∨ word = "and" → IsWord word := by
    rintro _ (rfl | rfl | rfl) <;> exact .of_all (by decide) rfl
  have hpattern : (Token.ofKind (.pattern [.ofKind (.word "a"), .ofKind .wildcard])).Canonical
      .value := by
    refine .pattern (le_refl 2) ?_ (by simp [Token.isWord, Token.ofKind])
    refine List.forall_mem_cons.mpr ⟨.word (hword _ (by simp)) (by decide), ?_⟩
    exact List.forall_mem_singleton.mpr .wildcard
  have hpin : (Token.ofKind (.pin (some (.ofKind (.word "and"))))).Canonical .value :=
    .pinnedWord (hword _ (by simp))
  have hgroup : ∀ t ∈ nestedForest, t.Canonical .unit := by
    refine List.forall_mem_singleton.mpr
      (.pair (.word (hword _ (by simp)) (by decide)) rfl (.range .noLower (.upper (.group ?_))))
    refine List.forall_mem_cons.mpr ⟨.list ?_, List.forall_mem_cons.mpr ⟨.not, ?_⟩⟩
    · exact List.forall_mem_cons.mpr ⟨hpattern, List.forall_mem_singleton.mpr hpin⟩
    · exact List.forall_mem_singleton.mpr (.comparison (.fragment .quoted))
  have hnesting : nestingAll nestedForest = 2 := by decide
  obtain ⟨hread, hsame⟩ := @Query.read_printForest 2 _ hgroup
  obtain ⟨query, hquery⟩ := hread.mpr (by rw [hnesting])
  obtain ⟨hbare, -, -, hcomplete⟩ := hsame query hquery
  refine ⟨hgroup, hnesting, by decide, ⟨query, hquery, hbare, hcomplete⟩, ?_⟩
  intro hone
  have hle := (Query.read_printForest hgroup).1.mp hone
  rw [hnesting] at hle
  omega

end SearchQuery
