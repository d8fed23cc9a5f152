import SearchQuery.Proofs.Forest.Ends
import SearchQuery.Proofs.Forest.Spans
import SearchQuery.Proofs.Outcome

/-!
# What a complete query contains

A query is complete when it was read to its end and none of its tokens asks for a correction. That
does not rule out comparisons without a value and ranges without an upper bound, which ask for
nothing, but any other token has all of its parts. Where these two do not occur either, every token
has both ends, and the trees of the forest take up all that is not blank
(`Query.read_of_isComplete`).
-/

namespace SearchQuery

open Text (width isBlank suffixAt?_zero charAt? of_charAt?_eq_some)

/-- Does the token take up the byte at position `i`? -/
def Token.covers (i : Nat) (t : Token) : Bool :=
  match t.span with
  | ⟨some start, some stop⟩ => decide (start ≤ i ∧ i < stop)
  | _ => false

/-- A token with both ends takes up what lies between them. -/
theorem Token.covers_iff {t : Token} {i s e : Nat} (h : t.span = ⟨some s, some e⟩) :
    t.covers i = true ↔ s ≤ i ∧ i < e := by
  rw [covers, h]
  exact decide_eq_true_iff

/-- Where there are only blanks, every byte belongs to one. -/
theorem BlankBetween.isBlank_of_charAt? {cs : List Char} {a b i : Nat} {c : Char}
    (h : BlankBetween cs a b) (ha : a ≤ i) (hb : i < b) (hc : charAt? i cs = some c) :
    isBlank c = true := by
  obtain ⟨part, hpart, hblank⟩ := h
  exact hblank c (hpart.mem_of_charAt? ha hb hc)

/-- Tokens that lie one in front of the other, with only blanks between them, take up every byte
that belongs to no blank, and none of them twice. -/
theorem BlankGaps.countP_covers {cs : List Char} {a b i : Nat} {c : Char} {ts : List Token}
    (hgaps : BlankGaps cs (some a) ts (some b)) (hbefore : ts.Pairwise Token.Before)
    (hspans : ∀ t ∈ ts, ∃ s e, t.span = ⟨some s, some e⟩) (ha : a ≤ i) (hb : i < b)
    (hc : charAt? i cs = some c) (hblank : isBlank c = false) : ts.countP (Token.covers i) = 1 := by
  induction ts generalizing a with
  | nil =>
    have := (hgaps a rfl b rfl).isBlank_of_charAt? ha hb hc
    simp [this] at hblank
  | cons t ts ih =>
    obtain ⟨⟨s, e, ht⟩, hspans⟩ := List.forall_mem_cons.mp hspans
    obtain ⟨hbehind, hbefore⟩ := List.pairwise_cons.mp hbefore
    obtain ⟨hgap, hgaps⟩ := hgaps
    rw [ht] at hgap hgaps
    have hs : s ≤ i := by
      by_contra hlt
      have := (hgap a rfl s rfl).isBlank_of_charAt? ha (by omega) hc
      simp [this] at hblank
    by_cases he : i < e
    · -- The token takes up the byte, so that all others start behind it.
      have hothers : ts.countP (Token.covers i) = 0 := by
        refine List.countP_eq_zero.mpr ?_
        intro u hu hcovers
        obtain ⟨s', e', hu'⟩ := hspans u hu
        have hle : e ≤ s' :=
          (hbehind u hu s' (by rw [hu']; rfl) t t.mem_preorder_self).2 e (by rw [ht]; rfl)
        have := (Token.covers_iff hu').mp hcovers
        omega
      rw [List.countP_cons_of_pos ((Token.covers_iff ht).mpr ⟨hs, he⟩), hothers]
    · have hcovers : ¬ t.covers i = true := fun h => he ((Token.covers_iff ht).mp h).2
      rw [List.countP_cons_of_neg hcovers]
      exact ih hgaps hbefore hspans (by omega)

/-- A complete query lacks nothing but values of comparisons and upper bounds of ranges. Where it
lacks none of these either, all its tokens have both ends, except for bounds that were left out of
ranges, and every byte of the text that belongs to no blank is taken up by one tree of the forest,
and only by one. -/
theorem Query.read_of_isComplete {limit : Nat} {text : String} {query : Query}
    (h : Query.read limit text = .ok query) (hcomplete : query.isComplete = true) :
    (∀ t ∈ preorderAll query.forest, t.lacksPart = true → t.isHalf = true) ∧
      ((∀ t ∈ preorderAll query.forest, t.isHalf = false) →
        (∀ t ∈ preorderAll query.forest, t.kind ≠ .unbounded →
          ∃ start stop, t.span = ⟨some start, some stop⟩) ∧
        ∀ i c, charAt? i text.toList = some c → isBlank c = false →
          query.forest.countP (Token.covers i) = 1) := by
  obtain ⟨ts, b, left, hs⟩ := exists_scans 0 text.toList
  obtain ⟨forest, hstands, rfl⟩ := (read_eq_ok_iff hs).mp h
  obtain ⟨hfull, hempty⟩ := (Bool.and_eq_true _ _).mp hcomplete
  have hhalf : ∀ t ∈ preorderAll forest, t.lacksPart = true → t.isHalf = true := by
    have hproblem : ∀ t ∈ preorderAll forest, ¬ t.isProblem = true :=
      List.filter_eq_nil_iff.mp (List.isEmpty_iff.mp hempty)
    have hflags : ∀ t ∈ preorderAll forest, t.flagsPin = true :=
      hstands.forall_mem_preorderAll (fun _ => Token.flagsPin_of_isMade)
        ((promotes ts).flagsPin hs.isRaw)
    exact fun t ht hlacks => Token.isHalf_of_lacksPart hlacks (by simpa using hproblem t ht)
      (hflags t ht)
  refine ⟨hhalf, ?_⟩
  intro hnone
  have hlacks : ∀ t ∈ preorderAll forest, t.lacksPart = false := by
    intro t ht
    by_contra hlacks
    have := hhalf t ht (by simpa using hlacks)
    simp [hnone t ht] at this
  have hended : Ended (promote ts) forest :=
    hstands.ended ((promotes ts).isEnded fun t ht => ⟨hs.isRaw t ht, hs.isEnded t ht⟩) hlacks
  obtain ⟨harranged, hgaps⟩ := hstands.arranges ((promotes ts).laid (hs.laid (suffixAt?_zero _)))
  -- A token with an end also has a start: it is no bound that was left out.
  have hspan : ∀ t ∈ preorderAll forest, t.hasEnd = true →
      ∃ start stop, t.span = ⟨some start, some stop⟩ := by
    intro t ht hend
    rcases harranged.exists_lies t ht with rfl | ⟨start, _, -, -, hlies⟩
    · cases hend
    · obtain ⟨stop, hstop⟩ := Option.isSome_iff_exists.mp hend
      exact ⟨start, stop, by rw [← hlies.1.start, ← hstop]⟩
  refine ⟨?_, ?_⟩
  · exact fun t ht hkind => hspan t ht ((hended.inside t ht).resolve_left hkind)
  · intro i c hc hblank
    have hi : i < b := (of_charAt?_eq_some hc).2.trans_le (of_decide_eq_true hfull)
    exact hgaps.countP_covers harranged.pairwise_before
      (fun t ht => hspan t (mem_preorderAll ht) (hended.trees t ht)) (Nat.zero_le i) hi hc hblank

/-- The law for a group with a range without an upper bound in it, and a comparison behind that. -/
theorem Query.read_of_isComplete_group : ∃ query, Query.read 1 "(\"é\"..) >x" = .ok query ∧
    query.isComplete = true ∧ (∀ t ∈ preorderAll query.forest, t.lacksPart = false) ∧
    (∀ t ∈ preorderAll query.forest, t.kind ≠ .unbounded →
      ∃ start stop, t.span = ⟨some start, some stop⟩) ∧
    ∀ i c, charAt? i "(\"é\"..) >x".toList = some c → isBlank c = false →
      query.forest.countP (Token.covers i) = 1 := by
  have hread : Query.read 1 "(\"é\"..) >x" = .ok ⟨
      [.covering (.group [.covering (.quoted "é") 1 5, .covering .dots 5 7]) 0 8,
        .covering (.space " ") 8 9, .covering (.comparator .more) 9 10,
        .covering (.word "x") 10 11],
      [.covering (.group [
          .covering (.range (.covering (.quoted "é") 1 5) (some .unbounded)) 1 7]) 0 8,
        .covering (.comparison .more (some (.covering (.word "x") 10 11))) 9 11],
      0, 11, 11⟩ := by cbv
  have hhalf : ∀ t ∈ preorderAll [
      .covering (.group [
          .covering (.range (.covering (.quoted "é") 1 5) (some .unbounded)) 1 7]) 0 8,
      .covering (.comparison .more (some (.covering (.word "x") 10 11))) 9 11],
      t.isHalf = false := by decide
  obtain ⟨hlacks, hrest⟩ := Query.read_of_isComplete hread rfl
  refine ⟨_, hread, rfl, ?_, hrest hhalf⟩
  intro t ht
  by_contra h
  have := hlacks t ht (by simpa using h)
  simp [hhalf t ht] at this

/-- A comparator by itself and a range that ends in front of a comma are read as complete queries,
although the one lacks its value and the other its upper bound, and neither is known to end. -/
theorem Query.isComplete_of_missing :
    (∃ query t, Query.read defaultLimit ">" = .ok query ∧ query.isComplete = true ∧
      query.forest = [t] ∧ t.kind = .comparison .more none ∧ t.span.stop = none ∧
      query.forest.countP (Token.covers 0) = 0) ∧
    ∃ query t ts, Query.read defaultLimit "a..," = .ok query ∧ query.isComplete = true ∧
      query.forest = t :: ts ∧ t.kind = .range (.covering (.word "a") 0 1) none ∧
      t.span.stop = none ∧ query.forest.countP (Token.covers 0) = 0 := by
  have hcomparison (limit : Nat) : Query.read limit ">" = .ok ⟨
      [.covering (.comparator .more) 0 1],
      [⟨.comparison .more none, some 0, ⟨some 0, none⟩, false⟩], 0, 1, 1⟩ := by cbv
  have hrange (limit : Nat) : Query.read limit "a..," = .ok ⟨
      [.covering (.word "a") 0 1, .covering .dots 1 3, .covering .comma 3 4],
      [⟨.range (.covering (.word "a") 0 1) none, some 0, ⟨some 0, none⟩, false⟩,
        .covering (.list []) 3 4], 0, 4, 4⟩ := by cbv
  exact ⟨⟨_, _, hcomparison _, rfl, rfl, rfl, rfl, rfl⟩,
    _, _, _, hrange _, rfl, rfl, rfl, rfl, rfl⟩

end SearchQuery
