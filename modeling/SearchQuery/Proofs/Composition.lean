import Mathlib
import SearchQuery.Proofs.Forest.Barrier
import SearchQuery.Proofs.Outcome
import SearchQuery.Proofs.Scan.Joining

/-!
# Queries with blanks in between

Blanks part everything: the token that they make stays what it is when tokens are promoted, no
promotion reaches across it (`exists_promote_append_blank`), no reader looks past it
(`forestOf_append_blank`), and it needs no room. So two queries with blanks in between are read as
the one and then the other (`Query.read_append_blanks`).
-/

namespace SearchQuery

open Text (width isBlank)

/-! ## Promotion -/

/-- A pin mark takes in whatever follows. -/
theorem Token.isPinMark_eq_false {t : Token} (h : t.isOpenEnded = false) : t.isPinMark = false := by
  obtain ⟨kind, index, span, flagged⟩ := t
  cases kind <;> first | rfl | cases h

/-- A blank stays what it is. -/
theorem promote_cons_blank {blank : Token} (hblank : blank.isSpace = true) (ts : List Token) :
    promote (blank :: ts) = blank :: promote ts := by
  have hsettled : blank.isSettled = true := by
    obtain ⟨kind, index, span, flagged⟩ := blank
    cases kind <;> first | rfl | cases hblank
  obtain ⟨hmark, hself⟩ := Token.promote_of_isSettled hsettled
  rw [promote_cons hmark, hself]

/-- What tokens are promoted to in front of a blank depends neither on that nor on what follows. -/
theorem exists_promote_append_blank (ts : List Token) : ∃ us, ∀ (blank : Token) (vs : List Token),
    blank.isSpace = true → promote (ts ++ blank :: vs) = us ++ blank :: promote vs := by
  -- A pin mark takes in the token behind it, so that two tokens are looked at in each step.
  induction ts using List.twoStepInduction with
  | nil => exact ⟨[], fun _ vs hblank => promote_cons_blank hblank vs⟩
  | singleton t =>
    cases hmark : t.isPinMark with
    | true =>
      refine ⟨[t.pinningNothing], ?_⟩
      intro blank vs hblank
      have hpinnable : ¬ blank.isPinnable = true := by
        intro hpinnable
        have hfragment := Token.isFragment_of_isPinnable hpinnable
        rw [(Token.of_isSpace hblank).1] at hfragment
        cases hfragment
      rw [List.singleton_append, promote, if_pos hmark, if_neg hpinnable,
        promote_cons_blank hblank]
      rfl
    | false =>
      refine ⟨[t.promote], ?_⟩
      intro blank vs hblank
      rw [List.singleton_append, promote_cons hmark, promote_cons_blank hblank]
      rfl
  | cons_cons t u ts ih ih' =>
    obtain ⟨us, hus⟩ := ih' u
    obtain ⟨us', hus'⟩ := ih
    cases hmark : t.isPinMark with
    | true =>
      cases hpinnable : u.isPinnable with
      | true =>
        refine ⟨t.pinning u :: us', ?_⟩
        intro blank vs hblank
        rw [List.cons_append, List.cons_append, promote, if_pos hmark, if_pos hpinnable,
          hus' blank vs hblank, List.cons_append]
      | false =>
        refine ⟨t.pinningNothing :: us, ?_⟩
        intro blank vs hblank
        rw [List.cons_append, List.cons_append, promote, if_pos hmark, if_neg (by simp [hpinnable]),
          ← List.cons_append, hus blank vs hblank, List.cons_append]
    | false =>
      refine ⟨t.promote :: us, ?_⟩
      intro blank vs hblank
      rw [List.cons_append, promote_cons hmark, hus blank vs hblank, List.cons_append]

/-- Tokens that do not end in a pin mark are promoted by themselves. -/
theorem promote_append (us : List Token) {ts : List Token}
    (h : ∀ t ∈ ts.getLast?, t.isPinMark = false) :
    promote (ts ++ us) = promote ts ++ promote us := by
  induction ts using List.twoStepInduction with
  | nil => rfl
  | singleton t =>
    have hmark := h t rfl
    rw [List.singleton_append, promote_cons hmark, promote_cons hmark]
    rfl
  | cons_cons t u ts ih ih' =>
    have hrest := ih' u (getLast?_of_cons h)
    have hrest' := ih (getLast?_of_cons (getLast?_of_cons h))
    rw [List.cons_append] at hrest
    rw [List.cons_append, List.cons_append, promote, promote, hrest, hrest']
    split
    · split <;> rfl
    · rfl

/-! ## Forests -/

/-- No tokens make an empty forest. -/
theorem forestOf_nil (limit : Nat) : forestOf limit [] = .ok [] := forestOf_eq_ok_iff.mpr .done

/-- A blank in front of tokens has no part in their forest. -/
theorem forestOf_promote_of_blankAhead {limit : Nat} {ts back : List Token}
    (h : BlankAhead ts back) : forestOf limit (promote ts) = forestOf limit (promote back) := by
  rcases h with rfl | ⟨blank, hblank, rfl⟩
  · rfl
  · have hsplit := forestOf_append_blank limit hblank [] (promote back)
    rw [List.nil_append, forestOf_nil] at hsplit
    rw [promote_cons_blank hblank, hsplit]
    cases forestOf limit (promote back) <;> rfl

/-- A blank behind tokens has no part in their forest either. -/
theorem forestOf_append_blank_nil (limit : Nat) {blank : Token} (hblank : blank.isSpace = true)
    (ts : List Token) : forestOf limit (ts ++ [blank]) = forestOf limit ts := by
  rw [forestOf_append_blank limit hblank, forestOf_nil]
  cases forestOf limit ts with
  | error fault => rfl
  | ok forest => simp only [bind, Except.bind, List.append_nil]

/-- The forest of the tokens of two texts with blanks in between is that of both, one behind the
other. -/
theorem forestOf_promote_append_blank {limit : Nat} {ts us front back : List Token} {blank : Token}
    (hblank : blank.isSpace = true) (hts : BlankBehind ts front)
    (hmark : ∀ t ∈ ts.getLast?, t.isPinMark = false) (hus : BlankAhead us back) :
    forestOf limit (promote (front ++ blank :: back)) = (do
      let forest ← forestOf limit (promote ts)
      let forest' ← forestOf limit (promote us)
      .ok (forest ++ forest')) := by
  obtain ⟨front', hfront⟩ := exists_promote_append_blank front
  have hfirst : forestOf limit (promote ts) = forestOf limit front' := by
    rcases hts with rfl | ⟨blank', hblank', rfl⟩
    · have hsplit := promote_append [blank] hmark
      rw [hfront blank [] hblank, promote_cons_blank hblank, promote] at hsplit
      rw [List.append_cancel_right hsplit]
    · rw [hfront blank' [] hblank', promote, forestOf_append_blank_nil limit hblank']
  rw [hfront blank back hblank, forestOf_append_blank limit hblank, hfirst,
    forestOf_promote_of_blankAhead hus]

/-! ## Room -/

/-- Blanks need no room. -/
theorem overflowAll?_append_blank {room : Nat} {ts us front back : List Token} {blank : Token}
    (hblank : blank.isSpace = true) (hts : BlankBehind ts front) (hus : BlankAhead us back) :
    overflowAll? room (front ++ blank :: back) =
      (overflowAll? room ts).or (overflowAll? room us) := by
  have hnone : ∀ t : Token, t.isSpace = true → t.overflow? room = none :=
    fun t ht => Token.overflow?_of_not_isGroup (Token.isGroup_of_isSpace ht)
  have hfirst : overflowAll? room ts = overflowAll? room front := by
    rcases hts with rfl | ⟨blank', hblank', rfl⟩
    · rfl
    · rw [overflowAll?_append, overflowAll?, hnone blank' hblank', overflowAll?, Option.or_none,
        Option.or_none]
  have hsecond : overflowAll? room us = overflowAll? room back := by
    rcases hus with rfl | ⟨blank', hblank', rfl⟩
    · rfl
    · rw [overflowAll?, hnone blank' hblank', Option.none_or]
  rw [overflowAll?_append, overflowAll?, hnone blank hblank, hfirst, hsecond, Option.none_or]

/-! ## Queries -/

/-- A text of two with blanks in between is read like the second one, with the forest of the first
one in front and at positions further on. -/
theorem Query.exists_read_append_blanks {limit : Nat} {p w : String} {query : Query}
    (hp : Query.read limit p = .ok query) (hfull : query.isFullyRead = true)
    (hopen : ∀ t ∈ query.tokens.getLast?, t.isOpenEnded = false) (hne : w ≠ "")
    (hblank : ∀ c ∈ w.toList, isBlank c = true) {n : Nat}
    (hn : n = width p.toList + width w.toList) (q : String) :
    ∃ tokens length, Query.read limit (p ++ w ++ q) =
      match Query.read limit q with
      | .ok query' => .ok ⟨tokens, query.forest ++ query'.forest.map (Token.shift n), 0,
          n + query'.stop, length⟩
      | .error fault => .error (fault.shift n) := by
  obtain ⟨ts, b, left, hs⟩ := exists_scans 0 p.toList
  obtain ⟨us, c, left', hs'⟩ := exists_scans 0 q.toList
  obtain ⟨forest, hstands, rfl⟩ := (read_eq_ok_iff hs).mp hp
  -- The first text is read to its end, so that the blanks stand where its run ends.
  have hleft : left = [] := by
    have hwidth := hs.width_eq
    have hle : width p.toList ≤ b := of_decide_eq_true hfull
    exact Text.width_eq_zero_iff.mp (by omega)
  subst hleft
  have hb : 0 + n = b + width w.toList := by
    have hwidth := hs.width_eq
    rw [Text.width_nil] at hwidth
    omega
  obtain ⟨back, hus, htakes⟩ := (hs'.shift n).exists_takesBlanks
  rw [hb] at htakes
  obtain ⟨front, blank, hspace, hscans, hts⟩ :=
    hs.append_blanks hopen (by simpa using hne) hblank htakes
  have htext : p.toList ++ (w.toList ++ q.toList) = (p ++ w ++ q).toList := by simp
  rw [htext] at hscans
  have hmark : ∀ t ∈ ts.getLast?, t.isPinMark = false :=
    fun t ht => Token.isPinMark_eq_false (hopen t ht)
  have hindex : ∀ t ∈ preorderAll (promote us), t.index.isSome = true :=
    (promotes us).index_isSome fun t ht => ⟨hs'.isRaw t ht, hs'.index_isSome t ht⟩
  refine ⟨front ++ blank :: back, width (p ++ w ++ q).toList, ?_⟩
  rw [read_of_scans hscans, read_of_scans hs', overflowAll?_append_blank hspace hts hus,
    forestOf_promote_append_blank hspace hts hmark hus, overflowAll?_shift hs'.index_isSome,
    (promotes ts).overflow, hstands.overflow, forestOf_eq_ok_iff.mpr hstands, promote_shift,
    forestOf_map_shift hindex]
  cases overflowAll? limit us with
  | some offset => rfl
  | none =>
    cases forestOf limit (promote us) with
    | error fault => rfl
    | ok forest' => simp [bind, Except.bind, Except.map, Nat.add_comm n]

/-- Blanks put queries together. Behind a query that is read to its end, and does not end in a token
that takes in whatever follows, and behind at least one blank, another query is read just where it
is read by itself. Its forest is then the forest of the first query and its own one, as far behind
as the first query and the blanks are long, and reading stops that much further on. Where the
other query is refused, both together are refused for the same reason, that much further on. -/
theorem Query.read_append_blanks {limit : Nat} {p w : String} {query : Query}
    (hp : Query.read limit p = .ok query) (hfull : query.isFullyRead = true)
    (hopen : ∀ t ∈ query.tokens.getLast?, t.isOpenEnded = false) (hne : w ≠ "")
    (hblank : ∀ c ∈ w.toList, isBlank c = true) (q : String) :
    (Query.read limit (p ++ w ++ q)).isOk = (Query.read limit q).isOk ∧
      (∀ query', Query.read limit q = .ok query' →
        ∃ query'', Query.read limit (p ++ w ++ q) = .ok query'' ∧
          query''.forest =
            query.forest ++ query'.forest.map (Token.shift (width p.toList + width w.toList)) ∧
          query''.stop = width p.toList + width w.toList + query'.stop) ∧
      ∀ fault, Query.read limit q = .error fault →
        Query.read limit (p ++ w ++ q) =
          .error (fault.shift (width p.toList + width w.toList)) := by
  obtain ⟨tokens, length, hread⟩ := exists_read_append_blanks hp hfull hopen hne hblank rfl q
  rw [hread]
  refine ⟨?_, ?_, ?_⟩
  · cases Query.read limit q <;> rfl
  · intro query' hq
    rw [hq]
    exact ⟨_, rfl, rfl, rfl⟩
  · intro fault hq
    rw [hq]

/-- The law for a list that ends in a comma, with a blank and a line end behind it, and for a group
without its closing parenthesis or a list that goes over into a pair behind that. -/
theorem Query.read_append_blanks_list : ∃ query, Query.read 1 "x," = .ok query ∧
    query.isFullyRead = true ∧ (∀ t ∈ query.tokens.getLast?, t.isOpenEnded = false) ∧
    " \n" ≠ "" ∧ (∀ c ∈ " \n".toList, isBlank c = true) ∧
    (∃ query', Query.read 1 ("x," ++ " \n" ++ "(b)c") = .ok query' ∧ query'.forest =
      [.covering (.list [.covering (.word "x") 0 1]) 0 2,
        .covering (.group [.covering (.word "b") 5 6]) 4 7, .covering (.word "c") 7 8] ∧
      query'.stop = 8) ∧
    Query.read 1 ("x," ++ " \n" ++ "a,b:c") = .error (.unterminatedList "pair_op" 7) := by
  have hfirst : Query.read 1 "x," = .ok ⟨[.covering (.word "x") 0 1, .covering .comma 1 2],
      [.covering (.list [.covering (.word "x") 0 1]) 0 2], 0, 2, 2⟩ := by cbv
  have hsecond : Query.read 1 "(b)c" = .ok ⟨
      [.covering (.group [.covering (.word "b") 1 2]) 0 3, .covering (.word "c") 3 4],
      [.covering (.group [.covering (.word "b") 1 2]) 0 3, .covering (.word "c") 3 4],
      0, 4, 4⟩ := by cbv
  have hfault : Query.read 1 "a,b:c" = .error (.unterminatedList "pair_op" 3) := by cbv
  have hopen : ∀ t ∈ [Token.covering (.word "x") 0 1, Token.covering .comma 1 2].getLast?,
      t.isOpenEnded = false := by
    rintro t ⟨⟩
    rfl
  have hne : " \n" ≠ "" := by decide
  have hblank : ∀ c ∈ " \n".toList, isBlank c = true := List.all_eq_true.mp (by cbv)
  have hlaw := Query.read_append_blanks hfirst rfl hopen hne hblank
  refine ⟨_, hfirst, rfl, hopen, hne, hblank, ?_, ?_⟩
  · obtain ⟨query', hread, hforest, hstop⟩ := (hlaw "(b)c").2.1 _ hsecond
    exact ⟨query', hread, hforest, hstop⟩
  · exact (hlaw "a,b:c").2.2 _ hfault

end SearchQuery
