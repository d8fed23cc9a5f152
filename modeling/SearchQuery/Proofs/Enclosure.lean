import SearchQuery.Proofs.Outcome
import SearchQuery.Proofs.Scan.Growth
import SearchQuery.Proofs.Shift

/-!
# Queries in parentheses

A closing parenthesis ends whatever stands in front of it, just as the end of the text does, except
for a quoted string or a group that the end cuts off (`Scans.append_closing`). So parentheses around
a query make one group of it, whose items are the units of the query, and nothing else changes:
neither what is missing in it nor what was written wrongly (`Query.read_parenthesized`).
-/

namespace SearchQuery

open Text (width)

/-- Does the end of a text cut the token off, so that what is written behind would belong to it? -/
def Token.isCutOff (t : Token) : Bool :=
  match t.kind with
  | .unclosedQuoted _ | .unclosedGroup _ => true
  | _ => false

/-- A piece at the end of a text is the same in front of a closing parenthesis. -/
theorem Piece.Written.before_closing {kind : Kind Token} {front : List Char} {p q : Nat}
    (h : (Piece.token kind).Written front []) (hcut : (Token.covering kind p q).isCutOff = false)
    (more : List Char) : (Piece.token kind).Written front (')' :: more) := by
  refine h.before ?_ ?_
  · rintro text rfl
    cases hcut
  · rintro _ ⟨⟩
    exact kind.goesOn_parenthesis.2

/-- A run to the end of a text stops in front of a closing parenthesis that is written behind the
text, and its tokens stay, unless the end cuts the last one off. -/
theorem Scans.append_closing {p q : Nat} {cs : List Char} {ts : List Token}
    (h : Scans p cs ts q []) (hlast : ∀ t ∈ ts.getLast?, t.isCutOff = false) (more : List Char) :
    Scans p (cs ++ ')' :: more) ts q (')' :: more) := by
  generalize hleft : ([] : List Char) = left at h
  induction h with
  | stop =>
    subst hleft
    exact .stop (.inl rfl)
  | @token p q kind front rest left ts hw hs ih =>
    subst hleft
    rw [List.append_assoc]
    refine .token ?_ (ih (getLast?_of_cons hlast) rfl)
    cases rest with
    | nil =>
      obtain ⟨rfl, -, -⟩ := hs.eq_of_nil
      exact hw.before_closing (hlast _ rfl) more
    | cons c rest => exact hw.append (.inl nofun) _
  | closed h₁ _ _ ih =>
    exact .closed (h₁.append nofun nofun _) (ih (getLast?_of_cons hlast) hleft)
  | @cut p q r d cs ds left items ts h₁ hd h₂ _ ih =>
    -- Something stands behind the character that cuts the group off: it is not the last token.
    have hds : ds ≠ [] := by
      rintro rfl
      obtain ⟨rfl, -, -⟩ := h₂.eq_of_nil
      cases hlast _ rfl
    obtain ⟨hitems, hd'⟩ := h₁.append_cut hd (fun _ => hds) (')' :: more)
    exact .cut hitems hd' (ih (getLast?_of_cons hlast) hleft)
  | unclosed => cases hlast _ rfl

/-- The run over a text in parentheses goes over one group, whose items are those of the run over
the text, one byte further on. -/
theorem Scans.enclose {q : Nat} {cs : List Char} {ts : List Token} (h : Scans 0 cs ts q [])
    (hlast : ∀ t ∈ ts.getLast?, t.isCutOff = false) :
    Scans 0 ('(' :: (cs ++ [')'])) [.covering (.group (ts.map (Token.shift 1))) 0 (q + 2)]
      (q + 2) [] :=
  .closed ((h.append_closing hlast []).shift 1) (.stop trivial)

/-- What promoted tokens stand for, a group of them stands for as its units, one byte further on. -/
theorem Stands.enclose {room stop : Nat} {ts forest : List Token}
    (h : Stands room .forest ts forest []) :
    Stands (room + 1) .forest [.covering (.group (ts.map (Token.shift 1))) 0 stop]
      [.covering (.group (forest.map (Token.shift 1))) 0 stop] [] := by
  have hunit : Stands (room + 1) .unit [.covering (.group (ts.map (Token.shift 1))) 0 stop]
      [.covering (.group (forest.map (Token.shift 1))) 0 stop] [] :=
    .ofValue (.group (.inl rfl) h.relabel) (.inl ⟨_, rfl, rfl⟩)
  exact hunit.next rfl .done

/-- Parentheses are transparent. A query that is read to its end, and that does not end in a quoted
string or a group that was never closed, is read in parentheses too, where one more level is
allowed: to its end, and as a single group that takes up the whole text. The units of the group are
those of the query, one byte further on. -/
theorem Query.read_parenthesized {limit : Nat} {text : String} {query : Query}
    (h : Query.read limit text = .ok query) (hfull : query.isFullyRead = true)
    (hlast : ∀ t ∈ query.tokens.getLast?, t.isCutOff = false) :
    ∃ query', Query.read (limit + 1) ("(" ++ text ++ ")") = .ok query' ∧
      query'.isFullyRead = true ∧
      query'.forest = [⟨.group (query.forest.map (Token.shift 1)), some 0,
        ⟨some 0, some (width text.toList + 2)⟩, false⟩] := by
  obtain ⟨ts, q, left, hs⟩ := exists_scans 0 text.toList
  obtain ⟨forest, hstands, rfl⟩ := (read_eq_ok_iff hs).mp h
  have hq : width text.toList = q ∧ left = [] := by
    have hwidth := hs.width_eq
    have hle : width text.toList ≤ q := of_decide_eq_true hfull
    exact ⟨by omega, Text.width_eq_zero_iff.mp (by omega)⟩
  obtain ⟨hq, rfl⟩ := hq
  have hscans := hs.enclose hlast
  have htext : '(' :: (text.toList ++ [')']) = ("(" ++ text ++ ")").toList := by simp
  rw [htext] at hscans
  have hpromote : promote [.covering (.group (ts.map (Token.shift 1))) 0 (q + 2)] =
      [.covering (.group ((promote ts).map (Token.shift 1))) 0 (q + 2)] :=
    (Promotes.group (.inl rfl) (promotes ts).relabel .nil).eq
  have hread := (read_eq_ok_iff hscans).mpr ⟨_, hpromote ▸ hstands.enclose, rfl⟩
  refine ⟨_, hread, ?_, ?_⟩
  · have hwidth := hscans.width_eq
    rw [Text.width_nil, Nat.zero_add] at hwidth
    exact decide_eq_true hwidth.le
  · rw [hq]
    rfl

/-- The law for a query that is nothing but malformed: a character of two bytes leaves a group open
in it, and a pin without a value is the value of a pair. -/
theorem Query.read_parenthesized_malformed : ∃ query, Query.read 1 "(b§ a:^" = .ok query ∧
    query.isFullyRead = true ∧ (∀ t ∈ query.tokens.getLast?, t.isCutOff = false) ∧
    ∃ query', Query.read 2 ("(" ++ "(b§ a:^" ++ ")") = .ok query' ∧ query'.isFullyRead = true ∧
      query'.forest = [.covering (.group [.cutOff [.covering (.word "b") 2 3] 1,
        .covering (.pair (.covering (.word "a") 6 7) (.covering .danglingPin 8 9)) 6 9]) 0 10] := by
  have hread : Query.read 1 "(b§ a:^" = .ok ⟨
      [.cutOff [.covering (.word "b") 1 2] 0, .covering (.space " ") 4 5, .covering (.word "a") 5 6,
        .covering .colon 6 7, .covering .pinMark 7 8],
      [.cutOff [.covering (.word "b") 1 2] 0,
        .covering (.pair (.covering (.word "a") 5 6) (.covering .danglingPin 7 8)) 5 8],
      0, 8, 8⟩ := by cbv
  have hlast : ∀ t ∈ [Token.cutOff [.covering (.word "b") 1 2] 0, .covering (.space " ") 4 5,
      .covering (.word "a") 5 6, .covering .colon 6 7, .covering .pinMark 7 8].getLast?,
      t.isCutOff = false := by
    rintro t ⟨⟩
    rfl
  obtain ⟨query', hread', hfull, hforest⟩ := Query.read_parenthesized hread rfl hlast
  exact ⟨_, hread, rfl, hlast, query', hread', hfull, hforest⟩

end SearchQuery
