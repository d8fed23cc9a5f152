import SearchQuery.Proofs.Grammar
import SearchQuery.Proofs.Scan.Respacing
import SearchQuery.Proofs.Scan.Tiling

/-!
# Queries with other blanks

What is made of tokens depends on their outlines only: whether there is room for them, and their
forest or their fault, up to where that lies (`Query.read_of_outline_eq`). There are no blanks left
in a forest, so that its outline is all of it but the positions (`Token.outline_eq_bare`). Other
blanks in the place of those that make a token leave outlines as they are (`Scans.respace`), and so
they make no difference to what a query is read as (`Query.read_respaced`).
-/

namespace SearchQuery

open Text (width isBlank)

/-! ## Outlines -/

/-- The same fault without where it was found. -/
def Fault.unplaced (fault : Fault) : Fault := fault.recast fun _ => none

/-- A kind with parts that are as good as their outlines is as good as its own one. -/
theorem Kind.recast_eq_bare {kind : Kind Token} (hspace : ∀ run, kind ≠ .space run)
    (hparts : ∀ p ∈ kind.parts, p.outline = p.bare) :
    kind.recast (fun _ => none) (fun _ => "") = kind.bare := by
  have hoption : ∀ {t? : Option Token}, (∀ t ∈ t?, t.outline = t.bare) →
      recastOption (fun _ => none) (fun _ => "") t? = bareOption t? := by
    intro t? h
    cases t? with
    | none => rfl
    | some t => exact congrArg some (h t rfl)
  cases kind with
  | space run => exact absurd rfl (hspace run)
  | group items | unclosedGroup items | list items | pattern items =>
    rw [recast, bare, recastAll_eq_map, bareAll_eq_map]
    exact congrArg _ (List.map_congr_left hparts)
  | pin value | comparison op value =>
    rw [recast, bare, hoption fun t ht => hparts t (Option.mem_toList.mpr ht)]
  | range lower upper =>
    rw [recast, bare, hoption fun t ht => hparts t (.tail _ (Option.mem_toList.mpr ht))]
    exact congrArg (range · _) (hparts lower (.head _))
  | pair key value =>
    exact congrArg₂ pair (hparts key (.head _)) (hparts value (.tail _ (.head _)))
  | unfinishedPair key value =>
    obtain ⟨hkey, hvalue⟩ := List.forall_mem_append.mp hparts
    rw [recast, bare, hoption fun t ht => hkey t (Option.mem_toList.mpr ht),
      hoption fun t ht => hvalue t (Option.mem_toList.mpr ht)]
  | _ => rfl

/-- The outline of a token without blanks is all of it but the positions. -/
theorem Token.outline_eq_bare {t : Token} (h : ∀ u ∈ t.preorder, u.isSpace = false) :
    t.outline = t.bare := by
  induction t using Token.induct with
  | step t ih =>
    have hself := h t t.mem_preorder_self
    have hparts : ∀ p ∈ t.kind.parts, p.outline = p.bare :=
      fun p hp => ih p hp fun u hu => h u (mem_preorder_of_part hp hu)
    obtain ⟨kind, index, span, flagged⟩ := t
    have hkind : kind.recast (fun _ => none) (fun _ => "") = kind.bare := by
      refine Kind.recast_eq_bare ?_ hparts
      rintro run rfl
      cases hself
    simp only [outline, recast, bare, hkind, Span.relabel, Option.bind_fun_none]

/-- There is room for the outlines of tokens just where there is room for the tokens. -/
theorem overflowAll?_outline {room : Nat} {ts : List Token}
    (h : ∀ t ∈ preorderAll ts, t.index.isSome = true) :
    overflowAll? room (ts.map Token.outline) = (overflowAll? room ts).map fun _ => 0 :=
  overflowAll?_recast h

/-- Outlines are promoted to the outlines of what the tokens are promoted to. -/
theorem promote_outline (ts : List Token) :
    promote (ts.map Token.outline) = (promote ts).map Token.outline := promote_recast ts

/-- The forest of the outlines of tokens is the outline of their forest. -/
theorem forestOf_map_outline {limit : Nat} {ts : List Token}
    (h : ∀ t ∈ preorderAll ts, t.index.isSome = true) :
    forestOf limit (ts.map Token.outline) =
      match forestOf limit ts with
      | .ok forest => .ok (forest.map Token.outline)
      | .error fault => .error fault.unplaced := forestOf_map_recast h

/-! ## Queries -/

/-- There are no blanks in the forest of a query. -/
theorem Query.isSpace_eq_false {limit : Nat} {text : String} {query : Query}
    (h : Query.read limit text = .ok query) : ∀ t ∈ preorderAll query.forest, t.isSpace = false := by
  obtain ⟨ts, q, left, hs⟩ := exists_scans 0 text.toList
  obtain ⟨forest, hstands, rfl⟩ := (read_eq_ok_iff hs).mp h
  intro x hx
  obtain ⟨t, ht, hx⟩ := mem_preorderAll_iff.mp hx
  have hpunctuation := ((hstands.grammatical hs.recognized t ht).inside x hx).1
  rw [Bool.eq_false_iff]
  intro hspace
  rw [Token.isPunctuation_eq_true (.inl hspace)] at hpunctuation
  cases hpunctuation

/-- So its outline is all of it but the positions. -/
theorem Query.map_outline_eq_bareAll {limit : Nat} {text : String} {query : Query}
    (h : Query.read limit text = .ok query) :
    query.forest.map Token.outline = bareAll query.forest := by
  rw [bareAll_eq_map]
  refine List.map_congr_left ?_
  intro t ht
  refine Token.outline_eq_bare ?_
  exact fun u hu => isSpace_eq_false h u (mem_preorderAll_iff.mpr ⟨t, ht, hu⟩)

/-- Two queries whose tokens have the same outlines are both read, and their forests have the same
outlines, or both are refused for the same reason. -/
theorem Query.read_of_outline_eq {q q' : Nat} {text text' : String} {ts ts' : List Token}
    {left left' : List Char} (hs : Scans 0 text.toList ts q left)
    (hs' : Scans 0 text'.toList ts' q' left') (h : ts'.map Token.outline = ts.map Token.outline)
    (limit : Nat) :
    (∃ query query', Query.read limit text = .ok query ∧ Query.read limit text' = .ok query' ∧
      query'.forest.map Token.outline = query.forest.map Token.outline ∧
      query.stop = q ∧ query'.stop = q') ∨
    ∃ fault fault', Query.read limit text = .error fault ∧ Query.read limit text' = .error fault' ∧
      fault'.unplaced = fault.unplaced := by
  have hroom : (overflowAll? limit ts').map (fun _ => 0) =
      (overflowAll? limit ts).map (fun _ => 0) := by
    rw [← overflowAll?_outline hs'.index_isSome, ← overflowAll?_outline hs.index_isSome, h]
  have hindex : ∀ {q : Nat} {cs left : List Char} {ts : List Token}, Scans 0 cs ts q left →
      ∀ t ∈ preorderAll (promote ts), t.index.isSome = true :=
    fun hs => (promotes _).index_isSome fun t ht => ⟨hs.isRaw t ht, hs.index_isSome t ht⟩
  have hforest : forestOf limit ((promote ts').map Token.outline) =
      forestOf limit ((promote ts).map Token.outline) := by
    rw [← promote_outline, ← promote_outline, h]
  rw [forestOf_map_outline (hindex hs'), forestOf_map_outline (hindex hs)] at hforest
  rw [read_of_scans hs, read_of_scans hs']
  cases ho : overflowAll? limit ts with
  | some offset =>
    cases ho' : overflowAll? limit ts' with
    | none =>
      rw [ho, ho'] at hroom
      cases hroom
    | some offset' => exact .inr ⟨_, _, rfl, rfl, rfl⟩
  | none =>
    cases ho' : overflowAll? limit ts' with
    | some offset' =>
      rw [ho, ho'] at hroom
      cases hroom
    | none =>
      cases hread : forestOf limit (promote ts) <;> cases hread' : forestOf limit (promote ts') <;>
        rw [hread, hread'] at hforest
      case ok.ok => exact .inl ⟨_, _, rfl, rfl, Except.ok.inj hforest, rfl, rfl⟩
      case error.error => exact .inr ⟨_, _, rfl, rfl, Except.error.inj hforest⟩
      all_goals cases hforest

/-- A token of blanks covers at least one character, and none that is not blank. -/
theorem Token.Spelled.blanks {limit : Nat} {text : String} {t : Token} {a b w : List Char}
    (h : t.Spelled limit text) (hspace : t.isSpace = true) (htext : text.toList = a ++ (w ++ b))
    (hspan : t.span = ⟨some (width a), some (width a + width w)⟩) : Blanks w := by
  cases h with
  | space hstretch hne hall =>
    obtain ⟨rest, hrest, rfl⟩ := hstretch
    simp only [covering, Span.mk.injEq, Option.some.injEq] at hspan
    obtain ⟨rfl, hwidth⟩ := hspan
    rw [htext, Text.suffixAt?_width] at hrest
    obtain ⟨rfl, -⟩ := Text.append_inj_of_width_eq (Option.some.inj hrest) (by omega)
    exact ⟨by simpa using hne, hall⟩
  | @sign kind _ _ _ hs => cases kind <;> first | cases hs; done | cases hspace
  | _ => cases hspace

/-- Which blanks are written does not matter. Where a text is scanned, and some stretch of it makes
a token of blanks, in a group or not, any other blanks may stand in its place. Whatever the limit
is, both texts are read, with the same forest up to positions, and reading stops as much further on
as the other blanks are longer; or both are refused for the same reason. -/
theorem Query.read_respaced {limit' : Nat} {a w b w' : String} {scan : Scan} {t : Token}
    (hscan : Scan.ofText limit' (a ++ w ++ b) = .ok scan) (ht : t ∈ preorderAll scan.tokens)
    (hspace : t.isSpace = true)
    (hspan : t.span = ⟨some (width a.toList), some (width a.toList + width w.toList)⟩)
    (hne : w' ≠ "") (hblank : ∀ c ∈ w'.toList, isBlank c = true) (limit : Nat) :
    (∃ query query', Query.read limit (a ++ w ++ b) = .ok query ∧
      Query.read limit (a ++ w' ++ b) = .ok query' ∧
      bareAll query'.forest = bareAll query.forest ∧
      query'.stop + width w.toList = query.stop + width w'.toList) ∨
    ∃ fault fault', Query.read limit (a ++ w ++ b) = .error fault ∧
      Query.read limit (a ++ w' ++ b) = .error fault' ∧ fault'.unplaced = fault.unplaced := by
  rw [Scan.ofText_eq] at hscan
  obtain ⟨left, hs, -, -⟩ := Scan.exists_scans_of_ofChars hscan
  have htext : ∀ w : String, (a ++ w ++ b).toList = a.toList ++ (w.toList ++ b.toList) := by simp
  have hw' : Blanks w'.toList := ⟨by simpa using hne, hblank⟩
  have hspelled : t.Spelled limit' _ := (hs.tiles (Text.suffixAt?_zero _)).2 t ht
  have hw : Blanks w.toList := hspelled.blanks hspace (htext w) hspan
  obtain ⟨ts', q', hs', hts⟩ := hs.respace (htext w) ht hspace (by simpa using hspan) hw hw'
  rw [← htext w'] at hs'
  rcases read_of_outline_eq hs hs' hts limit with
    ⟨query, query', hread, hread', hforest, hstop, hstop'⟩ | hfault
  · refine .inl ⟨query, query', hread, hread', ?_, ?_⟩
    · rw [← map_outline_eq_bareAll hread', hforest, map_outline_eq_bareAll hread]
    · have hwidth := hs.width_eq
      have hwidth' := hs'.width_eq
      rw [htext] at hwidth hwidth'
      simp only [Text.width_append] at hwidth hwidth'
      omega
  · exact .inr hfault

/-- The law for a wide blank with a line end in the place of one in a group that a character of two
bytes leaves open. The pair behind it is read under a limit of two levels, and refused under one. -/
theorem Query.read_respaced_inside :
    (∃ scan, ∃ t ∈ preorderAll scan.tokens, Scan.ofText 1 ("(" ++ " " ++ "a:b§c") = .ok scan ∧
      t.isSpace = true ∧ t.span = ⟨some 1, some 2⟩) ∧
    "\u2003\n" ≠ "" ∧ (∀ c ∈ "\u2003\n".toList, isBlank c = true) ∧
    (∃ query query', Query.read 2 ("(" ++ " " ++ "a:b§c") = .ok query ∧
      Query.read 2 ("(" ++ "\u2003\n" ++ "a:b§c") = .ok query' ∧
      bareAll query'.forest = bareAll query.forest ∧ query.stop = 8 ∧ query'.stop = 11) ∧
    ∃ fault', Query.read 1 ("(" ++ " " ++ "a:b§c") = .error (.tooDeep 3 1) ∧
      Query.read 1 ("(" ++ "\u2003\n" ++ "a:b§c") = .error fault' ∧
      fault'.unplaced = .tooDeep 0 1 := by
  have hscan : Scan.ofText 1 ("(" ++ " " ++ "a:b§c") = .ok ⟨0, 8,
      [.cutOff [.covering (.space " ") 1 2, .covering (.word "a") 2 3, .covering .colon 3 4,
        .covering (.word "b") 4 5] 0, .covering (.word "c") 7 8]⟩ := by cbv
  have hread : Query.read 2 ("(" ++ " " ++ "a:b§c") = .ok ⟨
      [.cutOff [.covering (.space " ") 1 2, .covering (.word "a") 2 3, .covering .colon 3 4,
        .covering (.word "b") 4 5] 0, .covering (.word "c") 7 8],
      [.cutOff [.covering (.pair (.covering (.word "a") 2 3) (.covering (.word "b") 4 5)) 2 5] 0,
        .covering (.word "c") 7 8], 0, 8, 8⟩ := by cbv
  have hfault : Query.read 1 ("(" ++ " " ++ "a:b§c") = .error (.tooDeep 3 1) := by cbv
  have hmem : Token.covering (.space " ") 1 2 ∈ preorderAll
      [.cutOff [.covering (.space " ") 1 2, .covering (.word "a") 2 3, .covering .colon 3 4,
        .covering (.word "b") 4 5] 0, .covering (.word "c") 7 8] := .tail _ (.head _)
  have hne : "\u2003\n" ≠ "" := by decide
  have hblank : ∀ c ∈ "\u2003\n".toList, isBlank c = true := List.all_eq_true.mp (by cbv)
  have hlaw := Query.read_respaced hscan hmem rfl rfl hne hblank
  refine ⟨⟨_, _, hmem, hscan, rfl, rfl⟩, hne, hblank, ?_, ?_⟩
  · rcases hlaw 2 with ⟨query, query', hquery, hquery', hforest, hstop⟩ | ⟨_, _, h, -⟩
    · rw [hread] at hquery
      cases hquery
      have hwidth : width " ".toList = 1 ∧ width "\u2003\n".toList = 4 := by decide
      refine ⟨_, query', hread, hquery', hforest, rfl, ?_⟩
      dsimp only at hstop
      omega
    · rw [hread] at h
      cases h
  · rcases hlaw 1 with ⟨_, _, h, -⟩ | ⟨fault, fault', h, hfault', hsame⟩
    · rw [hfault] at h
      cases h
    · rw [hfault] at h
      cases h
      exact ⟨fault', hfault, hfault', hsame⟩

end SearchQuery
