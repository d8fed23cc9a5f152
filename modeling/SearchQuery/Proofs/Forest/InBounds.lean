import SearchQuery.Proofs.Forest.Indexed

/-!
# Reading by index stays in bounds

Reading by index comes to the same as reading what is left, function by function. Every index that
it goes on from lies behind tokens that were taken up, so that no look-up and no slice goes beyond
the tokens; and every round of a loop takes up a token at least, so that no loop goes on for more
rounds than there are tokens. One level is compared first, with the one below it taken for granted;
`CursorLevel.withRoom_agrees` goes down the levels by induction on the room.
-/

namespace SearchQuery

/-- What reading by index answers where a reader of what is left finds something or fails. -/
def answerAt (i : Nat) (result : Except Fault (Option Found)) :
    Except Halt (Advance (Option Token)) :=
  (result.map (Advance.ofFound i)).mapError .fault

@[simp] theorem answerAt_ok (i : Nat) (found? : Option Found) :
    answerAt i (.ok found?) = .ok ⟨Found.token? found?, i + Found.used found?⟩ := rfl

@[simp] theorem answerAt_error (i : Nat) (fault : Fault) :
    answerAt i (.error fault) = .error (.fault fault) := rfl

/-! ## Look-ups and slices -/

section

variable {ts tail : List Token} {t : Token} {i : Nat}

/-- Where no tokens are left, an index finds none. -/
theorem getElem?_of_drop_nil (h : ts.drop i = []) : ts[i]? = none := by
  rw [← List.head?_drop, h, List.head?_nil]

/-- An index finds the first one of the tokens that are left. -/
theorem getElem?_of_drop_cons (h : ts.drop i = t :: tail) : ts[i]? = some t := by
  rw [← List.head?_drop, h, List.head?_cons]

/-- What is left behind some more tokens. -/
theorem drop_of_drop_cons (h : ts.drop i = t :: tail) (n : Nat) :
    ts.drop (i + (n + 1)) = tail.drop n := by
  rw [← List.drop_drop, h, List.drop_succ_cons]

/-- What is left behind the first one of the tokens that are left. -/
theorem drop_succ_of_drop_cons (h : ts.drop i = t :: tail) : ts.drop (i + 1) = tail :=
  drop_of_drop_cons h 0

/-- What is left has its place in the whole. -/
theorem length_of_drop_cons (h : ts.drop i = t :: tail) : ts.length = i + (tail.length + 1) := by
  have := congrArg List.length h
  simp only [List.length_drop, List.length_cons] at this
  omega

/-- A token that is left may be looked up. -/
theorem tokenAt_of_drop_cons (h : ts.drop i = t :: tail) : tokenAt ts i = .ok t := by
  rw [tokenAt, getElem?_of_drop_cons h]

/-- A slice of what is left is in bounds. -/
theorem slice_of_drop_cons (h : ts.drop i = t :: tail) {n : Nat} (hn : n ≤ tail.length) :
    slice ts i (i + (n + 1)) = .ok (t :: tail.take n) := by
  have := length_of_drop_cons h
  rw [slice, if_pos (by omega), Nat.add_sub_cancel_left, h, List.take_succ_cons]

/-- All that is left is in bounds. -/
theorem slice_length (h : ts.drop i = t :: tail) : slice ts i ts.length = .ok (t :: tail) := by
  rw [length_of_drop_cons h, slice_of_drop_cons h le_rfl, List.take_length]

/-- A slice of what is left covers a stretch of text. -/
theorem spanAt_of_drop_cons (h : ts.drop i = t :: tail) {n : Nat} (hn : n ≤ tail.length) :
    spanAt ts i (i + (n + 1)) = .ok (Span.over t (tail.take n)) := by
  rw [spanAt, slice_of_drop_cons h hn]
  rfl

end

/-! ## Sequences -/

/-- The units from an index on are those of the tokens that are left, in a round for each of these
tokens at most. -/
theorem sequenceAt_eq {unit : CursorReader} {read : Reader} {ts : List Token}
    (hunit : ∀ i, unit ts i = answerAt i (read (ts.drop i))) {rounds i : Nat}
    (h : ts.length ≤ i + rounds) :
    sequenceAt unit ts rounds i = (sequence read (ts.drop i)).mapError .fault := by
  induction rounds generalizing i with
  | zero =>
    rw [Nat.add_zero] at h
    rw [sequenceAt, if_neg (Nat.not_lt.mpr h), List.drop_eq_nil_of_le h, sequence]
    rfl
  | succ rounds ih =>
    rw [sequenceAt]
    cases hts : ts.drop i with
    | nil =>
      rw [getElem?_of_drop_nil hts, sequence]
      rfl
    | cons t tail =>
      rw [getElem?_of_drop_cons hts, sequence]
      dsimp only
      split
      · rw [ih (by omega), drop_succ_of_drop_cons hts]
      · rw [hunit, hts]
        cases read (t :: tail) with
        | error fault => rfl
        | ok found? =>
          cases found? with
          | none => rfl
          | some found =>
            have hothers := ih (i := i + (found.further + 1)) (by omega)
            rw [drop_of_drop_cons hts] at hothers
            simp only [answerAt_ok, bind, Except.bind, Found.token?, Option.map_some,
              Found.used_some, hothers]
            cases sequence read (tail.drop found.further) <;> rfl

/-! ## Values and lists -/

/-- Only in front of blanks and at the end does a list take up no tokens. -/
theorem Stands.isSpace_of_items {room : Nat} {raw out rest : List Token}
    (h : Stands room .items raw out rest) (hraw : raw = []) :
    ∀ u ∈ rest.head?, u.isSpace = true := by
  cases h with
  | last _ hspace => exact hspace
  | more => simp at hraw

/-- A value is known by the position of its first token. -/
theorem Stands.index_eq {room : Nat} {v t : Token} {others rest : List Token}
    (h : Stands room .value (t :: others) [v] rest) : v.index = t.index := by
  cases h <;> rfl

/-- No value is a bound that was left out. -/
theorem Stands.isUnbounded_eq_false {room : Nat} {v : Token} {raw rest : List Token}
    (h : Stands room .value raw [v] rest) : v.isUnbounded = false := by
  cases h with
  | fragment hv | whole hv =>
    obtain ⟨kind, index, span, flagged⟩ := v
    cases kind <;> first | rfl | cases hv
  | pattern => rfl
  | group hkind => rcases hkind with rfl | rfl <;> rfl

namespace CursorLevel

/-- On a level with some room, units are read by index as they are read from what is left. -/
def Agrees (limit room : Nat) : Prop :=
  ∀ ts i, (withRoom limit room).unit ts i =
    answerAt i ((Level.withRoom limit room).unit (ts.drop i))

/-! ## One level -/

/-- The fragments at an index are those that the first one of them starts. -/
theorem fragments_eq {ts tail : List Token} {t : Token} {i : Nat} (h : ts.drop i = t :: tail)
    (ht : t.isFragment = true) :
    fragments t ts i = answerAt i (.ok (some (.ofFragments t tail))) := by
  have hrun : ((t :: tail).takeWhile Token.isFragment).length =
      (tail.takeWhile Token.isFragment).length + 1 := by
    rw [List.takeWhile_cons_of_pos ht, List.length_cons]
  have hlast : ∀ others : List Token,
      tokenAt (t :: others) others.length = .ok (others.getLast?.getD t) := by
    intro others
    have := @List.getLast?_eq_getElem? _ (t :: others)
    rw [List.getLast?_cons, List.length_cons, Nat.add_sub_cancel] at this
    rw [tokenAt, ← this]
  have hle := (List.takeWhile_sublist (p := Token.isFragment) (l := tail)).length_le
  simp only [fragments, slice_length h, bind, Except.bind, hrun, slice_of_drop_cons h hle,
    take_length_takeWhile, Nat.add_sub_cancel, hlast]
  cases hothers : tail.takeWhile Token.isFragment with
  | nil => simp [Found.ofFragments, hothers, Found.token?]
  | cons u us => simp [Found.ofFragments, hothers, Found.token?, Span.over]

section

variable {limit room : Nat} (hdeeper : ∀ r, room = r + 1 → Agrees limit r)

include hdeeper

/-- A group at an index is read as it is in front of what is left. -/
theorem readGroup_eq (t : Token) (items : List Token) (kind : List Token → Kind Token) (i : Nat) :
    (withRoom limit room).readGroup t items kind i =
      answerAt i ((Level.withRoom limit room).readGroup t items kind) := by
  cases room with
  | zero => rfl
  | succ r =>
    have hforest := sequenceAt_eq (fun i => hdeeper r rfl items i) (Nat.le_add_left items.length 0)
    rw [List.drop_zero] at hforest
    simp only [readGroup, Level.readGroup, enter, Level.enter, withRoom, Level.withRoom, bind,
      Except.bind, hforest]
    cases sequence (Level.withRoom limit r).unit items <;> rfl

/-- The value at an index is the one in front of what is left. -/
theorem value_eq (ts : List Token) (i : Nat) :
    (withRoom limit room).value ts i =
      answerAt i ((Level.withRoom limit room).value (ts.drop i)) := by
  cases hts : ts.drop i with
  | nil =>
    rw [value, getElem?_of_drop_nil hts]
    rfl
  | cons t tail =>
    rw [value, getElem?_of_drop_cons hts, Level.value]
    dsimp only
    split
    · next ht => exact fragments_eq hts ht
    · obtain ⟨kind, index, span, flagged⟩ := t
      cases kind with
      | group | unclosedGroup => exact readGroup_eq hdeeper _ _ _ i
      | _ => rfl

/-- The values of a list at an index are those of the list in front of what is left, in a round for
each token that is left at most. -/
theorem items_eq {ts : List Token} {rounds i : Nat} (h : ts.length ≤ i + rounds) :
    (withRoom limit room).items ts rounds i =
      (((Level.withRoom limit room).items (ts.drop i)).map fun items =>
        ⟨items.tokens, i + items.used⟩).mapError .fault := by
  induction rounds generalizing i with
  | zero =>
    rw [Nat.add_zero] at h
    rw [items, if_neg (Nat.not_lt.mpr h), List.drop_eq_nil_of_le h, Level.items]
    rfl
  | succ rounds ih =>
    rw [items]
    split
    · rw [value_eq hdeeper, Level.items_eq_bind]
      cases (Level.withRoom limit room).value (ts.drop i) with
      | error fault => rfl
      | ok found? =>
        have hdrop := List.drop_drop (i := Found.used found?) (j := i) (l := ts)
        simp only [answerAt_ok, bind, Except.bind]
        cases hrest : (ts.drop i).drop (Found.used found?) with
        | nil =>
          rw [getElem?_of_drop_nil (hdrop.symm.trans hrest)]
          rfl
        | cons next rest =>
          have hnext := hdrop.symm.trans hrest
          have hothers := ih (i := i + Found.used found? + 1) (by omega)
          rw [drop_succ_of_drop_cons hnext] at hothers
          rw [getElem?_of_drop_cons hnext]
          dsimp only
          split
          · rfl
          · split
            · rw [hothers]
              cases (Level.withRoom limit room).items rest with
              | error fault => rfl
              | ok others => simp [Except.map, Except.mapError, Nat.add_assoc]
            · rfl
    · next hi =>
      rw [List.drop_eq_nil_of_le (Nat.not_lt.mp hi), Level.items]
      rfl

/-- A list at an index is the one in front of what is left. -/
theorem list_eq {ts tail : List Token} {t : Token} {i : Nat} (h : ts.drop i = t :: tail)
    (ht : t.isSpace = false) :
    (withRoom limit room).list t.index ts i =
      answerAt i ((Level.withRoom limit room).list t tail) := by
  simp only [list, Level.list, items_eq hdeeper (Nat.le_add_left ts.length i), h]
  cases hitems : (Level.withRoom limit room).items (t :: tail) with
  | error fault => rfl
  | ok items =>
    obtain ⟨raw, rest, hsplit, hused, hstands⟩ :=
      Level.items_accounted (fun r _ => Level.withRoom_accounted limit r) hitems
    -- The list takes up the token in front, as only a blank would end it there.
    obtain ⟨others, rfl⟩ : ∃ others, raw = t :: others := by
      cases raw with
      | nil =>
        obtain rfl : t :: tail = rest := hsplit
        rw [hstands.isSpace_of_items rfl t rfl] at ht
        cases ht
      | cons u others => exact ⟨others, by rw [(List.cons.inj hsplit).1]⟩
    have hle : others.length ≤ tail.length := by
      rw [List.cons_append] at hsplit
      rw [(List.cons.inj hsplit).2, List.length_append]
      exact Nat.le_add_right ..
    rw [List.length_cons] at hused
    simp only [Except.map, Except.mapError, bind, Except.bind, hused, spanAt_of_drop_cons h hle,
      Nat.add_sub_cancel, answerAt_ok, Found.token?, Option.map_some, Found.used_some]

/-- A comparison at an index is the one in front of what is left. -/
theorem comparison_eq {ts tail : List Token} {op : Comparator} {t : Token} {i : Nat}
    (h : ts.drop i = t :: tail) :
    (withRoom limit room).comparison op t ts i =
      answerAt i ((Level.withRoom limit room).comparison op t tail) := by
  have hvalue := value_eq hdeeper ts (i + 1)
  rw [drop_succ_of_drop_cons h] at hvalue
  simp only [comparison, Level.comparison, hvalue]
  cases (Level.withRoom limit room).value tail with
  | error fault => rfl
  | ok found? =>
    simp only [answerAt_ok, bind, Except.bind, Found.stop?_eq, Found.token?, Option.map_some,
      Found.used_some, Nat.add_assoc, Nat.add_comm 1]

/-- A bound is left out at an index, or is the value there. -/
theorem upperBound_cases {ts tail : List Token} {i : Nat} (h : ts.drop i = tail) :
    (boundFollows ts i = false ∧ (Level.withRoom limit room).upperBound tail = .ok .omitted) ∨
      boundFollows ts i = true ∧
        (withRoom limit room).value ts i =
          answerAt i ((Level.withRoom limit room).value tail) ∧
        (Level.withRoom limit room).upperBound tail =
          ((Level.withRoom limit room).value tail).map .written := by
  have hvalue := value_eq hdeeper ts i
  rw [h] at hvalue
  cases tail with
  | nil => exact .inl ⟨by rw [boundFollows, getElem?_of_drop_nil h, Option.any_none], rfl⟩
  | cons u us =>
    rw [boundFollows, getElem?_of_drop_cons h, Option.any_some, Level.upperBound]
    cases u.isSpace with
    | true => exact .inl ⟨rfl, rfl⟩
    | false => exact .inr ⟨rfl, hvalue, rfl⟩

/-- A range without a lower bound at an index is the one in front of what is left. -/
theorem openRange_eq {ts tail : List Token} {dots : Token} {i : Nat}
    (h : ts.drop i = dots :: tail) :
    (withRoom limit room).openRange dots ts i =
      answerAt i ((Level.withRoom limit room).openRange dots tail) := by
  rcases upperBound_cases hdeeper (drop_succ_of_drop_cons h) with
    ⟨hbound, hupper⟩ | ⟨hbound, hvalue, hupper⟩
  · simp only [openRange, hbound, Level.openRange, hupper]
    rfl
  · simp only [openRange, hbound, hvalue, Level.openRange, hupper]
    cases (Level.withRoom limit room).value tail with
    | error fault => rfl
    | ok found? =>
      simp [bind, Except.bind, Except.map, Found.stop?_eq, Found.token?, UpperBound.token?,
        UpperBound.stop?, UpperBound.used, UpperBound.isOmitted, Nat.add_assoc, Nat.add_comm 1]

/-- A range with a lower bound that was found at an index goes on at the dots behind it. -/
theorem rangeFrom_eq {ts tail : List Token} {lower : Found} {dots : Token} {i : Nat}
    (h : ts.drop (i + (lower.further + 1)) = dots :: tail) :
    (withRoom limit room).rangeFrom lower.token ts (i + (lower.further + 1)) =
      answerAt i ((Level.withRoom limit room).rangeFrom lower dots tail) := by
  rcases upperBound_cases hdeeper (drop_succ_of_drop_cons h) with
    ⟨hbound, hupper⟩ | ⟨hbound, hvalue, hupper⟩
  · simp only [rangeFrom, tokenAt_of_drop_cons h, hbound, Level.rangeFrom, hupper]
    rfl
  · simp only [rangeFrom, tokenAt_of_drop_cons h, hbound, hvalue, Level.rangeFrom, hupper]
    cases hread : (Level.withRoom limit room).value tail with
    | error fault => rfl
    | ok found? =>
      obtain ⟨raw, rest, -, -, hstands⟩ :=
        Level.value_accounted (fun r _ => Level.withRoom_accounted limit r) hread
      cases found? with
      | none => rfl
      | some found =>
        have hfound : found.token.isUnbounded = false := hstands.isUnbounded_eq_false
        have hcursor : i + (lower.further + 1) + 1 + (found.further + 1) =
            i + (lower.further + 1 + (found.further + 1) + 1) := by omega
        simp [bind, Except.bind, Except.map, Found.stop?, Found.token?, UpperBound.token?,
          UpperBound.stop?, UpperBound.used, hfound, hcursor]

/-- An operand at an index is the one in front of what is left. -/
theorem operand_eq {ts tail : List Token} {t : Token} {i : Nat} (h : ts.drop i = t :: tail) :
    (withRoom limit room).operand ts i =
      answerAt i ((Level.withRoom limit room).operand t tail) := by
  simp only [operand, value_eq hdeeper, h, Level.operand]
  cases hread : (Level.withRoom limit room).value (t :: tail) with
  | error fault => rfl
  | ok found? =>
    cases found? with
    | none => rfl
    | some found =>
      obtain ⟨raw, rest, hsplit, hused, hstands⟩ :=
        Level.value_accounted (fun r _ => Level.withRoom_accounted limit r) hread
      obtain ⟨t', others, rfl, hstarts, -⟩ := hstands.value_cons
      obtain ⟨rfl, -⟩ := List.cons.inj hsplit
      have hindex : found.token.index = t.index := hstands.index_eq
      have hnext := drop_of_drop_cons h found.further
      simp only [answerAt_ok, bind, Except.bind, Found.token?, Option.map_some, Found.used_some]
      cases hrest : tail.drop found.further with
      | nil =>
        rw [hrest] at hnext
        simp [getElem?_of_drop_nil hnext, Found.token?]
      | cons next rest =>
        rw [hrest] at hnext
        rw [getElem?_of_drop_cons hnext, Option.any_some, Option.any_some]
        dsimp only
        split
        · next hdots =>
          rw [Token.isDots_iff.mp hdots]
          exact rangeFrom_eq hdeeper hnext
        · next hdots =>
          split
          · next hcomma =>
            rw [Token.isComma_iff.mp hcomma, hindex]
            exact list_eq hdeeper h (Token.isSpace_of_startsValue hstarts)
          · next hcomma =>
            split
            · next hkind => exact absurd (Token.isDots_iff.mpr hkind) hdots
            · next hkind => exact absurd (Token.isComma_iff.mpr hkind) hcomma
            · rfl

/-- A pair whose key may stand at an index goes on behind its colon. -/
theorem pair_eq {ts tail : List Token} {key? : Option Token} {colon : Token} {i j : Nat}
    (h : ts.drop j = tail) (hj : j = i + (key?.toList.length + 1)) :
    (withRoom limit room).pair key? colon ts j =
      answerAt i ((Level.withRoom limit room).pair key? colon tail) := by
  cases room with
  | zero => rfl
  | succ r =>
    have hunit := hdeeper r rfl ts j
    rw [h] at hunit
    simp only [pair, Level.pair, enter, Level.enter, withRoom, Level.withRoom, bind, Except.bind,
      hunit]
    cases (Level.withRoom limit r).unit tail with
    | error fault => rfl
    | ok found? =>
      have hcursor : j + Found.used found? =
          i + (key?.toList.length + Found.used found? + 1) := by omega
      simp [Found.stop?_eq, Found.token?, hcursor]

/-- A unit at an index is the one in front of what is left. -/
theorem unit_eq : Agrees limit room := by
  intro ts i
  cases hts : ts.drop i with
  | nil =>
    rw [unit, getElem?_of_drop_nil hts]
    rfl
  | cons t tail =>
    have hnext := drop_succ_of_drop_cons hts
    rw [unit, getElem?_of_drop_cons hts]
    obtain ⟨kind, index, span, flagged⟩ := t
    cases kind with
    | and | or | not => rfl
    | group | unclosedGroup => exact readGroup_eq hdeeper _ _ _ i
    | comparator => exact comparison_eq hdeeper hts
    | dots => exact openRange_eq hdeeper hts
    | colon => exact pair_eq hdeeper hnext rfl
    | comma => exact list_eq hdeeper hts rfl
    | word | quoted =>
      cases tail with
      | nil =>
        simp only [getElem?_of_drop_nil hnext, Option.any_none]
        exact operand_eq hdeeper hts
      | cons u us =>
        simp only [getElem?_of_drop_cons hnext, Option.any_some, tokenAt_of_drop_cons hnext,
          Level.unit]
        split
        · exact pair_eq hdeeper (drop_of_drop_cons hts 1) rfl
        · exact operand_eq hdeeper hts
    | _ => exact operand_eq hdeeper hts

end

/-! ## All levels -/

/-- With any room, units are read by index as they are read from what is left. -/
theorem withRoom_agrees (limit room : Nat) : Agrees limit room := by
  induction room with
  | zero => exact unit_eq nofun
  | succ room ih =>
    refine unit_eq ?_
    rintro r ⟨⟩
    exact ih

/-- Reading by index comes to the same as reading what is left: neither goes it out of bounds nor
does a loop of it need more rounds than there are tokens. -/
theorem outermost_reads (limit : Nat) (ts : List Token) :
    sequenceAt (outermost limit).unit ts ts.length 0 = (forestOf limit ts).mapError .fault ∧
      ∀ i,
        (outermost limit).unit ts i = (unitAt limit ts i).mapError .fault ∧
        (outermost limit).value ts i = (valueAt limit ts i).mapError .fault ∧
        (outermost limit).items ts ts.length i = (itemsAt limit ts i).mapError .fault := by
  have hdeeper : ∀ r, limit = r + 1 → Agrees limit r := fun r _ => withRoom_agrees limit r
  refine ⟨?_, fun i => ⟨withRoom_agrees limit limit ts i, value_eq hdeeper ts i, ?_⟩⟩
  · exact sequenceAt_eq (withRoom_agrees limit limit ts) (Nat.le_add_left ts.length 0)
  · exact items_eq hdeeper (Nat.le_add_left ts.length i)

end CursorLevel

end SearchQuery
