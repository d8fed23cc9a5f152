import Mathlib.Data.List.Forall2
import Mathlib.Data.List.ReduceOption
import SearchQuery.Proofs.Forest.Cursor

/-!
# Lists by their commas

A list is exactly its segments. The tokens from a cursor up to the next run of blanks are cut at the
commas among them (`segmentsAt`). Each segment is read on its own: an empty one holds no value, and
any other one has to be a single value from its first token to its last (`Segment.Reads`). If all of
them are read, the values make up the list, which ends where the last segment does. Otherwise the
first one that is not read says what is wrong with the list. `itemsAt_iff` states both.
-/

namespace SearchQuery

/-- Some tokens of a list that stand side by side without a comma, and the cursor they start at. -/
structure Segment where
  start : Nat
  tokens : List Token

/-- The cursor behind a segment. -/
def Segment.stop (s : Segment) : Nat := s.start + s.tokens.length

/-- Segments one behind the other from a cursor on, with a comma behind each but the last. -/
def segmentsFrom : Nat → List (List Token) → List Segment
  | _, [] => []
  | start, seg :: segs => ⟨start, seg⟩ :: segmentsFrom (start + seg.length + 1) segs

/-- The tokens from a cursor up to the next run of blanks. -/
def unspacedAt (ts : List Token) (cursor : Nat) : List Token :=
  (ts.drop cursor).takeWhile fun t => !t.isSpace

/-- The segments of the list at a cursor. -/
def segmentsAt (ts : List Token) (cursor : Nat) : List Segment :=
  segmentsFrom cursor ((unspacedAt ts cursor).splitOnP Token.isComma)

/-- What reading a segment of some tokens comes to: a value or none, or a fault. -/
inductive Segment.Reads (limit : Nat) (ts : List Token) (s : Segment) :
    Except Fault (Option Token) → Prop
  | empty : s.tokens = [] → s.Reads limit ts (.ok none)
  | value {v : Token} : s.tokens ≠ [] → valueAt limit ts s.start = .ok ⟨some v, s.stop⟩ →
      s.Reads limit ts (.ok (some v))
  /-- The value at the start of the segment cannot be read. -/
  | fault {fault : Fault} : s.tokens ≠ [] → valueAt limit ts s.start = .error fault →
      s.Reads limit ts (.error fault)
  /-- There is no value at the start of the segment, or it does not stop where the segment does. The
  token at which it stops is to blame. -/
  | unterminated {found : Advance (Option Token)} {t : Token} : s.tokens ≠ [] →
      valueAt limit ts s.start = .ok found → ¬ (found.value.isSome = true ∧ found.cursor = s.stop) →
      ts[found.cursor]? = some t →
      s.Reads limit ts (.error (.unterminatedList t.kind.name t.offset))

/-- A segment is read in one way only. -/
theorem Segment.Reads.unique {limit : Nat} {ts : List Token} {s : Segment}
    {outcome outcome' : Except Fault (Option Token)} (h : s.Reads limit ts outcome)
    (h' : s.Reads limit ts outcome') : outcome = outcome' := by
  cases h <;> cases h' <;> grind

/-! ## Reading the segments one by one -/

section

variable {limit cursor : Nat} {ts : List Token}

/-- The value at a cursor is what the tokens there stand for. -/
theorem valueAt_of_stands {v? : Option Token} {raw rest : List Token}
    (hdrop : ts.drop cursor = raw ++ rest) (hv : Stands limit .value raw v?.toList rest) :
    valueAt limit ts cursor = .ok ⟨v?, cursor + raw.length⟩ := by
  simpa using (valueAt_readsAt limit cursor).of_stands hdrop hv

/-- A value stops in front of every token that no value could start with. -/
theorem Stands.exists_of_append_eq {v? : Option Token} {seg rest raw rest' : List Token}
    (hv : Stands limit .value raw v?.toList rest') (hsplit : seg ++ rest = raw ++ rest')
    (hrest : ∀ u ∈ rest.head?, u.startsValue = false) :
    ∃ left, seg = raw ++ left ∧ rest' = left ++ rest := by
  rcases List.append_eq_append_iff.mp hsplit with ⟨used, rfl, rfl⟩ | hleft
  · cases used with
    | nil => exact ⟨[], by simp, rfl⟩
    | cons u used =>
      have hu := hv.startsValue u (List.mem_append_right _ (.head _))
      rw [hrest u rfl] at hu
      cases hu
  · exact hleft

/-- A segment is read as a value, if it has any tokens, that it stands for as a whole, or the list
fails in it for the reason for which the segment does. -/
theorem Segment.decided {seg rest : List Token} (hdrop : ts.drop cursor = seg ++ rest)
    (hseg : ∀ u ∈ seg, u.isSpace = false ∧ u.isComma = false)
    (hrest : ∀ u ∈ rest.head?, u.startsValue = false) :
    (∃ v? : Option Token, (⟨cursor, seg⟩ : Segment).Reads limit ts (.ok v?) ∧
        Stands limit .value seg v?.toList rest) ∨
      ∃ reason t, (⟨cursor, seg⟩ : Segment).Reads limit ts (.error (reason.fault limit t)) ∧
        Fails limit .items (seg ++ rest) reason t := by
  rcases value_stands_or_fails limit (seg ++ rest) with
    ⟨raw, out, rest', hsplit, hv⟩ | ⟨reason, t, hv⟩
  · obtain ⟨v?, rfl⟩ := hv.exists_toList (.inl rfl)
    obtain ⟨left, rfl, rfl⟩ := hv.exists_of_append_eq hsplit hrest
    have hvalue := valueAt_of_stands (hdrop.trans hsplit) hv
    cases left with
    | nil =>
      rw [List.append_nil]
      refine .inl ⟨v?, ?_, hv⟩
      cases v? with
      | none => exact .empty hv.value_nil
      | some v =>
        obtain ⟨t, others, rfl, -⟩ := hv.value_cons
        exact .value (List.cons_ne_nil t others) hvalue
    | cons u left =>
      obtain ⟨hspace, hcomma⟩ := hseg u (List.mem_append_right _ (.head _))
      refine .inr ⟨.unterminatedList, u, .unterminated (by simp) hvalue ?_ ?_, ?_⟩
      · rintro ⟨-, hstop⟩
        simp [Segment.stop] at hstop
      · rw [← List.getElem?_drop, hdrop]
        simp
      · rw [List.append_assoc]
        exact .unterminated hv hspace hcomma
  · have hfault := (valueAt_readsAt limit cursor).of_fails (hdrop ▸ hv)
    refine .inr ⟨reason, t, .fault ?_ hfault, .item hv⟩
    rintro rfl
    obtain ⟨u, others, rfl, hgroup, -⟩ := hv.value_cons
    simpa [Token.startsValue, hgroup] using hrest u rfl

/-- Either all segments of a list are read, and the tokens of the list stand for their values, or
the list fails in the first segment that is not. -/
theorem segments_decided {body tail : List Token} (hdrop : ts.drop cursor = body ++ tail)
    (hbody : ∀ u ∈ body, u.isSpace = false) (htail : ∀ u ∈ tail.head?, u.isSpace = true) :
    (∃ values, List.Forall₂ (fun s v? => s.Reads limit ts (.ok v?))
          (segmentsFrom cursor (body.splitOnP Token.isComma)) values ∧
        Stands limit .items body values.reduceOption tail) ∨
      ∃ front s back reason t,
        segmentsFrom cursor (body.splitOnP Token.isComma) = front ++ s :: back ∧
        (∀ u ∈ front, ∃ v?, u.Reads limit ts (.ok v?)) ∧
        s.Reads limit ts (.error (reason.fault limit t)) ∧
        Fails limit .items (body ++ tail) reason t := by
  induction hn : body.length using Nat.strongRecOn generalizing body cursor with
  | ind n ih =>
    subst hn
    have hseg : ∀ u ∈ body.takeWhile (!·.isComma), u.isSpace = false ∧ u.isComma = false :=
      fun u hu => ⟨hbody u (List.takeWhile_subset _ hu), by simpa using List.mem_takeWhile_imp hu⟩
    have hsplit := List.takeWhile_append_dropWhile (p := fun t : Token => !t.isComma) (l := body)
    have hnext := head?_dropWhile (fun t : Token => !t.isComma) body
    generalize body.takeWhile (!·.isComma) = seg at hseg hsplit
    generalize body.dropWhile (!·.isComma) = others at hsplit hnext
    subst hsplit
    have hfree : ∀ u ∈ seg, u.isComma = false := fun u hu => (hseg u hu).2
    cases others with
    | nil =>
      rw [List.append_nil] at hdrop ⊢
      rw [List.splitOnP_eq_singleton hfree]
      rcases Segment.decided hdrop hseg fun u hu => (Token.of_isSpace (htail u hu)).2.1 with
        ⟨v?, hreads, hv⟩ | ⟨reason, t, hreads, hfails⟩
      · refine .inl ⟨[v?], .cons hreads .nil, ?_⟩
        cases v? <;> exact .last hv htail
      · exact .inr ⟨[], _, [], reason, t, rfl, nofun, hreads, hfails⟩
    | cons comma others =>
      have hcomma : comma.isComma = true := by simpa using hnext comma rfl
      have hstarts : comma.startsValue = false := by
        refine eq_false_of_ne_true fun hstarts => ?_
        rw [Token.isComma_of_startsValue hstarts] at hcomma
        cases hcomma
      rw [List.splitOnP_append_cons_of_forall_mem hfree comma hcomma, segmentsFrom]
      rw [List.append_assoc, List.cons_append] at hdrop ⊢
      have hbehind : ts.drop (cursor + seg.length + 1) = others ++ tail := by
        rw [Nat.add_assoc, ← List.drop_drop, hdrop]
        simp
      rcases Segment.decided hdrop hseg (by rintro u ⟨⟩; exact hstarts) with
        ⟨v?, hreads, hv⟩ | ⟨reason, t, hreads, hfails⟩
      · rcases ih others.length (by simp; omega) hbehind (fun u hu => hbody u (by simp [hu])) rfl
          with ⟨values, hvalues, hstands⟩ | ⟨front, s, back, reason, t, heq, hfront, hs, hfails⟩
        · refine .inl ⟨v? :: values, .cons hreads hvalues, ?_⟩
          cases v? <;> exact .more hv hcomma hstands
        · refine .inr ⟨⟨cursor, seg⟩ :: front, s, back, reason, t, ?_, ?_, hs, ?_⟩
          · rw [heq, List.cons_append]
          · exact List.forall_mem_cons.mpr ⟨⟨v?, hreads⟩, hfront⟩
          · exact .more hv hcomma hfails
      · exact .inr ⟨[], _, _, reason, t, rfl, nofun, hreads, hfails⟩

end

/-- Whatever is related to all of some others one by one is related to one of them. -/
theorem exists_of_forall₂ {α β : Type} {R : α → β → Prop} {as : List α} {bs : List β}
    (h : List.Forall₂ R as bs) : ∀ a ∈ as, ∃ b, R a b := by
  induction h with
  | nil => exact nofun
  | cons hab _ ih => exact List.forall_mem_cons.mpr ⟨⟨_, hab⟩, ih⟩

/-- The first element of a list that is not of some sort is the only first one. -/
theorem eq_of_first {α : Type} {p : α → Prop} {front back front' back' : List α} {a a' : α}
    (heq : front ++ a :: back = front' ++ a' :: back') (hfront : ∀ b ∈ front, p b) (ha : ¬ p a)
    (hfront' : ∀ b ∈ front', p b) (ha' : ¬ p a') : a = a' := by
  rcases List.append_eq_append_iff.mp heq with ⟨between, rfl, h⟩ | ⟨between, rfl, h⟩
  · cases between with
    | nil => exact (List.cons.inj h).1
    | cons b between =>
      obtain ⟨rfl, -⟩ := List.cons.inj h
      exact absurd (hfront' a (by simp)) ha
  · cases between with
    | nil => exact (List.cons.inj h).1.symm
    | cons b between =>
      obtain ⟨rfl, -⟩ := List.cons.inj h
      exact absurd (hfront a' (by simp)) ha'

/-- A list is exactly its segments between commas. There is a list at a cursor just where each of
its segments is read, as a value that takes it up as a whole, or as none where it is empty; the list
ends in front of the next run of blanks, or at the end, and its items are those values in their
order. Otherwise the fault is that of the first segment that is not read: that of its value, or that
the token at which its value stops does not belong there. -/
theorem itemsAt_iff (limit : Nat) (ts : List Token) (cursor : Nat) :
    (∀ items next, itemsAt limit ts cursor = .ok ⟨items, next⟩ ↔
      next = cursor + (unspacedAt ts cursor).length ∧
        ∃ values, items = values.reduceOption ∧
          List.Forall₂ (fun s v? => s.Reads limit ts (.ok v?)) (segmentsAt ts cursor) values) ∧
      ∀ fault, itemsAt limit ts cursor = .error fault ↔
        ∃ front s back, segmentsAt ts cursor = front ++ s :: back ∧
          (∀ u ∈ front, ∃ v?, u.Reads limit ts (.ok v?)) ∧ s.Reads limit ts (.error fault) := by
  have hunique : Relator.RightUnique fun (s : Segment) (v? : Option Token) =>
      s.Reads limit ts (.ok v?) := fun _ _ _ h h' => Except.ok.inj (h.unique h')
  have hnot : ∀ {s : Segment} {fault}, s.Reads limit ts (.error fault) →
      ¬ ∃ v?, s.Reads limit ts (.ok v?) := fun h ⟨_, h'⟩ => nomatch h.unique h'
  have hdrop := List.takeWhile_append_dropWhile (p := fun t => !t.isSpace) (l := ts.drop cursor)
  have hbody : ∀ u ∈ unspacedAt ts cursor, u.isSpace = false :=
    fun u hu => by simpa using List.mem_takeWhile_imp hu
  have htail := head?_dropWhile (fun t => !t.isSpace) (ts.drop cursor)
  rcases @segments_decided limit _ _ _ _ hdrop.symm hbody (by simpa using htail) with
    ⟨values, hvalues, hstands⟩ | ⟨front, s, back, reason, t, hsplit, hfront, hs, hfails⟩
  · have hread := (itemsAt_readsAt limit cursor).of_stands hdrop.symm hstands
    refine ⟨fun items next => ⟨fun h => ?_, ?_⟩, fun fault => ⟨fun h => ?_, ?_⟩⟩
    · rw [hread] at h
      cases h
      exact ⟨rfl, values, rfl, hvalues⟩
    · rintro ⟨rfl, values', rfl, hvalues'⟩
      rw [List.right_unique_forall₂' hunique hvalues' hvalues]
      exact hread
    · rw [hread] at h
      cases h
    · rintro ⟨front, s, back, hsplit, -, hs⟩
      have hmem : s ∈ segmentsAt ts cursor := by simp [hsplit]
      exact absurd (exists_of_forall₂ hvalues s hmem) (hnot hs)
  · have hread : itemsAt limit ts cursor = .error (reason.fault limit t) :=
      (itemsAt_readsAt limit cursor).of_fails (hdrop ▸ hfails)
    refine ⟨fun items next => ⟨fun h => ?_, ?_⟩, fun fault => ⟨fun h => ?_, ?_⟩⟩
    · rw [hread] at h
      cases h
    · rintro ⟨-, values, -, hvalues⟩
      have hmem : s ∈ segmentsAt ts cursor := by simp [segmentsAt, unspacedAt, hsplit]
      exact absurd (exists_of_forall₂ hvalues s hmem) (hnot hs)
    · rw [hread] at h
      cases h
      exact ⟨front, s, back, hsplit, hfront, hs⟩
    · rintro ⟨front', s', back', hsplit', hfront', hs'⟩
      obtain rfl := eq_of_first (hsplit.symm.trans hsplit') hfront (hnot hs) hfront' (hnot hs')
      rw [hread, Except.error.inj (hs.unique hs')]

/-- The law for a pattern between commas that nothing else stands between, in front of a blank, and
for a list whose second value has a colon behind it. -/
theorem itemsAt_iff_commas :
    itemsAt 0 [.covering .comma 0 1, .covering (.word "a") 1 2, .covering .wildcard 2 3,
      .covering .comma 3 4, .covering (.space " ") 4 5, .covering (.word "b") 5 6] 0 =
        .ok ⟨[.covering (.pattern [.covering (.word "a") 1 2, .covering .wildcard 2 3]) 1 3], 4⟩ ∧
    itemsAt 0 [.covering (.word "a") 0 1, .covering .comma 1 2, .covering (.word "b") 2 3,
      .covering .colon 3 4] 0 = .error (.unterminatedList "pair_op" 3) := by
  constructor
  · refine ((itemsAt_iff 0 _ 0).1 _ _).mpr ⟨by rfl, [none, some _, none], by rfl, ?_⟩
    have hpattern := List.cons_ne_nil (Token.covering (.word "a") 1 2) [.covering .wildcard 2 3]
    exact .cons (.empty rfl) (.cons (.value hpattern (by cbv)) (.cons (.empty rfl) .nil))
  · refine ((itemsAt_iff 0 _ 0).2 _).mpr ⟨[_], _, [], by rfl, ?_, ?_⟩
    · exact List.forall_mem_singleton.mpr ⟨_, .value (List.cons_ne_nil _ _) (by cbv)⟩
    · have hvalue : valueAt 0 [.covering (.word "a") 0 1, .covering .comma 1 2,
          .covering (.word "b") 2 3, .covering .colon 3 4] 2 =
            .ok ⟨some (.covering (.word "b") 2 3), 3⟩ := by cbv
      refine .unterminated (t := .covering .colon 3 4) (List.cons_ne_nil _ _) hvalue ?_ rfl
      rintro ⟨-, hstop⟩
      exact absurd hstop (by decide)

end SearchQuery
