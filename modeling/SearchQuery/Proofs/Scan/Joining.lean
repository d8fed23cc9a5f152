import SearchQuery.Proofs.Scan.Growth
import SearchQuery.Proofs.Shift

/-!
# Scans of texts with blanks in between

Two texts with blanks in between are scanned like each of them by itself. The blanks make one token,
which also takes up those at the start of the second text (`Scans.exists_takesBlanks`) and those at
the end of the first one (`Scans.append_blanks`).
-/

namespace SearchQuery

open Text (width isBlank QuotedBody)

/-- Does a token at the end of a text take in whatever follows, blanks or not? -/
def Token.isOpenEnded (t : Token) : Bool :=
  match t.kind with
  | .pinMark | .unclosedQuoted _ | .unclosedGroup _ => true
  | _ => false

/-- The tokens `ts` are `back`, with or without a blank in front. -/
def BlankAhead (ts back : List Token) : Prop :=
  ts = back ∨ ∃ blank : Token, blank.isSpace = true ∧ ts = blank :: back

/-- The tokens `ts` are `front`, with or without a blank behind them. -/
def BlankBehind (ts front : List Token) : Prop :=
  ts = front ∨ ∃ blank : Token, blank.isSpace = true ∧ ts = front ++ [blank]

/-- A blank behind some tokens is one behind more of them. -/
theorem BlankBehind.cons {ts front : List Token} (h : BlankBehind ts front) (t : Token) :
    BlankBehind (t :: ts) (t :: front) := by
  rcases h with rfl | ⟨blank, hblank, rfl⟩
  · exact .inl rfl
  · exact .inr ⟨blank, hblank, rfl⟩

/-- `TakesBlanks n cs back q left`: blanks in front of the text `cs`, which starts at position `n`,
make one token with those that it starts with, and behind them the text consists of the tokens
`back` up to the position `q`, where `left` stands. -/
def TakesBlanks (n : Nat) (cs : List Char) (back : List Token) (q : Nat)
    (left : List Char) : Prop :=
  ∀ p front, front ≠ [] → (∀ c ∈ front, isBlank c = true) → p + width front = n →
    ∃ blank : Token, blank.isSpace = true ∧ Scans p (front ++ cs) (blank :: back) q left

/-- Every text takes blanks in front of it, and its other tokens stay. -/
theorem Scans.exists_takesBlanks {n q : Nat} {cs left : List Char} {us : List Token}
    (h : Scans n cs us q left) :
    ∃ back, BlankAhead us back ∧ TakesBlanks n cs back q left := by
  have hsplit : cs.takeWhile isBlank ++ cs.dropWhile isBlank = cs := List.takeWhile_append_dropWhile
  have hrest := head?_dropWhile isBlank cs
  obtain ⟨back, q', left', hback⟩ :=
    exists_scans (n + width (cs.takeWhile isBlank)) (cs.dropWhile isBlank)
  have hjoined : ∀ p front, front ++ cs.takeWhile isBlank ≠ [] →
      (∀ c ∈ front, isBlank c = true) → p + width front = n →
        ∃ sp : Token, sp.isSpace = true ∧ Scans p (front ++ cs) (sp :: back) q' left' := by
    intro p front hne hall hp
    have hwritten := Piece.Written.space hne (forall_append_takeWhile cs hall) hrest
    have hscans := hback
    rw [← hp, Nat.add_assoc, ← Text.width_append] at hscans
    have hjoined := Scans.token hwritten hscans
    rw [List.append_assoc, hsplit] at hjoined
    exact ⟨_, rfl, hjoined⟩
  by_cases hnone : cs.takeWhile isBlank = []
  · rw [hnone, List.nil_append] at hsplit
    rw [hnone, hsplit] at hback
    obtain ⟨rfl, rfl, rfl⟩ := h.unique hback
    refine ⟨us, .inl rfl, ?_⟩
    intro p front hne
    exact hjoined p front (by simp [hne])
  · obtain ⟨y, hy, hscans⟩ := hjoined n [] (by simpa using hnone) nofun rfl
    obtain ⟨rfl, rfl, rfl⟩ := h.unique hscans
    refine ⟨back, .inr ⟨y, hy, rfl⟩, ?_⟩
    intro p front hne
    exact hjoined p front (by simp [hne])

/-- A piece other than blanks ends where a blank follows. -/
theorem Piece.Written.before_blank {kind : Kind Token} {front more : List Char} {p q : Nat}
    (h : (Piece.token kind).Written front []) (hspace : (Token.covering kind p q).isSpace = false)
    (hopen : (Token.covering kind p q).isOpenEnded = false)
    (hblank : ∀ c ∈ more.head?, isBlank c = true) : (Piece.token kind).Written front more := by
  refine h.before ?_ fun c hc => Kind.goesOn_of_isBlank (hblank c hc) ?_
  · rintro text rfl
    cases hopen
  · rintro run rfl
    cases hspace

/-- The tokens of a text that is read to its end stay when blanks follow; the blanks make one token
with those at the end of the text. -/
theorem Scans.append_blanks {a b q : Nat} {cs blanks cs' left : List Char} {ts back : List Token}
    (h : Scans a cs ts b []) (hopen : ∀ t ∈ ts.getLast?, t.isOpenEnded = false)
    (hne : blanks ≠ []) (hall : ∀ c ∈ blanks, isBlank c = true)
    (hback : TakesBlanks (b + width blanks) cs' back q left) :
    ∃ front, ∃ blank : Token, blank.isSpace = true ∧
      Scans a (cs ++ (blanks ++ cs')) (front ++ blank :: back) q left ∧
      BlankBehind ts front := by
  have hhead : ∀ c ∈ (blanks ++ cs').head?, isBlank c = true := by
    obtain ⟨c, cs, rfl⟩ := List.exists_cons_of_ne_nil hne
    rintro _ ⟨⟩
    exact hall c (.head _)
  generalize hleft : ([] : List Char) = left' at h
  induction h with
  | stop =>
    subst hleft
    obtain ⟨blank, hspace, hscans⟩ := hback _ blanks hne hall rfl
    exact ⟨[], blank, hspace, hscans, .inl rfl⟩
  | @token p q kind front rest left' ts hw hs ih =>
    subst hleft
    by_cases hrest : rest = []
    · subst hrest
      obtain ⟨rfl, rfl, -⟩ := hs.eq_of_nil
      rw [List.append_nil]
      cases hspace : (Token.covering kind p (p + width front)).isSpace with
      | true =>
        -- The blanks at the end of the text make one token with those behind it.
        have hfront : front ≠ [] ∧ ∀ c ∈ front, isBlank c = true := by
          cases hw with
          | space hne hall => exact ⟨hne, hall⟩
          | sign hs => cases kind <;> first | cases hspace; done | cases hs
          | _ => cases hspace
        obtain ⟨blank, hblank, hscans⟩ := hback p (front ++ blanks) (by simp [hne])
          (List.forall_mem_append.mpr ⟨hfront.2, hall⟩) (by rw [Text.width_append]; omega)
        rw [List.append_assoc] at hscans
        exact ⟨[], blank, hblank, hscans, .inr ⟨_, hspace, rfl⟩⟩
      | false =>
        obtain ⟨blank, hblank, hscans⟩ := hback _ blanks hne hall rfl
        have hw' := hw.before_blank hspace (hopen _ rfl) hhead
        exact ⟨[_], blank, hblank, .token hw' hscans, .inl rfl⟩
    · obtain ⟨front', blank, hblank, hscans, hts⟩ := ih (getLast?_of_cons hopen) hback rfl
      rw [List.append_assoc]
      exact ⟨_ :: front', blank, hblank, .token (hw.append (.inl hrest) _) hscans, hts.cons _⟩
  | closed h₁ _ _ ih₂ =>
    obtain ⟨front', blank, hblank, hscans, hts⟩ := ih₂ (getLast?_of_cons hopen) hback hleft
    exact ⟨_ :: front', blank, hblank, .closed (h₁.append nofun nofun _) hscans, hts.cons _⟩
  | @cut p q r d cs ds left' items ts h₁ hd h₂ _ ih₂ =>
    have hds : ds ≠ [] := by
      rintro rfl
      obtain ⟨rfl, -, -⟩ := h₂.eq_of_nil
      cases hopen _ rfl
    obtain ⟨hitems, hd'⟩ := h₁.append_cut hd (fun _ => hds) (blanks ++ cs')
    obtain ⟨front', blank, hblank, hscans, hts⟩ := ih₂ (getLast?_of_cons hopen) hback hleft
    exact ⟨_ :: front', blank, hblank, .cut hitems hd' hscans, hts.cons _⟩
  | unclosed => cases hopen _ rfl

end SearchQuery
