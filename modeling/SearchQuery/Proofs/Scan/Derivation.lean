import SearchQuery.Scan
import SearchQuery.Proofs.Scan.Piece
import SearchQuery.Proofs.Text.Stretch

/-!
# How a scan goes from left to right

Nesting is worked out from the right end of a text. `Scans` describes the same from the left, in the
order in which a text is read: token by token, with one run for the items of a group and another one
for what follows the group. Every text has such a run (`exists_scans`), and a run fixes what is
scanned (`Scan.ofChars_of_scans`), so that a fact about scans is an induction on `Scans`.
-/

namespace SearchQuery

open Text (width suffixAt? suffixAt?_add)

/-- A group that opens at a position and is never closed. -/
def Token.cutOff (items : List Token) (start : Nat) : Token :=
  ⟨.unclosedGroup items, some start, ⟨some start, none⟩, false⟩

/-- Does a text end, or start with what ends the items of a group? -/
def AtStop : List Char → Prop
  | [] => True
  | c :: cs => (Piece.read c cs).1 = .closing ∨ (Piece.read c cs).1 = .unreadable

/-- `Scans p cs ts q left`: from position `p` on, the text `cs` consists of the tokens `ts` up to
the position `q`, where `left` stands, the first stop outside all groups. -/
inductive Scans : Nat → List Char → List Token → Nat → List Char → Prop
  | stop {p : Nat} {cs : List Char} : AtStop cs → Scans p cs [] p cs
  | token {p q : Nat} {kind : Kind Token} {front rest left : List Char} {ts : List Token} :
      (Piece.token kind).Written front rest → Scans (p + width front) rest ts q left →
      Scans p (front ++ rest) (.covering kind p (p + width front) :: ts) q left
  /-- A group with its closing parenthesis. -/
  | closed {p q r : Nat} {cs ds left : List Char} {items ts : List Token} :
      Scans (p + 1) cs items q (')' :: ds) → Scans (q + 1) ds ts r left →
      Scans p ('(' :: cs) (.covering (.group items) p (q + 1) :: ts) r left
  /-- A group that an unreadable character leaves open. -/
  | cut {p q r : Nat} {d : Char} {cs ds left : List Char} {items ts : List Token} :
      Scans (p + 1) cs items q (d :: ds) → (Piece.read d ds).1 = .unreadable →
      Scans (q + d.utf8Size) ds ts r left →
      Scans p ('(' :: cs) (.cutOff items p :: ts) r left
  /-- A group that the end of the text leaves open. -/
  | unclosed {p q : Nat} {cs : List Char} {items : List Token} :
      Scans (p + 1) cs items q [] → Scans p ('(' :: cs) [.cutOff items p] q []

/-- A stop is a single character. -/
theorem AtStop.written {c : Char} {cs : List Char} (h : AtStop (c :: cs)) :
    (Piece.read c cs).1.Written [c] cs := by
  rcases h with h | h
  · obtain rfl := Piece.eq_of_read_eq_closing h
    exact .closing
  · rw [h]
    exact .unreadable h

/-- A run ends at a stop. -/
theorem Scans.atStop {p q : Nat} {cs left : List Char} {ts : List Token}
    (h : Scans p cs ts q left) : AtStop left := by
  induction h with
  | stop h => exact h
  | token _ _ ih => exact ih
  | closed _ _ _ ih => exact ih
  | cut _ _ _ _ ih => exact ih
  | unclosed _ ih => exact ih

/-- What a run leaves is an end of the text, and its position is where that stands. -/
theorem Scans.suffix {p q : Nat} {cs left : List Char} {ts : List Token}
    (h : Scans p cs ts q left) : ∃ read, cs = read ++ left ∧ q = p + width read := by
  induction h with
  | stop => exact ⟨[], rfl, rfl⟩
  | @token p q kind front rest left ts _ _ ih =>
    obtain ⟨read, rfl, rfl⟩ := ih
    exact ⟨front ++ read, by rw [List.append_assoc], by rw [Text.width_append]; omega⟩
  | closed _ _ ih₁ ih₂ =>
    obtain ⟨read₁, rfl, rfl⟩ := ih₁
    obtain ⟨read₂, rfl, rfl⟩ := ih₂
    refine ⟨'(' :: (read₁ ++ ')' :: read₂), by simp, ?_⟩
    simp only [Text.width_cons, Text.width_append]
    have h₁ : '('.utf8Size = 1 := rfl
    have h₂ : ')'.utf8Size = 1 := rfl
    omega
  | @cut p q r d cs ds left items ts _ _ _ ih₁ ih₂ =>
    obtain ⟨read₁, rfl, rfl⟩ := ih₁
    obtain ⟨read₂, rfl, rfl⟩ := ih₂
    refine ⟨'(' :: (read₁ ++ d :: read₂), by simp, ?_⟩
    simp only [Text.width_cons, Text.width_append]
    have h₁ : '('.utf8Size = 1 := rfl
    omega
  | unclosed _ ih =>
    obtain ⟨read, rfl, rfl⟩ := ih
    refine ⟨'(' :: read, by simp, ?_⟩
    simp only [Text.width_cons]
    have h₁ : '('.utf8Size = 1 := rfl
    omega

/-- A run takes up the text up to what it leaves. -/
theorem Scans.width_eq {p q : Nat} {cs left : List Char} {ts : List Token}
    (h : Scans p cs ts q left) : p + width cs = q + width left := by
  obtain ⟨read, rfl, rfl⟩ := h.suffix
  rw [Text.width_append, Nat.add_assoc]

/-- What a run goes on from at its end is what stands there in the text. -/
theorem Scans.suffixAt? {p q : Nat} {text cs left : List Char} {ts : List Token}
    (h : Scans p cs ts q left) (hp : suffixAt? p text = some cs) :
    suffixAt? q text = some left := by
  obtain ⟨read, rfl, rfl⟩ := h.suffix
  exact suffixAt?_add hp

/-! ## Runs and nested lexemes -/

/-- The tokens of a text from a position on, nested. -/
def Nested.ofChars (p : Nat) (cs : List Char) : Nested := ofLexemes (lexemes p cs)

/-- The lexemes of a text start with the piece that is written in front. -/
theorem Nested.ofChars_written {p : Nat} {piece : Piece} {front rest : List Char}
    (h : piece.Written front rest) :
    ofChars p (front ++ rest) =
      (ofChars (p + width front) rest).push ⟨piece, p, p + width front⟩ := by
  obtain ⟨c, cs, rfl, hread⟩ := h.read_eq
  rw [ofChars, List.cons_append, lexemes_cons, hread]
  simp only [List.take_left, List.drop_left, ofLexemes_cons, ofChars]

/-- Nothing is taken up at a stop: it is kept for later, with all that follows. -/
theorem Nested.ofChars_stop {p : Nat} {c : Char} {cs : List Char} (h : AtStop (c :: cs)) :
    ofChars p (c :: cs) = ⟨[], (⟨(Piece.read c cs).1, p, p + c.utf8Size⟩,
      (ofChars (p + c.utf8Size) cs).tokens) :: (ofChars (p + c.utf8Size) cs).later⟩ := by
  have hw := ofChars_written (p := p) h.written
  simp only [List.singleton_append, Text.width_cons, Text.width_nil, Nat.add_zero] at hw
  rw [hw]
  rcases h with h | h <;> simp [push, h]

/-- An opening parenthesis takes what comes up to the next stop for its items. -/
theorem Nested.ofChars_opening {p : Nat} {cs : List Char} :
    ofChars p ('(' :: cs) = (ofChars (p + 1) cs).push ⟨.opening, p, p + 1⟩ := by
  have h : Piece.opening.Written ['('] cs := .opening
  exact ofChars_written h

/-- There is nothing to take up at a stop. -/
theorem Nested.tokens_ofChars_stop {p : Nat} {cs : List Char} (h : AtStop cs) :
    (ofChars p cs).tokens = [] := by
  cases cs with
  | nil => rw [ofChars, lexemes_nil]; rfl
  | cons c cs => rw [ofChars_stop h]

/-- A run goes over the tokens up to the next stop, and keeps what comes later. -/
theorem Scans.nested {p q : Nat} {cs left : List Char} {ts : List Token}
    (h : Scans p cs ts q left) :
    (Nested.ofChars p cs).tokens = ts ∧
      (Nested.ofChars p cs).later = (Nested.ofChars q left).later := by
  induction h with
  | stop h => exact ⟨Nested.tokens_ofChars_stop h, rfl⟩
  | token hw _ ih =>
    rw [Nested.ofChars_written hw]
    exact ⟨by rw [← ih.1]; rfl, ih.2⟩
  | closed h₁ _ ih₁ ih₂ =>
    rw [Nested.ofChars_opening]
    rw [Nested.ofChars_stop h₁.atStop] at ih₁
    simp only [Nested.push, ih₁.1, ih₁.2]
    exact ⟨by rw [← ih₂.1]; rfl, ih₂.2⟩
  | cut h₁ hd _ ih₁ ih₂ =>
    rw [Nested.ofChars_opening]
    rw [Nested.ofChars_stop h₁.atStop, hd] at ih₁
    simp only [Nested.push, ih₁.1, ih₁.2]
    exact ⟨by rw [← ih₂.1]; rfl, ih₂.2⟩
  | @unclosed p q cs items h₁ ih₁ =>
    have hnil : (Nested.ofChars q []).later = [] := by rw [Nested.ofChars, lexemes_nil]; rfl
    rw [Nested.ofChars_opening]
    rw [hnil] at ih₁
    simp only [Nested.push, ih₁.1, ih₁.2, hnil]
    exact ⟨rfl, trivial⟩

/-- Every text has a run. -/
theorem exists_scans (p : Nat) (cs : List Char) : ∃ ts q left, Scans p cs ts q left := by
  induction hn : cs.length using Nat.strongRecOn generalizing p cs with
  | ind n ih =>
    subst hn
    cases cs with
    | nil => exact ⟨[], p, [], .stop trivial⟩
    | cons c cs =>
      have hw := Piece.written_read c cs
      have hsplit : c :: cs = c :: cs.take (Piece.read c cs).2 ++ cs.drop (Piece.read c cs).2 := by
        rw [List.cons_append, List.take_append_drop]
      cases hpiece : (Piece.read c cs).1 with
      | closing => exact ⟨[], p, _, .stop (.inl hpiece)⟩
      | unreadable => exact ⟨[], p, _, .stop (.inr hpiece)⟩
      | token kind =>
        have hlen : (cs.drop (Piece.read c cs).2).length < (c :: cs).length := by
          simp only [List.length_drop, List.length_cons]
          omega
        obtain ⟨ts, q, left, hs⟩ := ih _ hlen (p + width (c :: cs.take (Piece.read c cs).2)) _ rfl
        rw [hpiece] at hw
        rw [hsplit]
        exact ⟨_, q, left, .token hw hs⟩
      | opening =>
        obtain rfl := Piece.eq_of_read_eq_opening hpiece
        obtain ⟨items, q, left, hs⟩ := ih _ (by simp) (p + 1) cs rfl
        cases left with
        | nil => exact ⟨_, q, [], .unclosed hs⟩
        | cons d ds =>
          obtain ⟨read, hread, -⟩ := hs.suffix
          have hlen : ds.length < ('(' :: cs).length := by simp [hread]; omega
          rcases hs.atStop with hd | hd
          · obtain rfl := Piece.eq_of_read_eq_closing hd
            obtain ⟨ts, r, left, hs'⟩ := ih _ hlen (q + 1) ds rfl
            exact ⟨_, r, left, .closed hs hs'⟩
          · obtain ⟨ts, r, left, hs'⟩ := ih _ hlen (q + d.utf8Size) ds rfl
            exact ⟨_, r, left, .cut hs hd hs'⟩

/-! ## Runs and scans -/

/-- Outside all groups a text is read up to the position where its run stops. -/
theorem Scans.nested_stop {p q : Nat} {cs left : List Char} {ts : List Token}
    (h : Scans p cs ts q left) : (Nested.ofChars p cs).stop (p + width cs) = q := by
  obtain ⟨read, rfl, rfl⟩ := h.suffix
  rw [Nested.stop, h.nested.2]
  cases left with
  | nil => simp [Nested.ofChars, Nested.empty]
  | cons d ds => rw [Nested.ofChars_stop h.atStop]

/-- A text has one run only. -/
theorem Scans.unique {p q q' : Nat} {cs left left' : List Char} {ts ts' : List Token}
    (h : Scans p cs ts q left) (h' : Scans p cs ts' q' left') :
    ts = ts' ∧ q = q' ∧ left = left' := by
  have hstop : q = q' := h.nested_stop.symm.trans h'.nested_stop
  obtain ⟨read, hread, hq⟩ := h.suffix
  obtain ⟨read', hread', hq'⟩ := h'.suffix
  have hat : Text.suffixAt? (width read) cs = some left := by rw [hread, Text.suffixAt?_width]
  have hat' : Text.suffixAt? (width read') cs = some left' := by rw [hread', Text.suffixAt?_width]
  rw [show width read = width read' by omega, hat'] at hat
  cases hat
  exact ⟨h.nested.1.symm.trans h'.nested.1, hstop, rfl⟩

/-- A scan yields the tokens of the run over its text, unless they are nested too deeply. -/
theorem Scan.ofChars_of_scans {p q : Nat} {cs left : List Char} {ts : List Token}
    (h : Scans p cs ts q left) (limit : Nat) :
    ofChars limit p cs =
      match overflowAll? limit ts with
      | some offset => .error (.tooDeep offset limit)
      | none => .ok ⟨p, q, ts⟩ := by
  cases ho : overflowAll? limit ts
  all_goals simp only [ofChars, ← Nested.ofChars.eq_1, h.nested.1, h.nested_stop, ho]

/-- A scan that succeeds has a run. -/
theorem Scan.exists_scans_of_ofChars {limit p : Nat} {cs : List Char} {scan : Scan}
    (h : ofChars limit p cs = .ok scan) :
    ∃ left, Scans p cs scan.tokens scan.stop left ∧ scan.start = p ∧
      overflowAll? limit scan.tokens = none := by
  obtain ⟨ts, q, left, hs⟩ := exists_scans p cs
  rw [ofChars_of_scans hs] at h
  cases ho : overflowAll? limit ts with
  | some offset => rw [ho] at h; cases h
  | none =>
    rw [ho] at h
    cases h
    exact ⟨left, hs, rfl, ho⟩

end SearchQuery
