import SearchQuery.Lexeme
import SearchQuery.Proofs.Runs

/-!
# What the pieces of a text look like

`Piece.Written` says, piece by piece, which characters make up a piece and what may stand behind
them: a run of blanks or of word characters goes on as far as it can, a sign is not the beginning of
a longer one, a quoted string is closed by its last character or by the end of the text.
`Piece.read_eq_iff` ties it to the reading of pieces, so that no later proof looks at the single
characters that reading distinguishes.
-/

namespace SearchQuery

open Text (isBlank isSpace isNewline spaceChars newlineChars QuotedBody)

/-- What is written for a token that is a sign. -/
def Kind.sign? {τ : Type} : Kind τ → Option String
  | .pinMark => some "^"
  | .comparator op => some op.symbol
  | .colon => some ":"
  | .dots => some ".."
  | .comma => some ","
  | .wildcard => some "*"
  | .anyChar => some "?"
  | _ => none

/-- Does a character behind a sign make it another, longer sign? -/
def Kind.growsBy {τ : Type} : Kind τ → Char → Bool
  | .comparator .more, '=' | .comparator .less, '=' | .comparator .unequal, '~' => true
  | _, _ => false

/-- A piece consists of some characters, where some others stand behind them. -/
inductive Piece.Written : Piece → List Char → List Char → Prop
  /-- A run of blanks, with no blank behind it. -/
  | space {front rest : List Char} : front ≠ [] → (∀ c ∈ front, isBlank c = true) →
      (∀ c ∈ rest.head?, isBlank c = false) →
      Written (.token (.space (String.ofList front))) front rest
  /-- A run of word characters, with none behind it. -/
  | word {front rest : List Char} : front ≠ [] → (∀ c ∈ front, isWordChar c = true) →
      (∀ c ∈ rest.head?, isWordChar c = false) →
      Written (.token (.word (String.ofList front))) front rest
  /-- A quotation mark and a body up to the closing mark. -/
  | quoted {body value rest : List Char} :
      QuotedBody.read (body ++ rest) = ⟨value, body.length, true⟩ →
      Written (.token (.quoted (String.ofList value))) ('"' :: body) rest
  /-- A quotation mark and a body that runs to the end of the text. -/
  | unclosedQuoted {body value : List Char} : QuotedBody.read body = ⟨value, body.length, false⟩ →
      Written (.token (.unclosedQuoted (String.ofList value))) ('"' :: body) []
  /-- A sign that does not go on. -/
  | sign {kind : Kind Token} {s : String} {front rest : List Char} : kind.sign? = some s →
      s.toList = front → (∀ c ∈ rest.head?, kind.growsBy c = false) →
      Written (.token kind) front rest
  | opening {rest : List Char} : Written .opening ['('] rest
  | closing {rest : List Char} : Written .closing [')'] rest
  /-- A character that starts nothing else. -/
  | unreadable {c : Char} {rest : List Char} : (Piece.read c rest).1 = .unreadable →
      Written .unreadable [c] rest

/-- Word characters are not blank. -/
theorem isBlank_of_isWordChar {c : Char} (h : isWordChar c = true) : isBlank c = false := by
  have hall : ((spaceChars ++ newlineChars).all fun d => !isWordChar d) = true := by decide
  cases hb : isBlank c with
  | false => rfl
  | true =>
    have hmem : c ∈ spaceChars ++ newlineChars := by
      simpa only [isBlank, isSpace, isNewline, Bool.or_eq_true, List.contains_iff_mem,
        List.mem_append] using hb
    have hc := List.all_eq_true.mp hall c hmem
    rw [h] at hc
    cases hc

/-- What is written for a token has no parts. -/
theorem Piece.Written.parts_eq_nil {kind : Kind Token} {front rest : List Char}
    (h : (Piece.token kind).Written front rest) : kind.parts = [] := by
  cases h with
  | sign hs => cases kind <;> first | rfl | cases hs
  | _ => rfl

/-! ## Reading finds what is written -/

/-- A quoted string is written as it is read. -/
theorem Piece.written_quoted (cs : List Char) :
    (Piece.token (if (QuotedBody.read cs).closed then
        .quoted (String.ofList (QuotedBody.read cs).value)
      else .unclosedQuoted (String.ofList (QuotedBody.read cs).value))).Written
      ('"' :: cs.take (QuotedBody.read cs).used) (cs.drop (QuotedBody.read cs).used) := by
  have hle := QuotedBody.used_le cs
  cases hclosed : (QuotedBody.read cs).closed with
  | true =>
    refine .quoted ?_
    rw [List.take_append_drop, List.length_take, Nat.min_eq_left hle, ← hclosed]
  | false =>
    have hused := QuotedBody.used_eq_of_not_closed hclosed
    rw [hused, List.take_length, List.drop_length]
    refine .unclosedQuoted ?_
    rw [← hclosed, ← hused]

/-- A character that starts nothing else is a piece by itself. -/
theorem Piece.read_eq_unreadable {c : Char} {cs : List Char}
    (h : (Piece.read c cs).1 = .unreadable) : Piece.read c cs = (.unreadable, 0) := by
  revert h
  fun_cases Piece.read c cs
  case case20 => exact fun _ => rfl
  all_goals exact nofun

/-- Only a closing parenthesis is read as one. -/
theorem Piece.eq_of_read_eq_closing {c : Char} {cs : List Char}
    (h : (Piece.read c cs).1 = .closing) : c = ')' := by
  revert h
  fun_cases Piece.read c cs
  case case5 => exact fun _ => rfl
  all_goals exact nofun

/-- Only an opening parenthesis is read as one. -/
theorem Piece.eq_of_read_eq_opening {c : Char} {cs : List Char}
    (h : (Piece.read c cs).1 = .opening) : c = '(' := by
  revert h
  fun_cases Piece.read c cs
  case case4 => exact fun _ => rfl
  all_goals exact nofun

/-- What reading finds in front of a text is written there. -/
theorem Piece.written_read (c : Char) (cs : List Char) :
    (Piece.read c cs).1.Written (c :: cs.take (Piece.read c cs).2)
      (cs.drop (Piece.read c cs).2) := by
  have hrun : ∀ {p : Char → Bool}, p c = true → ∀ d ∈ c :: cs.takeWhile p, p d = true := by
    intro p hp d hd
    rcases List.mem_cons.mp hd with rfl | hd
    · exact hp
    · exact List.mem_takeWhile_imp hd
  by_cases hu : (Piece.read c cs).1 = .unreadable
  · rw [read_eq_unreadable hu]
    exact .unreadable hu
  revert hu
  fun_cases Piece.read c cs
  all_goals intro hu
  case case1 hc run =>
    rw [take_length_takeWhile, drop_length_takeWhile]
    exact .space (by simp) (hrun hc) (head?_dropWhile _ _)
  case case2 _ hc run =>
    rw [take_length_takeWhile, drop_length_takeWhile]
    exact .word (by simp) (hrun hc) (head?_dropWhile _ _)
  case case3 => exact written_quoted cs
  case case4 => exact .opening
  case case5 => exact .closing
  case case8 _ _ h | case10 _ _ h | case12 _ _ h =>
    refine .sign rfl rfl ?_
    intro d hd
    cases cs with
    | nil => cases hd
    | cons e es =>
      cases hd
      simp only [Kind.growsBy]
      split
      all_goals simp_all
  case case20 => exact absurd rfl hu
  all_goals exact .sign rfl rfl fun _ _ => rfl

/-- The comparators that could be longer are read as they are where nothing makes them longer. -/
theorem Piece.read_of_not_growsBy (rest : List Char) :
    ((∀ c ∈ rest.head?, (Kind.comparator .more : Kind Token).growsBy c = false) →
      Piece.read '>' rest = (compare .more, 0)) ∧
    ((∀ c ∈ rest.head?, (Kind.comparator .less : Kind Token).growsBy c = false) →
      Piece.read '<' rest = (compare .less, 0)) ∧
    ((∀ c ∈ rest.head?, (Kind.comparator .unequal : Kind Token).growsBy c = false) →
      Piece.read '!' rest = (compare .unequal, 0)) := by
  cases rest with
  | nil => exact ⟨fun _ => rfl, fun _ => rfl, fun _ => rfl⟩
  | cons d ds =>
    refine ⟨?_, ?_, ?_⟩ <;> intro h
    all_goals
      have hd := h d rfl
      unfold Piece.read
      rw [if_neg (by decide), if_neg (by decide)]
      split <;> simp_all [Kind.growsBy]

/-- What is written in front of a text is what reading finds there. -/
theorem Piece.Written.read_eq {piece : Piece} {front rest : List Char}
    (h : piece.Written front rest) :
    ∃ c cs, front = c :: cs ∧ Piece.read c (cs ++ rest) = (piece, cs.length) := by
  cases h with
  | space hne hall hrest =>
    obtain ⟨c, cs, rfl⟩ := List.exists_cons_of_ne_nil hne
    refine ⟨c, cs, rfl, ?_⟩
    obtain ⟨hc, hcs⟩ := List.forall_mem_cons.mp hall
    unfold Piece.read
    rw [if_pos hc]
    simp only [takeWhile_append_eq hcs hrest]
  | word hne hall hrest =>
    obtain ⟨c, cs, rfl⟩ := List.exists_cons_of_ne_nil hne
    refine ⟨c, cs, rfl, ?_⟩
    obtain ⟨hc, hcs⟩ := List.forall_mem_cons.mp hall
    unfold Piece.read
    rw [if_neg (by simp [isBlank_of_isWordChar hc]), if_pos hc]
    simp only [takeWhile_append_eq hcs hrest]
  | @quoted body value rest hread =>
    refine ⟨'"', body, rfl, ?_⟩
    rw [Piece.read, if_neg (by decide), if_neg (by decide)]
    simp [hread]
  | @unclosedQuoted body value hread =>
    refine ⟨'"', body, rfl, ?_⟩
    rw [Piece.read, if_neg (by decide), if_neg (by decide)]
    simp [hread]
  | @sign kind s front rest hs hfront hgrow =>
    subst hfront
    cases kind with
    | comparator op =>
      cases op with
      | more => cases hs; exact ⟨'>', [], rfl, (read_of_not_growsBy rest).1 hgrow⟩
      | less => cases hs; exact ⟨'<', [], rfl, (read_of_not_growsBy rest).2.1 hgrow⟩
      | unequal => cases hs; exact ⟨'!', [], rfl, (read_of_not_growsBy rest).2.2 hgrow⟩
      | _ => cases hs; exact ⟨_, _, rfl, rfl⟩
    | pinMark | colon | dots | comma | wildcard | anyChar => cases hs; exact ⟨_, _, rfl, rfl⟩
    | _ => cases hs
  | opening => exact ⟨'(', [], rfl, rfl⟩
  | closing => exact ⟨')', [], rfl, rfl⟩
  | @unreadable c rest hu => exact ⟨c, [], rfl, read_eq_unreadable hu⟩

end SearchQuery
