import SearchQuery.Proofs.Canonical.Basic
import SearchQuery.Proofs.Promotion
import SearchQuery.Proofs.Text.Escapes

/-!
# Scanning what is written

What is written for a token is scanned as it was meant, wherever it stands. `Spells` says so for any
stretch of text: in front of anything that a word cannot go on with, it is scanned as certain
tokens, whatever follows. `Converts` says the same of promotion. Both are kept when stretches are
put together, so that each sign, word and quoted string is looked at once, here.
-/

namespace SearchQuery

open Text (width isBlank QuotedBody EncodedAs)

/-- From position `p` on, the characters `cs` are scanned as the tokens `raw`, in front of anything
that does not start with a word character. -/
def Spells (p : Nat) (cs : List Char) (raw : List Token) : Prop :=
  ∀ rest ts q left, (∀ c ∈ rest.head?, isWordChar c = false) →
    Scans (p + width cs) rest ts q left → Scans p (cs ++ rest) (raw ++ ts) q left

/-- The raw tokens `raw` are promoted to the tokens `us`, in front of any others. -/
def Converts (raw us : List Token) : Prop :=
  ∀ ts vs, Promotes ts vs → Promotes (raw ++ ts) (us ++ vs)

/-! ## Quoted strings -/

/-- An escaped text with a closing quotation mark is read as the text. -/
theorem QuotedBody.read_escape (text rest : List Char) :
    QuotedBody.read (escape text ++ '"' :: rest) = ⟨text, (escape text).length + 1, true⟩ := by
  have hencoded : List.Forall₂ EncodedAs text
      (text.map fun c => if c = '"' ∨ c = '\\' then ['\\', c] else [c]) := by
    rw [List.forall₂_map_right_iff, List.forall₂_same]
    intro c _
    split
    · next hc => exact .itself (by rcases hc with rfl | rfl <;> decide)
    · next hc =>
      obtain ⟨hquote, hslash⟩ := not_or.mp hc
      exact .plain hquote hslash
  rw [escape, List.flatMap_def]
  exact Text.QuotedBody.read_flatten_append hencoded rest

/-! ## Single tokens -/

/-- A word is written as it is, in front of anything but word characters. -/
theorem IsWord.written {word : String} {rest : List Char} (h : IsWord word)
    (hrest : ∀ c ∈ rest.head?, isWordChar c = false) :
    (Piece.token (.word word)).Written word.toList rest := by
  have hne : word.toList ≠ [] := fun heq => h.1 (String.toList_eq_nil_iff.mp heq)
  have hwritten := Piece.Written.word hne h.2 hrest
  rwa [String.ofList_toList] at hwritten

/-- A quoted string is written with escapes, in front of anything. -/
theorem written_quoted (text : String) (rest : List Char) :
    (Piece.token (.quoted text)).Written ('"' :: (escape text.toList ++ ['"'])) rest := by
  have hread := QuotedBody.read_escape text.toList rest
  have hwritten : (Piece.token (.quoted (String.ofList text.toList))).Written
      ('"' :: (escape text.toList ++ ['"'])) rest := by
    refine .quoted ?_
    simpa using hread
  rwa [String.ofList_toList] at hwritten

/-- A fragment is written as it is printed; behind a word no word character may follow. -/
theorem Token.Canonical.written {t : Token} {rest : List Char} (h : Canonical .fragment t)
    (hrest : t.isWord = true → ∀ c ∈ rest.head?, isWordChar c = false) :
    (Piece.token t.kind).Written t.print rest := by
  cases h with
  | word hword =>
    rw [print]
    exact hword.written (hrest rfl)
  | quoted =>
    rw [print]
    exact written_quoted _ rest
  | wildcard | anyChar =>
    rw [print]
    exact .sign rfl rfl fun _ _ => rfl

/-! ## Putting stretches together -/

section

variable {p : Nat} {cs ds : List Char} {raw raw' us us' : List Token}

theorem Spells.nil (p : Nat) : Spells p [] [] := fun _ _ _ _ _ h => h

/-- A token that is written somewhere is scanned there. -/
theorem Spells.single {kind : Kind Token}
    (h : ∀ rest, (∀ c ∈ rest.head?, isWordChar c = false) → (Piece.token kind).Written cs rest) :
    Spells p cs [.covering kind p (p + width cs)] :=
  fun rest _ _ _ hrest hs => .token (h rest hrest) hs

/-- Two stretches are scanned one behind the other if the second one does not go on with a word. -/
theorem Spells.append_cons {d : Char} (h : Spells p cs raw)
    (h' : Spells (p + width cs) (d :: ds) raw') (hd : isWordChar d = false) :
    Spells p (cs ++ d :: ds) (raw ++ raw') := by
  intro rest ts q left hrest hs
  rw [List.append_assoc, List.append_assoc]
  refine h _ _ _ _ ?_ (h' rest ts q left hrest ?_)
  · rintro c ⟨⟩
    exact hd
  · rwa [Text.width_append, ← Nat.add_assoc] at hs

/-- A sign is scanned in front of anything that it does not go on with. -/
theorem Spells.sign {kind : Kind Token} {s : String} (hsign : kind.sign? = some s)
    (hcs : s.toList = cs) (h : Spells (p + width cs) ds raw)
    (hgrow : (∀ c, kind.growsBy c = false) ∨ StartsValue ds) :
    Spells p (cs ++ ds) (.covering kind p (p + width cs) :: raw) := by
  intro rest ts q left hrest hs
  rw [List.append_assoc]
  rw [Text.width_append, ← Nat.add_assoc] at hs
  refine .token (.sign hsign hcs ?_) (h rest ts q left hrest hs)
  intro c hc
  rcases hgrow with hgrow | ⟨d, ds, rfl, -, hne, hne'⟩
  · exact hgrow c
  · cases hc
    unfold Kind.growsBy
    split <;> simp_all

theorem Converts.nil : Converts [] [] := fun _ _ h => h

theorem Converts.append (h : Converts raw us) (h' : Converts raw' us') :
    Converts (raw ++ raw') (us ++ us') := by
  intro ts vs hts
  rw [List.append_assoc, List.append_assoc]
  exact h _ _ (h' _ _ hts)

/-- A token that stays as it is may stand in front. -/
theorem Converts.settled {t : Token} (ht : t.isSettled = true) (h : Converts raw us) :
    Converts (t :: raw) (t :: us) := fun _ _ hts => .settled ht (h _ _ hts)

end

end SearchQuery
