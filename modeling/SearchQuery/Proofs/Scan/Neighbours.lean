import Mathlib
import SearchQuery.Proofs.Canonical.RoundTrip
import SearchQuery.Proofs.Forest.Room
import SearchQuery.Proofs.Scan.Lookahead

/-!
# Which raw tokens may stand side by side

Raw tokens can be written down one behind the other in whatever order, unless two neighbours would
be read as one (`Kind.merges`). `rawTextAll` writes them with nothing in between, and `placeAll`
says where each of them then lies. A token that is written goes on with just those characters that
start a token which it merges with (`Token.Writable.exists_head`), so a sequence in which no two
neighbours merge is scanned as it was meant (`Scans.of_rawTextAll`). Conversely, no two neighbours
merge in a sequence that comes from a scan (`Scans.separate`). `Scan.ofText_rawText` states both.
-/

namespace SearchQuery

open Text (width isBlank)

/-! ## Writing raw tokens -/

/-- Would two tokens of these kinds be read as one if they were written side by side? -/
def Kind.merges {τ : Type} : Kind τ → Kind τ → Bool
  | .space _, .space _ | .word _, .word _ => true
  | .comparator .more, .comparator .equal | .comparator .less, .comparator .equal => true
  | .comparator .unequal, .comparator .like => true
  | _, _ => false

/-- No two neighbours in a sequence of tokens merge. -/
def Separate (ts : List Token) : Prop := ts.IsChain fun t u => t.kind.merges u.kind = false

/-- A raw token that can be written anywhere. Nothing is said about where it lies. -/
inductive Token.Writable : Token → Prop
  | space {run : String} {index : Option Nat} {span : Span} : run ≠ "" →
      (∀ c ∈ run.toList, isBlank c = true) → Writable ⟨.space run, index, span, false⟩
  | word {word : String} {index : Option Nat} {span : Span} : IsWord word →
      Writable ⟨.word word, index, span, false⟩
  | quoted {text : String} {index : Option Nat} {span : Span} :
      Writable ⟨.quoted text, index, span, false⟩
  | sign {kind : Kind Token} {s : String} {index : Option Nat} {span : Span} :
      kind.sign? = some s → Writable ⟨kind, index, span, false⟩
  | group {items : List Token} {index : Option Nat} {span : Span} :
      (∀ t ∈ items, Writable t) → Separate items → Writable ⟨.group items, index, span, false⟩

mutual

/-- What is written for a raw token. -/
def Token.rawText : Token → List Char
  | ⟨.space run, _, _, _⟩ => run.toList
  | ⟨.word word, _, _, _⟩ => word.toList
  | ⟨.quoted text, _, _, _⟩ => '"' :: (escape text.toList ++ ['"'])
  | ⟨.group items, _, _, _⟩ => '(' :: (rawTextAll items ++ [')'])
  | ⟨kind, _, _, _⟩ => (kind.sign?.getD "").toList

/-- What is written for raw tokens, one behind the other. -/
def rawTextAll : List Token → List Char
  | [] => []
  | t :: ts => t.rawText ++ rawTextAll ts

end

mutual

/-- A raw token where it lies when it is written from position `p` on. -/
def Token.place (p : Nat) : Token → Token
  | ⟨.group items, _, _, _⟩ =>
    .covering (.group (placeAll (p + 1) items)) p (p + width (rawTextAll items) + 2)
  | ⟨kind, index, span, flagged⟩ =>
    .covering kind p (p + width (Token.rawText ⟨kind, index, span, flagged⟩))

/-- Raw tokens where they lie when they are written from position `p` on. -/
def placeAll (p : Nat) : List Token → List Token
  | [] => []
  | t :: ts => t.place p :: placeAll (p + width t.rawText) ts

end

/-- A token that is no group lies where its text does. -/
theorem Token.place_of_not_isGroup {t : Token} (h : t.isGroup = false) (p : Nat) :
    t.place p = .covering t.kind p (p + width t.rawText) := by
  obtain ⟨kind, index, span, flagged⟩ := t
  cases kind with
  | group => cases h
  | _ => rfl

/-! ## Which tokens merge -/

/-- No token merges with a group. -/
theorem Kind.merges_group {kind : List Token → Kind Token} (items : List Token)
    (hkind : kind = .group ∨ kind = .unclosedGroup) (front : Kind Token) :
    front.merges (kind items) = false := by
  rcases hkind with rfl | rfl <;> cases front with
  | comparator op => cases op <;> rfl
  | _ => rfl

/-- The first character of what is written for a token tells of which kind the token is. -/
theorem Piece.Written.head {kind : Kind Token} {c : Char} {cs rest : List Char}
    (h : (Piece.token kind).Written (c :: cs) rest) :
    (isBlank c = true ↔ ∃ run, kind = .space run) ∧
      (isWordChar c = true ↔ ∃ word, kind = .word word) ∧
      (c = '=' ↔ kind = .comparator .equal) ∧ (c = '~' ↔ kind = .comparator .like) := by
  cases h with
  | space _ hall =>
    have hc := hall c (.head _)
    refine ⟨iff_of_true hc ⟨_, rfl⟩, iff_of_false ?_ nofun, iff_of_false ?_ nofun,
      iff_of_false ?_ nofun⟩
    · intro hword
      rw [isBlank_of_isWordChar hword] at hc
      cases hc
    · rintro rfl
      cases hc
    · rintro rfl
      cases hc
  | word _ hall =>
    have hc := hall c (.head _)
    refine ⟨iff_of_false ?_ nofun, iff_of_true hc ⟨_, rfl⟩, iff_of_false ?_ nofun,
      iff_of_false ?_ nofun⟩
    · simp [isBlank_of_isWordChar hc]
    · rintro rfl
      cases hc
    · rintro rfl
      cases hc
  | quoted | unclosedQuoted =>
    exact ⟨iff_of_false nofun nofun, iff_of_false nofun nofun, iff_of_false (by decide) nofun,
      iff_of_false (by decide) nofun⟩
  | sign hs hfront =>
    cases kind with
    | comparator op =>
      cases hs
      cases op <;> cases hfront <;> simp <;> decide
    | pinMark | colon | dots | comma | wildcard | anyChar =>
      cases hs
      cases hfront
      simp
      decide
    | _ => cases hs

/-- The tokens that merge. -/
theorem Kind.merges_eq_true_iff {front kind : Kind Token} :
    front.merges kind = true ↔
      (∃ run, front = .space run) ∧ (∃ run, kind = .space run) ∨
      (∃ word, front = .word word) ∧ (∃ word, kind = .word word) ∨
      kind = .comparator .equal ∧ (front = .comparator .more ∨ front = .comparator .less) ∨
      kind = .comparator .like ∧ front = .comparator .unequal := by
  unfold merges
  split <;> grind

/-- A token goes on with the first character of just those tokens that it merges with. -/
theorem Kind.goesOn_eq_merges {kind : Kind Token} {c : Char} {cs rest : List Char}
    (h : (Piece.token kind).Written (c :: cs) rest) (front : Kind Token) :
    front.goesOn c = front.merges kind := by
  obtain ⟨hblank, hword, hequal, hlike⟩ := h.head
  rw [Bool.eq_iff_iff, merges_eq_true_iff, ← hblank, ← hword, ← hequal, ← hlike]
  unfold goesOn
  split
  · simp
  · simp
  · rw [growsBy_eq_true_iff]
    simp_all

/-! ## Scanning what is written -/

/-- A token that is no group is written as it is, in front of anything that it does not go on with.
-/
theorem Token.Writable.written {t : Token} {rest : List Char} (h : t.Writable)
    (hgroup : t.isGroup = false) (hrest : ∀ c ∈ rest.head?, t.kind.goesOn c = false) :
    (Piece.token t.kind).Written t.rawText rest := by
  cases h with
  | @space run _ _ hne hall =>
    have hwritten := Piece.Written.space (by simpa using hne) hall hrest
    rwa [String.ofList_toList] at hwritten
  | word hword => exact hword.written hrest
  | quoted => exact written_quoted _ rest
  | @sign kind s _ _ hs =>
    cases kind with
    | pinMark | comparator | colon | dots | comma | wildcard | anyChar =>
      cases hs
      exact .sign rfl rfl hrest
    | _ => cases hs
  | group => cases hgroup

/-- What is written for a token starts with a character that tells which tokens it merges with. -/
theorem Token.Writable.exists_head {t : Token} (h : t.Writable) :
    ∃ c cs, t.rawText = c :: cs ∧ ∀ front : Kind Token, front.goesOn c = front.merges t.kind := by
  cases hgroup : t.isGroup with
  | false =>
    have hend : ∀ c ∈ ([] : List Char).head?, t.kind.goesOn c = false := nofun
    have hwritten := h.written hgroup hend
    obtain ⟨c, cs, htext, -⟩ := hwritten.read_eq
    rw [htext] at hwritten
    exact ⟨c, cs, htext, Kind.goesOn_eq_merges hwritten⟩
  | true =>
    cases h with
    | group =>
      refine ⟨'(', _, rfl, ?_⟩
      intro front
      rw [front.goesOn_parenthesis.1, front.merges_group _ (.inl rfl)]
    | @sign kind s _ _ hs => cases kind <;> first | cases hs; done | cases hgroup
    | _ => cases hgroup

/-- From any position on, what is written for the token is scanned as the token, in front of
anything that it does not go on with. -/
def Token.Legible (t : Token) : Prop :=
  ∀ p rest us q left, (∀ c ∈ rest.head?, t.kind.goesOn c = false) →
    Scans (p + width t.rawText) rest us q left →
    Scans p (t.rawText ++ rest) (t.place p :: us) q left

/-- Tokens that do not merge are scanned one behind the other. -/
theorem Scans.of_rawTextAll {p q : Nat} {rest left : List Char} {ts us : List Token}
    (hts : ∀ t ∈ ts, t.Writable ∧ t.Legible) (hseparate : Separate ts)
    (hlast : ∀ t ∈ ts.getLast?, ∀ c ∈ rest.head?, t.kind.goesOn c = false)
    (h : Scans (p + width (rawTextAll ts)) rest us q left) :
    Scans p (rawTextAll ts ++ rest) (placeAll p ts ++ us) q left := by
  induction ts generalizing p with
  | nil => exact h
  | cons t ts ih =>
    obtain ⟨⟨-, ht⟩, hts⟩ := List.forall_mem_cons.mp hts
    have hhead : ∀ c ∈ (rawTextAll ts ++ rest).head?, t.kind.goesOn c = false := by
      cases ts with
      | nil => exact hlast t rfl
      | cons u us =>
        obtain ⟨c, cs, htext, hgoesOn⟩ := (hts u (.head _)).1.exists_head
        rw [rawTextAll, htext]
        rintro _ ⟨⟩
        rw [hgoesOn]
        exact (List.isChain_cons_cons.mp hseparate).1
    rw [rawTextAll, Text.width_append, ← Nat.add_assoc] at h
    rw [rawTextAll, placeAll, List.append_assoc]
    exact ht p _ _ q left hhead (ih hts hseparate.tail (getLast?_of_cons hlast) h)

/-- A token that is no group is scanned as it was meant. -/
theorem Token.Writable.legible_of_not_isGroup {t : Token} (h : t.Writable)
    (hgroup : t.isGroup = false) : t.Legible := by
  intro p rest us q left hrest hs
  rw [place_of_not_isGroup hgroup]
  exact .token (h.written hgroup hrest) hs

/-- A raw token that can be written anywhere is scanned as it was meant. -/
theorem Token.Writable.legible {t : Token} (h : t.Writable) : t.Legible := by
  induction h with
  | space hne hall => exact (Writable.space hne hall).legible_of_not_isGroup rfl
  | word hword => exact (Writable.word hword).legible_of_not_isGroup rfl
  | quoted => exact Writable.quoted.legible_of_not_isGroup rfl
  | @sign kind s index span hs =>
    refine (Writable.sign hs).legible_of_not_isGroup ?_
    cases kind <;> first | rfl | cases hs
  | @group items index span hitems hseparate ih =>
    intro p rest us q left _ hs
    have hstop : Scans (p + 1 + width (rawTextAll items)) (')' :: rest) []
        (p + 1 + width (rawTextAll items)) (')' :: rest) := .stop (.inl rfl)
    have hlast : ∀ t ∈ items.getLast?, ∀ c ∈ (')' :: rest).head?, t.kind.goesOn c = false := by
      rintro t - _ ⟨⟩
      exact t.kind.goesOn_parenthesis.2
    have hinside := Scans.of_rawTextAll (fun t ht => ⟨hitems t ht, ih t ht⟩) hseparate hlast hstop
    rw [List.append_nil] at hinside
    have hwidth : p + width (rawText ⟨.group items, index, span, false⟩) =
        p + 1 + width (rawTextAll items) + 1 := by
      have hopen : '('.utf8Size = 1 := rfl
      have hclose : ')'.utf8Size = 1 := rfl
      simp only [rawText, Text.width_cons, Text.width_append, Text.width_nil, hopen, hclose]
      omega
    rw [hwidth] at hs
    have hgroup := Scans.closed hinside hs
    rw [rawText, place, List.cons_append, List.append_assoc,
      show p + width (rawTextAll items) + 2 = p + 1 + width (rawTextAll items) + 1 by omega]
    exact hgroup

/-! ## Placed tokens -/

/-- Placing tokens changes nothing but their positions. -/
theorem bareAll_placeAll {ts : List Token} (h : ∀ t ∈ ts, ∀ p, (t.place p).bare = t.bare)
    (p : Nat) : bareAll (placeAll p ts) = bareAll ts := by
  induction ts generalizing p with
  | nil => rfl
  | cons t ts ih =>
    obtain ⟨ht, hts⟩ := List.forall_mem_cons.mp h
    rw [placeAll, bareAll, bareAll, ht, ih hts]

/-- Placing a token changes nothing but positions. -/
theorem Token.Writable.bare_place {t : Token} (h : t.Writable) (p : Nat) :
    (t.place p).bare = t.bare := by
  induction h generalizing p with
  | space | word | quoted => rfl
  | @sign kind s index span hs => cases kind <;> first | rfl | cases hs
  | group _ _ ih =>
    rw [place, covering, bare, bare, Kind.bare, Kind.bare, bareAll_placeAll ih]

/-- There is room for placed tokens if they are nested no more deeply. -/
theorem overflowAll?_placeAll {room : Nat} {ts : List Token}
    (h : ∀ t ∈ ts, ∀ p, (t.place p).overflow? room = none ↔ t.nesting ≤ room) (p : Nat) :
    overflowAll? room (placeAll p ts) = none ↔ nestingAll ts ≤ room := by
  induction ts generalizing p with
  | nil => exact iff_of_true rfl (Nat.zero_le _)
  | cons t ts ih =>
    obtain ⟨ht, hts⟩ := List.forall_mem_cons.mp h
    rw [placeAll, overflowAll?, Option.or_eq_none_iff, ht, ih hts, nestingAll, Nat.max_le]

/-- There is room for a placed token just where it is nested no more deeply. -/
theorem Token.Writable.overflow?_place {t : Token} (h : t.Writable) (room p : Nat) :
    (t.place p).overflow? room = none ↔ t.nesting ≤ room := by
  induction h generalizing room p with
  | space | word | quoted => exact iff_of_true rfl (Nat.zero_le _)
  | @sign kind s index span hs =>
    cases kind <;> first | exact iff_of_true rfl (Nat.zero_le _) | cases hs
  | group _ _ ih =>
    rw [place, covering, nesting, Kind.nesting]
    cases room with
    | zero => exact iff_of_false (Option.some_ne_none _) (Nat.not_succ_le_zero _)
    | succ room =>
      rw [overflow?_group (.inl rfl), overflowAll?_placeAll fun t ht => ih t ht room,
        Nat.succ_le_succ_iff]

/-! ## Neighbours in a scan -/

/-- In front of the tokens of a run stands a character that tells which tokens the first of them
merges with. -/
theorem Scans.exists_head {p q : Nat} {cs left : List Char} {u : Token} {us : List Token}
    (h : Scans p cs (u :: us) q left) :
    ∃ c ∈ cs.head?, ∀ front : Kind Token, front.goesOn c = front.merges u.kind := by
  have hgroup : ∀ {kind : List Token → Kind Token} (items : List Token),
      kind = .group ∨ kind = .unclosedGroup →
        ∀ front : Kind Token, front.goesOn '(' = front.merges (kind items) := by
    intro kind items hkind front
    rw [front.goesOn_parenthesis.1, front.merges_group items hkind]
  cases h with
  | token hw =>
    obtain ⟨c, cs, rfl, -⟩ := hw.read_eq
    exact ⟨c, rfl, Kind.goesOn_eq_merges hw⟩
  | closed => exact ⟨'(', rfl, hgroup _ (.inl rfl)⟩
  | cut | unclosed => exact ⟨'(', rfl, hgroup _ (.inr rfl)⟩

/-- A group merges with nothing behind it, so that it may stand in front of separate tokens. -/
theorem Separate.cons_group {kind : List Token → Kind Token} {items ts : List Token}
    {index : Option Nat} {span : Span} {flagged : Bool}
    (hkind : kind = .group ∨ kind = .unclosedGroup) (h : Separate ts) :
    Separate (⟨kind items, index, span, flagged⟩ :: ts) := by
  refine List.isChain_cons.mpr ⟨?_, h⟩
  intro u _
  rcases hkind with rfl | rfl <;> rfl

/-- No two neighbours merge among the tokens of a run, nor among the items of a group. -/
theorem Scans.separate {p q : Nat} {cs left : List Char} {ts : List Token}
    (h : Scans p cs ts q left) :
    Separate ts ∧ ∀ t ∈ preorderAll ts, Separate t.kind.parts := by
  induction h with
  | stop => exact ⟨.nil, nofun⟩
  | token hw hs ih =>
    obtain ⟨hts, hall⟩ := ih
    refine ⟨List.isChain_cons.mpr ⟨?_, hts⟩, forall_mem_preorderAll_cons.mpr ⟨?_, ?_, hall⟩⟩
    · intro u hu
      obtain ⟨us, rfl⟩ := List.head?_eq_some_iff.mp hu
      obtain ⟨c, hc, hgoesOn⟩ := hs.exists_head
      rw [Token.covering, ← hgoesOn]
      exact hw.goesOn_eq_false c hc
    all_goals rw [Token.covering, hw.parts_eq_nil]
    · exact .nil
    · exact nofun
  | closed _ _ ih₁ ih₂ =>
    exact ⟨ih₂.1.cons_group (.inl rfl), forall_mem_preorderAll_cons.mpr ⟨ih₁.1, ih₁.2, ih₂.2⟩⟩
  | cut _ _ _ ih₁ ih₂ =>
    exact ⟨ih₂.1.cons_group (.inr rfl), forall_mem_preorderAll_cons.mpr ⟨ih₁.1, ih₁.2, ih₂.2⟩⟩
  | unclosed _ ih =>
    exact ⟨.singleton _, forall_mem_preorderAll_cons.mpr ⟨ih.1, ih.2, nofun⟩⟩

/-- Any sequence of raw tokens in which no two neighbours merge, here and inside groups, can be
written down. What is written for it is scanned to its end as the same tokens, each of them where it
was written, as soon as the limit allows for its groups, and is refused otherwise. Conversely, no
two neighbours merge in what a scan yields, nor among the items of any group in it. -/
theorem Scan.ofText_rawText :
    (∀ limit ts, (∀ t ∈ ts, t.Writable) → Separate ts →
      bareAll (placeAll 0 ts) = bareAll ts ∧
      (nestingAll ts ≤ limit → Scan.ofText limit (String.ofList (rawTextAll ts)) =
        .ok ⟨0, width (rawTextAll ts), placeAll 0 ts⟩) ∧
      (limit < nestingAll ts → ∃ offset, Scan.ofText limit (String.ofList (rawTextAll ts)) =
        .error (.tooDeep offset limit))) ∧
    ∀ limit start text scan, Scan.of limit start text = .ok scan →
      Separate scan.tokens ∧ ∀ t ∈ preorderAll scan.tokens, Separate t.kind.parts := by
  constructor
  · intro limit ts hts hseparate
    have hscans : Scans 0 (rawTextAll ts) (placeAll 0 ts) (width (rawTextAll ts)) [] := by
      have hstop : Scans (0 + width (rawTextAll ts)) [] [] (0 + width (rawTextAll ts)) [] :=
        .stop trivial
      have hlast : ∀ t ∈ ts.getLast?, ∀ c ∈ ([] : List Char).head?, t.kind.goesOn c = false :=
        fun _ _ _ => nofun
      have h := Scans.of_rawTextAll (fun t ht => ⟨hts t ht, (hts t ht).legible⟩) hseparate hlast
        hstop
      rwa [List.append_nil, List.append_nil, Nat.zero_add] at h
    have hroom := overflowAll?_placeAll (fun t ht => (hts t ht).overflow?_place limit) 0
    refine ⟨bareAll_placeAll (fun t ht => (hts t ht).bare_place) 0, ?_, ?_⟩
    · intro hle
      rw [ofText_eq, String.toList_ofList, ofChars_of_scans hscans, hroom.mpr hle]
    · intro hlt
      cases hover : overflowAll? limit (placeAll 0 ts) with
      | none => exact absurd (hroom.mp hover) (Nat.not_le_of_lt hlt)
      | some offset =>
        refine ⟨offset, ?_⟩
        rw [ofText_eq, String.toList_ofList, ofChars_of_scans hscans, hover]
  · intro limit start text scan h
    unfold Scan.of at h
    split at h
    · obtain ⟨left, hs, -⟩ := exists_scans_of_ofChars h
      exact hs.separate
    · cases h
      exact ⟨.nil, nofun⟩

/-- A comparator behind another one, and a group with a keyword behind a wide blank. -/
def crowdedTokens : List Token :=
  [.ofKind (.word "a"), .ofKind (.comparator .more), .ofKind (.comparator .atLeast),
    .ofKind (.group [.ofKind (.quoted "\""), .ofKind (.space "\u2003"), .ofKind (.word "AND")]),
    .ofKind .comma]

/-- The law for a group among signs, which one level of nesting is enough for and none is not, and
for what is scanned where a sign that would be longer follows another one. -/
theorem Scan.ofText_rawText_crowded :
    (∀ t ∈ crowdedTokens, t.Writable) ∧ Separate crowdedTokens ∧ nestingAll crowdedTokens = 1 ∧
      rawTextAll crowdedTokens = "a>>=(\"\\\"\"\u2003AND),".toList ∧
      Scan.ofText 1 (String.ofList (rawTextAll crowdedTokens)) = .ok ⟨0, 17,
        [.covering (.word "a") 0 1, .covering (.comparator .more) 1 2,
          .covering (.comparator .atLeast) 2 4,
          .covering (.group [.covering (.quoted "\"") 5 9, .covering (.space "\u2003") 9 12,
            .covering (.word "AND") 12 15]) 4 16,
          .covering .comma 16 17]⟩ ∧
      (∃ offset, Scan.ofText 0 (String.ofList (rawTextAll crowdedTokens)) =
        .error (.tooDeep offset 0)) ∧
      ∃ scan, Scan.of 1 1 ">==" = .ok scan ∧ Separate scan.tokens := by
  have hword : ∀ word : String, word = "a" ∨ word = "AND" → IsWord word := by
    rintro _ (rfl | rfl) <;> exact .of_all (by decide) rfl
  have hspace : (Token.ofKind (.space "\u2003")).Writable := by
    refine .space (by decide) (List.all_eq_true.mp ?_)
    decide
  have hitems : ∀ t ∈ [Token.ofKind (.quoted "\""), .ofKind (.space "\u2003"),
      .ofKind (.word "AND")], t.Writable := by
    refine List.forall_mem_cons.mpr ⟨.quoted, List.forall_mem_cons.mpr ⟨hspace, ?_⟩⟩
    exact List.forall_mem_singleton.mpr (.word (hword _ (.inr rfl)))
  have hall : ∀ t ∈ crowdedTokens, t.Writable := by
    refine List.forall_mem_cons.mpr ⟨.word (hword _ (.inl rfl)), List.forall_mem_cons.mpr
      ⟨.sign rfl, List.forall_mem_cons.mpr ⟨.sign rfl, List.forall_mem_cons.mpr ⟨.group hitems ?_,
        List.forall_mem_singleton.mpr (.sign rfl)⟩⟩⟩⟩
    simp [Separate, Token.ofKind, Kind.merges]
  have hseparate : Separate crowdedTokens := by
    simp [Separate, crowdedTokens, Token.ofKind, Kind.merges]
  have hnesting : nestingAll crowdedTokens = 1 := by decide
  have hscan : Scan.of 1 1 ">==" = .ok ⟨1, 3, [.covering (.comparator .equal) 1 2,
      .covering (.comparator .equal) 2 3]⟩ := by cbv
  obtain ⟨-, hroom, -⟩ := Scan.ofText_rawText.1 1 crowdedTokens hall hseparate
  obtain ⟨-, -, hnoRoom⟩ := Scan.ofText_rawText.1 0 crowdedTokens hall hseparate
  refine ⟨hall, hseparate, hnesting, by decide, hroom (by rw [hnesting]), ?_, ?_⟩
  · exact hnoRoom (by rw [hnesting]; exact Nat.zero_lt_one)
  · exact ⟨_, hscan, (Scan.ofText_rawText.2 1 1 ">==" _ hscan).1⟩

end SearchQuery
