import SearchQuery.Proofs.Scan.Derivation
import SearchQuery.Proofs.Text.Quoted

/-!
# How far ahead a scan looks

A scan looks one character ahead, to see whether what it reads goes on there (`Kind.goesOn`), and no
character has to stand there for what it reads to end. So a piece is the same where other text
stands behind it that it does not go on with (`Piece.Written.before`), in particular where that text
starts with the same character, and where no text does (`Piece.Written.replace`). A run is the same
where a text with another remainder stops at the same place (`Scans.replace`).
-/

namespace SearchQuery

open Text (isBlank QuotedBody)

/-- The text `next` starts with the same character as `rest`, or is empty. -/
def StartsLike (next rest : List Char) : Prop := ∀ c ∈ next.head?, c ∈ rest.head?

/-- Nothing but the empty text starts like the empty text. -/
theorem StartsLike.eq_nil {next : List Char} (h : StartsLike next []) : next = [] := by
  cases next with
  | nil => rfl
  | cons c cs => cases h c rfl

/-- Behind the same text anything starts as it did. -/
theorem StartsLike.append_left {next rest : List Char} (h : StartsLike next rest)
    (front : List Char) : StartsLike (front ++ next) (front ++ rest) := by
  cases front with
  | nil => exact h
  | cons c cs => exact fun _ hd => hd

/-- A text goes on as it starts, unless it is empty. -/
theorem startsLike_append {rest : List Char} (hne : rest ≠ []) (more : List Char) :
    StartsLike (rest ++ more) rest := by
  obtain ⟨c, cs, rfl⟩ := List.exists_cons_of_ne_nil hne
  exact fun _ hd => hd

/-! ## What a token goes on with -/

/-- Would a token of this kind go on with a character behind it? -/
def Kind.goesOn {τ : Type} : Kind τ → Char → Bool
  | .space _, c => isBlank c
  | .word _, c => isWordChar c
  | kind, c => kind.growsBy c

/-- The signs that can be longer, and what makes them so. -/
theorem Kind.growsBy_eq_true_iff {kind : Kind Token} {c : Char} :
    kind.growsBy c = true ↔
      c = '=' ∧ (kind = .comparator .more ∨ kind = .comparator .less) ∨
        c = '~' ∧ kind = .comparator .unequal := by
  unfold growsBy
  split <;> grind

/-- No token goes on with a parenthesis. -/
theorem Kind.goesOn_parenthesis (kind : Kind Token) :
    kind.goesOn '(' = false ∧ kind.goesOn ')' = false := by
  cases kind with
  | space | word => exact ⟨rfl, rfl⟩
  | comparator op => cases op <;> exact ⟨rfl, rfl⟩
  | _ => exact ⟨rfl, rfl⟩

/-- Only blanks go on with a blank. -/
theorem Kind.goesOn_of_isBlank {kind : Kind Token} {c : Char} (hc : isBlank c = true)
    (hkind : ∀ run, kind ≠ .space run) : kind.goesOn c = false := by
  rw [Bool.eq_false_iff]
  intro hgoes
  unfold goesOn at hgoes
  split at hgoes
  · exact hkind _ rfl
  · rw [isBlank_of_isWordChar hgoes] at hc
    cases hc
  · rcases growsBy_eq_true_iff.mp hgoes with ⟨rfl, -⟩ | ⟨rfl, -⟩ <;> cases hc

/-- A piece ends where it does not go on. -/
theorem Piece.Written.goesOn_eq_false {kind : Kind Token} {front rest : List Char}
    (h : (Piece.token kind).Written front rest) : ∀ c ∈ rest.head?, kind.goesOn c = false := by
  cases h with
  | space _ _ hrest | word _ _ hrest => exact hrest
  | quoted => exact fun _ _ => rfl
  | unclosedQuoted => exact nofun
  | @sign kind _ _ _ hs _ hrest => cases kind <;> first | exact hrest | cases hs

/-! ## Other text behind a piece -/

/-- A piece is the same in front of any text that it does not go on with, unless it is a string that
the end of the text cuts off. -/
theorem Piece.Written.before {kind : Kind Token} {front rest next : List Char}
    (h : (Piece.token kind).Written front rest)
    (hcut : ∀ text, kind = .unclosedQuoted text → next = [])
    (hnext : ∀ c ∈ next.head?, kind.goesOn c = false) :
    (Piece.token kind).Written front next := by
  cases h with
  | space hne hall => exact .space hne hall hnext
  | word hne hall => exact .word hne hall hnext
  | quoted hread =>
    refine .quoted ?_
    have hbody := QuotedBody.read_take (by rw [hread])
    rw [hread, List.take_left] at hbody
    rw [QuotedBody.read_append (by rw [hbody]), hbody]
  | unclosedQuoted hread =>
    obtain rfl := hcut _ rfl
    exact .unclosedQuoted hread
  | sign hs hfront =>
    refine .sign hs hfront ?_
    cases kind with
    | space | word => cases hs
    | _ => exact hnext

/-- A string is cut off by the end of the text only. -/
theorem Piece.Written.eq_nil_of_unclosed {kind : Kind Token} {front rest : List Char}
    (h : (Piece.token kind).Written front rest) {text : String}
    (hkind : kind = .unclosedQuoted text) : rest = [] := by
  subst hkind
  cases h with
  | unclosedQuoted => rfl
  | sign hs => cases hs

/-- A piece is the same in front of any text that starts as what stood behind it. -/
theorem Piece.Written.replace {kind : Kind Token} {front rest next : List Char}
    (h : (Piece.token kind).Written front rest) (hnext : StartsLike next rest) :
    (Piece.token kind).Written front next := by
  refine h.before ?_ fun c hc => h.goesOn_eq_false c (hnext c hc)
  rintro text hkind
  obtain rfl := h.eq_nil_of_unclosed hkind
  exact hnext.eq_nil

/-- Whether a character other than a dot is unreadable does not depend on what follows. -/
theorem Piece.read_eq_unreadable_of_ne {c : Char} {cs : List Char}
    (h : (Piece.read c cs).1 = .unreadable) (hdot : c ≠ '.') (ds : List Char) :
    (Piece.read c ds).1 = .unreadable := by
  revert h
  fun_cases Piece.read c cs
  case case20 hblank hword _ _ _ _ _ _ _ _ _ _ _ _ _ _ _ _ _ =>
    intro _
    unfold Piece.read
    rw [if_neg hblank, if_neg hword]
    split <;> first | rfl | contradiction
  all_goals exact nofun

/-- Whether a dot is unreadable depends on the next character only. -/
theorem Piece.read_dot (d : Char) (ds : List Char) :
    (Piece.read '.' (d :: ds)).1 = .unreadable ↔ d ≠ '.' := by
  by_cases hd : d = '.'
  · subst hd
    exact iff_of_false nofun (absurd rfl)
  · refine iff_of_true ?_ hd
    unfold Piece.read
    rw [if_neg (by decide), if_neg (by decide)]
    split <;> simp_all

/-- An unreadable character stays so in front of any text that starts as what stood behind it. -/
theorem Piece.read_replace {c : Char} {rest next : List Char}
    (h : (Piece.read c rest).1 = .unreadable) (hnext : StartsLike next rest) :
    (Piece.read c next).1 = .unreadable := by
  by_cases hc : c = '.'
  · subst hc
    cases next with
    | nil => rfl
    | cons d ds =>
      obtain ⟨es, rfl⟩ := List.head?_eq_some_iff.mp (hnext d rfl)
      rw [read_dot]
      exact (read_dot d es).mp h
  · exact read_eq_unreadable_of_ne h hc next

/-- A run is the same where its text stops at the same place, in front of another stop that starts
with the same character, or of nothing. -/
theorem Scans.replace {p q : Nat} {cs left left' : List Char} {ts : List Token}
    (h : Scans p cs ts q left) (hstop : AtStop left') (hleft : StartsLike left' left) :
    ∃ read, cs = read ++ left ∧ Scans p (read ++ left') ts q left' := by
  induction h generalizing left' with
  | stop => exact ⟨[], rfl, .stop hstop⟩
  | @token p q kind front _ _ _ hw _ ih =>
    obtain ⟨read, rfl, hs⟩ := ih hstop hleft
    refine ⟨front ++ read, (List.append_assoc _ _ _).symm, ?_⟩
    rw [List.append_assoc]
    exact .token (hw.replace (hleft.append_left read)) hs
  | @closed p q r _ ds left items ts _ _ ih₁ ih₂ =>
    obtain ⟨read₂, rfl, hs₂⟩ := ih₂ hstop hleft
    -- The run over the items stops at the parenthesis, whatever stands behind the group.
    have hclosing : AtStop (')' :: (read₂ ++ left')) := .inl rfl
    obtain ⟨read₁, rfl, hs₁⟩ := ih₁ hclosing fun _ hd => hd
    refine ⟨'(' :: (read₁ ++ ')' :: read₂), by simp, ?_⟩
    rw [List.cons_append, List.append_assoc]
    exact .closed hs₁ hs₂
  | @cut p q r d _ ds left items ts _ hd _ ih₁ ih₂ =>
    obtain ⟨read₂, rfl, hs₂⟩ := ih₂ hstop hleft
    have hd' := Piece.read_replace hd (hleft.append_left read₂)
    have hcut : AtStop (d :: (read₂ ++ left')) := .inr hd'
    obtain ⟨read₁, rfl, hs₁⟩ := ih₁ hcut fun _ he => he
    refine ⟨'(' :: (read₁ ++ d :: read₂), by simp, ?_⟩
    rw [List.cons_append, List.append_assoc]
    exact .cut hs₁ hd' hs₂
  | @unclosed p q cs items h₁ _ =>
    -- At the end of the text there is nothing to replace.
    obtain rfl := hleft.eq_nil
    exact ⟨'(' :: cs, (List.append_nil _).symm, by rw [List.append_nil]; exact .unclosed h₁⟩

end SearchQuery
