import Mathlib
import SearchQuery.Proofs.Scan.Lookahead
import SearchQuery.Proofs.Forest.Room

/-!
# Scans of a text that goes on

What is written behind a text changes the tokens at its end only. A piece that something stands
behind is the same piece in every longer text, and so is one at the end of the text unless its kind
says that it may grow (`Piece.Written.append`); one that grows takes up all that it was
(`Piece.Written.grow`). Of the characters that are no part of any token only a dot at the end of the
text can become one. So a scan that stops in front of any other character is the same in every
longer text (`Scans.append`), and what becomes of the others is `Grows` (`Scans.grows`).
`Scan.ofText_append` puts this together.
-/

namespace SearchQuery

open Text (width isBlank suffixAt? QuotedBody)

/-- Can a token at the end of a text become another one when the text goes on? -/
def Kind.mayGrow {τ : Type} : Kind τ → Bool
  | .space _ | .word _ | .unclosedQuoted _ | .unclosedGroup _ => true
  | .comparator .more | .comparator .less | .comparator .unequal => true
  | _ => false

/-! ## Pieces in a longer text -/

/-- A token that cannot grow goes on with no character. -/
theorem Kind.goesOn_of_not_mayGrow {kind : Kind Token} (h : kind.mayGrow = false) (c : Char) :
    kind.goesOn c = false := by
  cases kind with
  | space | word => cases h
  | comparator op => cases op <;> first | rfl | cases h
  | _ => rfl

/-- A piece that something stands behind is the same in a longer text, and so is one that cannot
grow. -/
theorem Piece.Written.append {kind : Kind Token} {front rest : List Char}
    (h : (Piece.token kind).Written front rest) (hrest : rest ≠ [] ∨ kind.mayGrow = false)
    (more : List Char) : (Piece.token kind).Written front (rest ++ more) := by
  rcases hrest with hne | hgrow
  · exact h.replace (startsLike_append hne more)
  · refine h.before ?_ fun c _ => Kind.goesOn_of_not_mayGrow hgrow c
    rintro text rfl
    cases hgrow

/-- A run of one sort of characters takes up what it can of a longer text. -/
theorem forall_append_takeWhile {p : Char → Bool} {front : List Char} (more : List Char)
    (h : ∀ c ∈ front, p c = true) : ∀ c ∈ front ++ more.takeWhile p, p c = true :=
  List.forall_mem_append.mpr ⟨h, fun _ hc => List.mem_takeWhile_imp hc⟩

/-- A sign at the end of a text is the same sign in a longer text, or a longer sign. -/
theorem Piece.Written.grow_sign {kind : Kind Token} {s : String} {more : List Char}
    (hs : kind.sign? = some s) :
    ∃ kind' taken rest, more = taken ++ rest ∧
      (Piece.token kind').Written (s.toList ++ taken) rest := by
  by_cases hend : ∀ c ∈ more.head?, kind.growsBy c = false
  · exact ⟨kind, [], more, rfl, .sign hs (by simp) hend⟩
  · obtain ⟨c, hc, hgrow⟩ : ∃ c ∈ more.head?, kind.growsBy c = true := by simpa using hend
    obtain ⟨rest, rfl⟩ := List.head?_eq_some_iff.mp hc
    -- The three signs that grow become the comparators of two characters.
    unfold Kind.growsBy at hgrow
    split at hgrow
    · cases hs
      exact ⟨.comparator .atLeast, ['='], rest, rfl, .sign rfl rfl fun _ _ => rfl⟩
    · cases hs
      exact ⟨.comparator .atMost, ['='], rest, rfl, .sign rfl rfl fun _ _ => rfl⟩
    · cases hs
      exact ⟨.comparator .unlike, ['~'], rest, rfl, .sign rfl rfl fun _ _ => rfl⟩
    · cases hgrow

/-- A piece at the end of a text takes up all that it was in a longer text. -/
theorem Piece.Written.grow {kind : Kind Token} {front : List Char}
    (h : (Piece.token kind).Written front []) (more : List Char) :
    ∃ kind' taken rest, more = taken ++ rest ∧
      (Piece.token kind').Written (front ++ taken) rest := by
  cases h with
  | space hne hall =>
    have hw := Written.space (by simp [hne]) (forall_append_takeWhile more hall)
      (head?_dropWhile _ more)
    exact ⟨_, _, _, List.takeWhile_append_dropWhile.symm, hw⟩
  | word hne hall =>
    have hw := Written.word (by simp [hne]) (forall_append_takeWhile more hall)
      (head?_dropWhile _ more)
    exact ⟨_, _, _, List.takeWhile_append_dropWhile.symm, hw⟩
  | quoted hread =>
    have hw := (Written.quoted hread).append (.inr rfl) more
    exact ⟨_, [], more, rfl, by simpa using hw⟩
  | @unclosedQuoted body _ hread =>
    have hle := QuotedBody.length_le_used_append (by rw [hread]) more
    have hw := written_quoted (body ++ more)
    rw [List.take_append, List.take_of_length_le hle, List.drop_append,
      List.drop_eq_nil_of_le hle, List.nil_append] at hw
    exact ⟨_, _, _, (List.take_append_drop _ more).symm, hw⟩
  | sign hs hfront =>
    subst hfront
    exact grow_sign hs

/-- An unreadable character stays so in a longer text, unless it is a dot at the end. -/
theorem Piece.read_append_of_unreadable {c : Char} {cs : List Char}
    (h : (Piece.read c cs).1 = .unreadable) (hdot : c = '.' → cs ≠ []) (more : List Char) :
    (Piece.read c (cs ++ more)).1 = .unreadable := by
  by_cases hc : c = '.'
  · subst hc
    obtain ⟨d, ds, rfl⟩ := List.exists_cons_of_ne_nil (hdot rfl)
    rw [List.cons_append, read_dot]
    exact (read_dot d ds).mp h
  · exact read_eq_unreadable_of_ne h hc _

/-! ## Scans that stop in front of a character -/

/-- A stop stays one in a longer text, unless it is a dot at the end. -/
theorem AtStop.append {c : Char} {cs : List Char} (h : AtStop (c :: cs))
    (hdot : c = '.' → cs ≠ []) (more : List Char) : AtStop (c :: cs ++ more) := by
  rcases h with h | h
  · obtain rfl := Piece.eq_of_read_eq_closing h
    exact .inl rfl
  · exact .inr (Piece.read_append_of_unreadable h hdot more)

/-- A run that stops in front of a character other than a dot at the end of the text is the same run
in every longer text. -/
theorem Scans.append {p q : Nat} {cs left : List Char} {ts : List Token}
    (h : Scans p cs ts q left) (hne : left ≠ []) (hdot : left ≠ ['.']) (more : List Char) :
    Scans p (cs ++ more) ts q (left ++ more) := by
  have hstop : AtStop (left ++ more) := by
    obtain ⟨c, cs, rfl⟩ := List.exists_cons_of_ne_nil hne
    refine h.atStop.append ?_ more
    rintro rfl rfl
    exact hdot rfl
  obtain ⟨read, rfl, hs⟩ := h.replace hstop (startsLike_append hne more)
  rw [List.append_assoc]
  exact hs

/-- An unreadable character other than a dot at the end of the text still ends the items of a group
in a longer text. -/
theorem Scans.append_cut {p q : Nat} {d : Char} {cs ds : List Char} {items : List Token}
    (h : Scans p cs items q (d :: ds)) (hd : (Piece.read d ds).1 = .unreadable)
    (hdot : d = '.' → ds ≠ []) (more : List Char) :
    Scans p (cs ++ more) items q (d :: (ds ++ more)) ∧
      (Piece.read d (ds ++ more)).1 = .unreadable := by
  have hleft : d :: ds ≠ ['.'] := by
    rintro ⟨rfl, rfl⟩
    exact hdot rfl rfl
  exact ⟨h.append nofun hleft more, Piece.read_append_of_unreadable hd hdot more⟩

/-! ## Scans up to the end of the text -/

/-- What becomes of the tokens at the end of a text when it goes on: others may follow, the last one
may become another one, and a group that was left open takes up what becomes of its items. -/
inductive Grows : List Token → List Token → Prop
  | done {us : List Token} : Grows [] us
  | keep {t : Token} {ts us : List Token} : Grows ts us → Grows (t :: ts) (t :: us)
  | last {t : Token} {us : List Token} : t.kind.mayGrow = true → t.isGroup = false → Grows [t] us
  | group {kind : List Token → Kind Token} {items items' us : List Token} {p : Nat} {span : Span}
      {flagged : Bool} : kind = .group ∨ kind = .unclosedGroup → Grows items items' →
      Grows [.cutOff items p] (⟨kind items', some p, span, flagged⟩ :: us)

/-- All tokens but the last one stay. -/
theorem Grows.dropLast {ts us : List Token} (h : Grows ts us) : ts.dropLast <+: us := by
  induction h with
  | done => exact List.nil_prefix
  | @keep t ts us _ ih =>
    cases ts with
    | nil => exact List.nil_prefix
    | cons u ts => exact List.prefix_cons_inj t |>.mpr ih
  | last | group => exact List.nil_prefix

/-- The last token stays too, if it cannot grow. -/
theorem Grows.isPrefix {ts us : List Token} (h : Grows ts us)
    (hlast : ∀ t ∈ ts.getLast?, t.kind.mayGrow = false) : ts <+: us := by
  induction h with
  | done => exact List.nil_prefix
  | @keep t ts us _ ih =>
    exact List.prefix_cons_inj t |>.mpr (ih (getLast?_of_cons hlast))
  | @last t us hgrow =>
    rw [hlast t rfl] at hgrow
    cases hgrow
  | group => cases hlast _ rfl

/-- The first group that goes too deep stays the first one. -/
theorem Grows.overflow {ts us : List Token} {room offset : Nat} (h : Grows ts us)
    (hts : overflowAll? room ts = some offset) : overflowAll? room us = some offset := by
  induction h generalizing room with
  | done => cases hts
  | @keep t ts us _ ih =>
    rw [overflowAll?] at hts ⊢
    cases ht : t.overflow? room with
    | some _ =>
      rw [ht] at hts
      exact hts
    | none =>
      rw [ht] at hts
      exact ih hts
  | last _ hgroup =>
    rw [overflowAll?, Token.overflow?_of_not_isGroup hgroup] at hts
    cases hts
  | group hkind _ ih =>
    cases room with
    | zero =>
      cases hts
      rcases hkind with rfl | rfl <;> rfl
    | succ room =>
      rw [Token.cutOff, overflowAll?, Token.overflow?_group (.inr rfl), overflowAll?,
        Option.or_none] at hts
      rw [overflowAll?, Token.overflow?_group hkind, ih hts]
      rfl

/-- A run over the items of a group is part of a run over the text from the group on, which goes
further unless the text ends. -/
theorem Scans.exists_group {p q : Nat} {cs left : List Char} {items : List Token}
    (h : Scans (p + 1) cs items q left) :
    ∃ (kind : List Token → Kind Token) (span : Span) (us : List Token) (r : Nat)
      (left' : List Char), (kind = .group ∨ kind = .unclosedGroup) ∧
      Scans p ('(' :: cs) (⟨kind items, some p, span, false⟩ :: us) r left' ∧
      (q < r ∨ left = [] ∧ q = r) := by
  cases left with
  | nil => exact ⟨.unclosedGroup, _, [], q, [], .inr rfl, .unclosed h, .inr ⟨rfl, rfl⟩⟩
  | cons d ds =>
    rcases h.atStop with hd | hd
    · obtain rfl := Piece.eq_of_read_eq_closing hd
      obtain ⟨us, r, left', hs⟩ := exists_scans (q + 1) ds
      obtain ⟨read, -, hr⟩ := hs.suffix
      exact ⟨.group, _, us, r, left', .inl rfl, .closed h hs, .inl (by omega)⟩
    · obtain ⟨us, r, left', hs⟩ := exists_scans (q + d.utf8Size) ds
      obtain ⟨read, -, hr⟩ := hs.suffix
      have hpos := d.utf8Size_pos
      exact ⟨.unclosedGroup, _, us, r, left', .inr rfl, .cut h hd hs, .inl (by omega)⟩

/-- At the end of a text there is nothing to go over. -/
theorem Scans.eq_of_nil {p q : Nat} {left : List Char} {ts : List Token}
    (h : Scans p [] ts q left) : ts = [] ∧ q = p ∧ left = [] := h.unique (.stop trivial)

/-- The tokens at the end of a text grow when the text goes on, and nothing is read less far. -/
theorem Scans.grows {p q : Nat} {cs left : List Char} {ts : List Token}
    (h : Scans p cs ts q left) (hleft : left = [] ∨ left = ['.']) (more : List Char) :
    ∃ us q' left', Scans p (cs ++ more) us q' left' ∧ Grows ts us ∧ q ≤ q' := by
  induction h with
  | @stop p cs _ =>
    obtain ⟨us, q', left', hs⟩ := exists_scans p (cs ++ more)
    obtain ⟨read, -, hq⟩ := hs.suffix
    exact ⟨us, q', left', hs, .done, by omega⟩
  | @token p q kind front rest left ts hw hs ih =>
    by_cases hsame : rest ≠ [] ∨ kind.mayGrow = false
    · obtain ⟨us, q', left', hs', hgrows, hle⟩ := ih hleft
      rw [List.append_assoc]
      exact ⟨_, q', left', .token (hw.append hsame more) hs', .keep hgrows, hle⟩
    · obtain ⟨hrest, hgrow⟩ := not_or.mp hsame
      obtain rfl := not_not.mp hrest
      obtain ⟨rfl, rfl, rfl⟩ := hs.eq_of_nil
      obtain ⟨kind', taken, rest, rfl, hw'⟩ := hw.grow more
      obtain ⟨us, q', left', hs'⟩ := exists_scans (p + width (front ++ taken)) rest
      obtain ⟨read, -, hq⟩ := hs'.suffix
      rw [List.append_nil, ← List.append_assoc]
      refine ⟨_, q', left', .token hw' hs', .last (Bool.not_eq_false _ ▸ hgrow) hw.isGroup, ?_⟩
      · rw [Text.width_append] at hq
        omega
  | closed h₁ _ _ ih₂ =>
    obtain ⟨us, q', left', hs, hgrows, hle⟩ := ih₂ hleft
    exact ⟨_, q', left', .closed (h₁.append nofun nofun more) hs, .keep hgrows, hle⟩
  | @cut p q r d cs ds left items ts h₁ hd h₂ ih₁ ih₂ =>
    by_cases hdot : d = '.' ∧ ds = []
    · obtain ⟨rfl, rfl⟩ := hdot
      obtain ⟨rfl, rfl, rfl⟩ := h₂.eq_of_nil
      obtain ⟨items', q', left', hs, hgrows, hle⟩ := ih₁ (.inr rfl)
      obtain ⟨kind, span, us, r, left'', hkind, hs', hr⟩ := hs.exists_group
      refine ⟨_, r, left'', hs', .group hkind hgrows, ?_⟩
      have hsize : '.'.utf8Size = 1 := rfl
      rcases hr with hr | ⟨rfl, rfl⟩
      · omega
      · -- The longer text has been read to its end, and the shorter one up to its last character.
        have hw := h₁.width_eq
        have hw' := hs.width_eq
        simp only [Text.width_append, Text.width_cons, Text.width_nil] at hw hw'
        omega
    · obtain ⟨us, q', left', hs, hgrows, hle⟩ := ih₂ hleft
      obtain ⟨hitems, hd'⟩ := h₁.append_cut hd (fun hd hds => hdot ⟨hd, hds⟩) more
      exact ⟨_, q', left', .cut hitems hd' hs, .keep hgrows, hle⟩
  | @unclosed p q cs items h ih =>
    obtain ⟨items', q', left', hs, hgrows, hle⟩ := ih (.inl rfl)
    obtain ⟨kind, span, us, r, left'', hkind, hs', hr⟩ := hs.exists_group
    exact ⟨_, r, left'', hs', .group hkind hgrows, by omega⟩

/-! ## Typing on -/

/-- A text is scanned as its run goes. -/
theorem Scan.ofText_of_scans {limit q : Nat} {text : String} {ts : List Token} {left : List Char}
    (hs : Scans 0 text.toList ts q left) :
    ofText limit text =
      match overflowAll? limit ts with
      | some offset => .error (.tooDeep offset limit)
      | none => .ok ⟨0, q, ts⟩ :=
  (ofText_eq limit text).trans (ofChars_of_scans hs limit)

/-- Typing on never disturbs what is finished. A text that is refused stays refused for the same
reason. Of a text that is scanned, all tokens but the last one stay, and the scan stops no earlier;
the last token stays too, if the text was scanned to its end and the token is none that may grow.
The whole scan stays as it is, if it stopped in front of a character other than a dot at the end. -/
theorem Scan.ofText_append (limit : Nat) (text more : String) :
    (∀ fault, ofText limit text = .error fault → ofText limit (text ++ more) = .error fault) ∧
      (∀ scan scan', ofText limit text = .ok scan → ofText limit (text ++ more) = .ok scan' →
        scan.tokens.dropLast <+: scan'.tokens ∧ scan.stop ≤ scan'.stop ∧
          (scan.stop = width text.toList →
            (∀ t ∈ scan.tokens.getLast?, t.kind.mayGrow = false) →
              scan.tokens <+: scan'.tokens)) ∧
      ∀ scan c rest, ofText limit text = .ok scan →
        suffixAt? scan.stop text.toList = some (c :: rest) → (c = '.' → rest ≠ []) →
          ofText limit (text ++ more) = .ok scan := by
  obtain ⟨ts, q, left, hs⟩ := exists_scans 0 text.toList
  -- Either the whole scan stays as it is, or the tokens at its end grow.
  by_cases hstop : left ≠ [] ∧ left ≠ ['.']
  · have hs' := hs.append hstop.1 hstop.2 more.toList
    rw [← String.toList_append] at hs'
    have hsame : ofText limit (text ++ more) = ofText limit text := by
      rw [ofText_of_scans hs, ofText_of_scans hs']
    rw [hsame]
    refine ⟨fun _ h => h, ?_, fun _ _ _ h _ _ => h⟩
    intro scan scan' h h'
    rw [h] at h'
    cases h'
    exact ⟨List.dropLast_prefix _, Nat.le_refl _, fun _ _ => List.prefix_refl _⟩
  · have hend : left = [] ∨ left = ['.'] := by
      by_cases hne : left = []
      · exact .inl hne
      · exact .inr (by simpa [hne] using hstop)
    obtain ⟨us, q', left', hs', hgrows, hle⟩ := hs.grows hend more.toList
    rw [← String.toList_append] at hs'
    rw [ofText_of_scans hs, ofText_of_scans hs']
    refine ⟨?_, ?_, ?_⟩
    · intro fault h
      cases ho : overflowAll? limit ts with
      | none =>
        rw [ho] at h
        cases h
      | some offset =>
        rw [ho] at h
        rw [hgrows.overflow ho]
        exact h
    · intro scan scan' h h'
      split at h
      · cases h
      split at h'
      · cases h'
      cases h
      cases h'
      exact ⟨hgrows.dropLast, hle, fun _ hlast => hgrows.isPrefix hlast⟩
    · intro scan c rest h hc hdot
      split at h
      · cases h
      cases h
      rw [hs.suffixAt? (Text.suffixAt?_zero _)] at hc
      cases hc
      rcases hend with hend | hend
      · cases hend
      · cases hend
        exact absurd rfl (hdot rfl)

/-- The law for a group that is nested too deeply at every length, for a closed group in front of
one that the end of the text leaves open, and for a parenthesis that closes nothing. -/
theorem Scan.ofText_append_typed :
    (Scan.ofText 0 "(a." = .error (.tooDeep 0 0) ∧
      Scan.ofText 0 ("(a." ++ ".b)") = .error (.tooDeep 0 0)) ∧
    (∃ scan scan', Scan.ofText 1 "(b)" = .ok scan ∧ Scan.ofText 1 ("(b)" ++ "(a.") = .ok scan' ∧
      scan.tokens = [.covering (.group [.covering (.word "b") 1 2]) 0 3] ∧
      scan.tokens <+: scan'.tokens) ∧
    ∃ scan, Scan.ofText 1 "a)b" = .ok scan ∧ scan.stop = 1 ∧
      Scan.ofText 1 ("a)b" ++ "\"") = .ok scan := by
  have hfault : Scan.ofText 0 "(a." = .error (.tooDeep 0 0) := by cbv
  have hfull : Scan.ofText 1 "(b)" =
      .ok ⟨0, 3, [.covering (.group [.covering (.word "b") 1 2]) 0 3]⟩ := by cbv
  have hmore : Scan.ofText 1 ("(b)" ++ "(a.") =
      .ok ⟨0, 6, [.covering (.group [.covering (.word "b") 1 2]) 0 3,
        .cutOff [.covering (.word "a") 4 5] 3]⟩ := by cbv
  have hstop : Scan.ofText 1 "a)b" = .ok ⟨0, 1, [.covering (.word "a") 0 1]⟩ := by cbv
  refine ⟨⟨hfault, (Scan.ofText_append 0 "(a." ".b)").1 _ hfault⟩, ?_, ?_⟩
  · obtain ⟨-, -, hkept⟩ := (Scan.ofText_append 1 "(b)" "(a.").2.1 _ _ hfull hmore
    refine ⟨_, _, hfull, hmore, rfl, hkept rfl ?_⟩
    rintro t ⟨⟩
    rfl
  · refine ⟨_, hstop, rfl, (Scan.ofText_append 1 "a)b" "\"").2.2 _ ')' ['b'] hstop rfl ?_⟩
    simp

end SearchQuery
